import Zdeceptron.Instantiate.Hir

/-!
# Expanding the components of a view

Every use of a component is replaced by a copy of its body, with the parameters replaced by the
expressions the caller wrote and every binder renamed.  A step takes the state of the pass to a
result and the next state.
-/

namespace Zdeceptron
namespace Instantiate

open Bodies (Arg)

variable {Op Head : Type}

section State

def MAX_NODE_DEPTH : Nat := 256

def INSTANCE_BUDGET : Nat := 10000

variable (Op Head)

/-- What one copy of a component body rewrites: whether it is one, its parameters, the nodes
nested under the call site, already expanded, and the new names of its binders. -/
structure Frame where
  copying : Bool
  params : Nat → Option (HirExpr Op)
  children : List (HirNode Op Head)
  locals : Nat → Option Nat

def Frame.empty : Frame Op Head := ⟨false, fun _ => none, [], fun _ => none⟩

/-- The state of the pass, with the frame in force.  `overflowed` is not in the source: it says
that the call stack ran out. -/
structure Pass where
  frame : Frame Op Head
  locals : List String
  places : Nat
  errors : List String
  stack : List Nat
  depth : Nat
  reported_depth : Bool
  expansions : Nat
  overflowed : Bool

variable {Op Head}

def Pass.report (s : Pass Op Head) (message : String) : Pass Op Head :=
  { s with errors := s.errors ++ [message] }

def Pass.localName (s : Pass Op Head) (id : Nat) : String := s.locals[id]?.getD ""

variable (Op Head)

abbrev Step (α : Type) := Pass Op Head → α × Pass Op Head

end State

section Lists

variable {α β : Type}

def eachOf (f : α → Step Op Head β) : List α → Step Op Head (List β)
  | [], s => ([], s)
  | a :: as, s =>
      let head := f a s
      let tail := eachOf f as head.2
      (head.1 :: tail.1, tail.2)

def optionally (f : α → Step Op Head β) : Option α → Step Op Head (Option β)
  | none, s => (none, s)
  | some a, s => (some (f a s).1, (f a s).2)

end Lists

section Copying

def rebind (id : Nat) : Step Op Head Nat := fun s =>
  if s.frame.copying then
    (s.locals.length, { s with
      locals := s.locals ++ [s.localName id]
      frame := { s.frame with
        locals := Function.update s.frame.locals id (some s.locals.length) } })
  else (id, s)

def rename (frame : Frame Op Head) (id : Nat) : Nat := (frame.locals id).getD id

mutual

/-- Copy one expression into this instance.  A parameter becomes the caller's own expression. -/
def expr : HirExpr Op → Step Op Head (HirExpr Op)
  | .ref res, s =>
      if s.frame.copying then
        match res with
        | .local_ id =>
            match s.frame.params id with
            | some substituted => (substituted, s)
            | none => (.ref (.local_ (rename s.frame id)), s)
        | res => (.ref res, s)
      else (.ref res, s)
  | .form op operands, s =>
      if s.frame.copying then
        let copied := exprs operands s
        (.form op copied.1, copied.2)
      else (.form op operands, s)
  | .mapInside var source to_, s =>
      if s.frame.copying then
        let source' := expr source s
        let var' := rebind var source'.2
        let to' := expr to_ var'.2
        (.mapInside var'.1 source'.1 to'.1, to'.2)
      else (.mapInside var source to_, s)

def exprs : List (HirExpr Op) → Step Op Head (List (HirExpr Op))
  | [], s => ([], s)
  | e :: es, s =>
      let head := expr e s
      let tail := exprs es head.2
      (head.1 :: tail.1, tail.2)

end

def arg : Arg (HirExpr Op) → Step Op Head (Arg (HirExpr Op))
  | .positional e, s => (.positional (expr e s).1, (expr e s).2)
  | .named name e, s => (.named name (expr e s).1, (expr e s).2)

def pathSeg : HirPathSeg Op → Step Op Head (HirPathSeg Op)
  | .field name, s => (.field name, s)
  | .index e, s => (.index (expr e s).1, (expr e s).2)

def placeBase : Res → Step Op Head Res
  | .local_ id, s =>
      match s.frame.params id with
      | some (.ref res) => (res, s)
      | some _ =>
          (.local_ id, s.report (
            s!"`{s.localName id}` is written to inside this component, so the value passed for " ++
              s!"it has to be a name that can be written to — a `state`, or another " ++
              s!"component's parameter. This call site passes a computed value instead."))
      | none => (.local_ (rename s.frame id), s)
  | res, s => (res, s)

def place (p : HirPlace Op) : Step Op Head (HirPlace Op) := fun s =>
  let base := placeBase p.base s
  let path := eachOf pathSeg p.path { base.2 with places := base.2.places + 1 }
  (⟨base.2.places, base.1, path.1⟩, path.2)

def pipeline : HirPipeline Op → Step Op Head (HirPipeline Op)
  | .from_ e, s => (.from_ (expr e s).1, (expr e s).2)
  | .takeFirst e, s => (.takeFirst (expr e s).1, (expr e s).2)
  | .keep var cond, s =>
      let var' := rebind var s
      let cond' := expr cond var'.2
      (.keep var'.1 cond'.1, cond'.2)
  | .sort var key, s =>
      let var' := rebind var s
      let key' := expr key var'.2
      (.sort var'.1 key'.1, key'.2)
  | .mapEach var to_, s =>
      let var' := rebind var s
      let to' := expr to_ var'.2
      (.mapEach var'.1 to'.1, to'.2)
  | .fold item total starting step, s =>
      -- the seed is written outside the scope of the binders
      let starting' := expr starting s
      let total' := rebind total starting'.2
      let item' := rebind item total'.2
      let step' := expr step item'.2
      (.fold item'.1 total'.1 starting'.1 step'.1, step'.2)

def mutation (verb : Verb) (p : HirPlace Op) (value : HirExpr Op) : Step Op Head (HirStmt Op) :=
  fun s =>
    match verb with
    | .set =>
        let place' := place p s
        let value' := expr value place'.2
        (.mutation verb place'.1 value'.1, value'.2)
    | verb =>
        let value' := expr value s
        let place' := place p value'.2
        (.mutation verb place'.1 value'.1, place'.2)

def binding (b : Nat × HirExpr Op) : Step Op Head (Nat × HirExpr Op) := fun s =>
  let value := expr b.2 s
  let name := rebind b.1 value.2
  ((name.1, value.1), name.2)

mutual

def stmt : HirStmt Op → Step Op Head (HirStmt Op)
  | .give e, s => (.give (expr e s).1, (expr e s).2)
  | .pipeline clause, s => (.pipeline (pipeline clause s).1, (pipeline clause s).2)
  | .mutation verb p value, s => mutation verb p value s
  | .when scrutinee arms, s =>
      let scrutinee' := expr scrutinee s
      let arms' := stmtArms arms scrutinee'.2
      (.when scrutinee'.1 arms'.1, arms'.2)
  | .each var iter body, s =>
      let iter' := expr iter s
      let var' := rebind var iter'.2
      let body' := stmts body var'.2
      (.each var'.1 iter'.1 body'.1, body'.2)
  | .ifThen cond then_ none, s =>
      let cond' := expr cond s
      let then' := stmts then_ cond'.2
      (.ifThen cond'.1 then'.1 none, then'.2)
  | .ifThen cond then_ (some otherwise), s =>
      let cond' := expr cond s
      let then' := stmts then_ cond'.2
      let otherwise' := stmts otherwise then'.2
      (.ifThen cond'.1 then'.1 (some otherwise'.1), otherwise'.2)
  | .bind bindings, s =>
      let bindings' := eachOf binding bindings s
      (.bind bindings'.1, bindings'.2)
  | .do_ call, s => (.do_ (expr call s).1, (expr call s).2)

def stmts : List (HirStmt Op) → Step Op Head (List (HirStmt Op))
  | [], s => ([], s)
  | first :: rest, s =>
      let head := stmt first s
      let tail := stmts rest head.2
      (head.1 :: tail.1, tail.2)

def stmtArm : HirArm Op → Step Op Head (HirArm Op)
  | .show_ pattern bindings e, s =>
      let bindings' := eachOf rebind bindings s
      let e' := expr e bindings'.2
      (.show_ pattern bindings'.1 e'.1, e'.2)
  | .block pattern bindings body, s =>
      let bindings' := eachOf rebind bindings s
      let body' := stmts body bindings'.2
      (.block pattern bindings'.1 body'.1, body'.2)

def stmtArms : List (HirArm Op) → Step Op Head (List (HirArm Op))
  | [], s => ([], s)
  | first :: rest, s =>
      let head := stmtArm first s
      let tail := stmtArms rest head.2
      (head.1 :: tail.1, tail.2)

end

def block (body : List (HirStmt Op)) : Step Op Head (List (HirStmt Op)) := fun s =>
  if s.frame.copying then stmts body s else (body, s)

/-- State of the copy.  What the declaration computes at each beat is left out. -/
def local_signal (state : LocalSignal Op Head) : Step Op Head (LocalSignal Op Head) := fun s =>
  let init := expr state.init s
  let local_ := rebind state.local_ init.2
  (⟨local_.1, state.head, none, init.1⟩, local_.2)

end Copying

section Arguments

def count (n : Nat) (noun : String) : String :=
  if n = 1 then s!"1 {noun}" else s!"{n} {noun}s"

def english_list (names : List String) : String :=
  let quoted := names.map fun name => s!"`{name}`"
  match quoted.getLast? with
  | none => "no arguments"
  | some last =>
      match quoted.dropLast with
      | [] => last
      | rest => ", ".intercalate rest ++ s!", and {last}"

/-- What the arguments seen so far bind, how many of them were positional, and whether one was
refused. -/
structure Binding (Op : Type) where
  bound : Nat → Option (HirExpr Op)
  positional : Nat
  failed : Bool

def bindArgument (name : String) (component : Component Op Head) (b : Binding Op) :
    Arg (HirExpr Op) → Step Op Head (Binding Op)
  | .positional e, s =>
      match component.params[b.positional]? with
      | none =>
          ({ b with failed := true }, s.report (
            s!"`{name}` takes " ++ count component.params.length "argument" ++
              ", and this is one more."))
      | some param =>
          let value := expr e s
          ({ b with
            positional := b.positional + 1
            bound := Function.update b.bound param (some value.1) }, value.2)
  | .named written e, s =>
      match component.params.find? fun param => s.localName param == written with
      | none =>
          ({ b with failed := true }, s.report (
            s!"`{name}` has no parameter called `{written}`. It takes " ++
              s!"{english_list (component.params.map s.localName)}."))
      | some param =>
          let value := expr e s
          let bound := Function.update b.bound param (some value.1)
          if (b.bound param).isSome then
            ({ b with bound := bound, failed := true }, value.2.report (
              s!"`{written}` is given twice here. Each parameter takes one value."))
          else ({ b with bound := bound }, value.2)

def bindArguments (name : String) (component : Component Op Head) :
    List (Arg (HirExpr Op)) → Binding Op → Step Op Head (Binding Op)
  | [], b, s => (b, s)
  | a :: args, b, s =>
      let next := bindArgument name component b a s
      bindArguments name component args next.1 next.2

def bind_arguments (name : String) (component : Component Op Head)
    (args : List (Arg (HirExpr Op))) : Step Op Head (Option (Nat → Option (HirExpr Op))) :=
  fun s =>
    let bound := bindArguments name component args ⟨fun _ => none, 0, false⟩ s
    let missing := component.params.filter fun param => (bound.1.bound param).isNone
    if missing.isEmpty then
      (if bound.1.failed then none else some bound.1.bound, bound.2)
    else
      (none, bound.2.report (
        s!"`{name}` needs {english_list (missing.map bound.2.localName)}, which this does not " ++
          s!"give it."))

end Arguments

section Walk

variable (hir : Hir Op Head)

abbrev Runs (Op Head : Type) := List (HirNode Op Head) → Step Op Head (List (HirNode Op Head))

/-- Inside a copy of the component: a frame of its own, and the component on the stack. -/
def Pass.inside (s : Pass Op Head) (id : Nat) (params : Nat → Option (HirExpr Op))
    (children : List (HirNode Op Head)) : Pass Op Head :=
  { s with frame := ⟨true, params, children, fun _ => none⟩, stack := s.stack ++ [id] }

def copyBody (runs : Runs Op Head) (id : Nat) (component : Component Op Head)
    (params : Nat → Option (HirExpr Op)) (children : List (HirNode Op Head)) :
    Step Op Head (List (LocalSignal Op Head) × List (HirNode Op Head)) := fun s =>
  let locals := eachOf local_signal component.states (s.inside id params children)
  let body := runs component.body locals.2
  ((locals.1, body.1), { body.2 with frame := s.frame, stack := s.stack })

def splice (runs : Runs Op Head) (id : Nat) (component : Component Op Head)
    (element : HirElement Op Head) (params : Nat → Option (HirExpr Op)) :
    Step Op Head (List (HirNode Op Head)) := fun s =>
  let name := hir.name id
  let children := runs element.children s
  if !children.1.isEmpty && !component.takesChildren then
    ([], children.2.report (
      s!"`{name}` does not take `children`, so these nested nodes have nowhere to go. " ++
        s!"Write `component {name} with children` and place them with `children` in its body."))
  else
    let copied := copyBody runs id component params children.1 children.2
    if copied.1.1.isEmpty then (copied.1.2, copied.2)
    else ([.scope copied.1.1 copied.1.2 element.span], copied.2)

def expand (runs : Runs Op Head) (id : Nat) (component : Component Op Head)
    (element : HirElement Op Head) : Step Op Head (List (HirNode Op Head)) := fun s =>
  if s.stack.contains id then
    let path := (s.stack.dropWhile (· ≠ id) ++ [id]).map hir.name
    ([], s.report (
      "These components contain each other: " ++ " → ".intercalate path ++ ". A component is " ++
        "written where it is used, so one that contains itself describes a view with no end."))
  else
    let counted := { s with expansions := s.expansions + 1 }
    if INSTANCE_BUDGET < counted.expansions then
      if counted.expansions = INSTANCE_BUDGET + 1 then
        let nesting := (s.stack ++ [id]).map hir.name
        ([], counted.report (
          s!"This view expands to more than {INSTANCE_BUDGET} component instances. A " ++
            "component is written out where it is used, so components that each use two of " ++
            "the next multiply rather than add: " ++ " → ".intercalate nesting ++ ". Nothing " ++
            "here contains itself, so the depth is finite — it is the width that is not."))
      else ([], counted)
    else
      let bound := bind_arguments (hir.name id) component element.args counted
      match bound.1 with
      | none => ([], bound.2)
      | some params => splice hir runs id component element params bound.2

def elementNode (runs : Runs Op Head) (element : HirElement Op Head) :
    Step Op Head (List (HirNode Op Head)) := fun s =>
  match element with
  | .mk name res args children span =>
      match component_of hir res with
      | some (id, component) => expand hir runs id component (.mk name res args children span) s
      | none =>
          let args' := eachOf arg args s
          let children' := runs children args'.2
          ([.element (.mk name res args'.1 children'.1 span)], children'.2)

def shownArm (pattern : String) (bindings : List Nat) : List (HirNode Op Head) →
    HirNodeArm Op Head
  | [.element element] => .show_ pattern bindings element
  | shown => .nodes pattern bindings shown

def nodeArm (runs : Runs Op Head) : HirNodeArm Op Head → Step Op Head (HirNodeArm Op Head)
  | .show_ pattern bindings element, s =>
      let bindings' := eachOf rebind bindings s
      let shown := elementNode hir runs element bindings'.2
      (shownArm pattern bindings'.1 shown.1, shown.2)
  | .nodes pattern bindings nodes, s =>
      let bindings' := eachOf rebind bindings s
      let nodes' := runs nodes bindings'.2
      (.nodes pattern bindings'.1 nodes'.1, nodes'.2)

/-- One node.  It becomes a run, because `children` and a component become one. -/
def node (runs : Runs Op Head) : HirNode Op Head → Step Op Head (List (HirNode Op Head))
  | .element element, s => elementNode hir runs element s
  | .each var iter body span, s =>
      let iter' := expr iter s
      let var' := rebind var iter'.2
      let body' := runs body var'.2
      ([.each var'.1 iter'.1 body'.1 span], body'.2)
  | .when scrutinee arms span, s =>
      let scrutinee' := expr scrutinee s
      let arms' := eachOf (nodeArm hir runs) arms scrutinee'.2
      ([.when scrutinee'.1 arms'.1 span], arms'.2)
  | .ifThen cond then_ otherwise span, s =>
      let cond' := expr cond s
      let then' := runs then_ cond'.2
      let otherwise' := optionally runs otherwise then'.2
      ([.ifThen cond'.1 then'.1 otherwise'.1 span], otherwise'.2)
  | .handler event payload body span, s =>
      let payload' := optionally rebind payload s
      let body' := block body payload'.2
      ([.handler event payload'.1 body'.1 span], body'.2)
  -- the call site's nodes, already expanded in the caller's own frame
  | .children _, s => (s.frame.children, s)
  | .scope locals body span, s =>
      let locals' := eachOf local_signal locals s
      let body' := runs body locals'.2
      ([.scope locals'.1 body'.1 span], body'.2)

def reportDepth (s : Pass Op Head) : Pass Op Head :=
  if s.reported_depth then s
  else { s.report (
    s!"This view nests more than {MAX_NODE_DEPTH} levels deep once its components are written " ++
      "out where they are used. Give the inner parts names and place them beside each other " ++
      "rather than inside each other.") with reported_depth := true }

/-- A run of nodes, on a call stack that has room for this many runs inside each other. -/
def nodes : Nat → Runs Op Head
  | 0, _, s => ([], { s with overflowed := true })
  | room + 1, ns, s =>
      if MAX_NODE_DEPTH ≤ s.depth then ([], reportDepth s)
      else
        let out := eachOf (node hir (nodes room)) ns { s with depth := s.depth + 1 }
        (out.1.flatten, { out.2 with depth := out.2.depth - 1 })

def Hir.start : Pass Op Head where
  frame := Frame.empty Op Head
  locals := hir.locals
  places := hir.places
  errors := []
  stack := []
  depth := 0
  reported_depth := false
  expansions := 0
  overflowed := false

def Hir.expanding : List (HirNode Op Head) × Pass Op Head :=
  nodes hir (MAX_NODE_DEPTH + 1) hir.view hir.start

def instantiate : Except (List String) (List (HirNode Op Head)) :=
  if hir.expanding.2.errors.isEmpty then .ok hir.expanding.1
  else .error hir.expanding.2.errors

end Walk

end Instantiate
end Zdeceptron
