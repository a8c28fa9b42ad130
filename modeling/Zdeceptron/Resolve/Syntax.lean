import Mathlib.Data.List.Basic

/-!
# The names a linked program writes

The syntax of a program, with what names nothing left out, and the walk that meets each name it
writes in its position and with the scopes that are open there.
-/

namespace Zdeceptron
namespace Resolve

section Syntax

inductive TypeExpr
  | named (name : String)
  | list (inner : TypeExpr)
  | option (inner : TypeExpr)
  | remote (inner : TypeExpr)
  | map (key value : TypeExpr)
  | pair (first second : TypeExpr)

/-- An expression.  A literal or an operator names nothing: it is a `form` of its operands, in
the order they are resolved in.  So is `length of` or `text of`, which no program declares. -/
inductive Expr
  | form (operands : List Expr)
  | var (name : String)
  | call (name : String) (args : List Expr)
  | of_ (name : String) (operand : Expr)
  | map_inside (var : String) (source to_ : Expr)

structure Place where
  base : String
  path : List Expr

inductive PipelineClause
  | from_ (e : Expr)
  | keep (var : String) (cond : Expr)
  | sort (var : String) (key : Expr)
  | map_each (var : String) (to_ : Expr)
  | fold (item total : String) (starting step : Expr)
  | take_first (e : Expr)

structure Pattern where
  name : String
  bindings : List String

mutual

inductive Stmt
  | pipeline (clause : PipelineClause)
  | set (place : Place) (value : Expr)
  /-- `add`, `subtract`, `append` and `remove`, whose value stands before the place. -/
  | update (value : Expr) (place : Place)
  | give (e : Expr)
  | do_ (call : Expr)
  | bind (bindings : List (String × Expr))
  | when (scrutinee : Expr) (arms : List Arm)
  | each (var : String) (iter : Expr) (body : List Stmt)
  | ifThen (cond : Expr) (then_ : List Stmt) (otherwise : Option (List Stmt))

inductive Arm
  | show_ (pattern : Pattern) (e : Expr)
  | block (pattern : Pattern) (body : List Stmt)

end

mutual

inductive Node
  | element (element : Element)
  | each (var : String) (iter : Expr) (body : List Node)
  | when (scrutinee : Expr) (arms : List NodeArm)
  | handler (payload : Option String) (body : List Stmt)
  | ifThen (cond : Expr) (then_ : List Node) (otherwise : Option (List Node))
  | children

inductive Element
  | mk (name : String) (args : List Expr) (children : List Node)

inductive NodeArm
  | show_ (pattern : Pattern) (element : Element)
  | nodes (pattern : Pattern) (nodes : List Node)

end

inductive Init
  | starting (e : Expr)
  | from_ (e : Expr)
  | clock
  | stepping (start step : Expr)
  | schedule (body : List Stmt)

structure ComponentState where
  name : String
  ty : TypeExpr
  step : Option Expr
  init : Expr

structure RouteParam where
  ty : TypeExpr
  enumerated_in : Option String

inductive Decl
  | state (name : String) (ty : TypeExpr) (init : Init)
  | function (name : String) (params : List String) (body : List Stmt)
  | foreign (name : String) (params : List (String × TypeExpr)) (result : Option TypeExpr)
      (owns_view : Bool)
  | record (name : String) (fields : List TypeExpr)
  | choice (name : String) (variants : List (String × List TypeExpr))
  | component (name : String) (params : List String) (children : Bool)
      (states : List ComponentState) (body : List Node)
  | route (name : String) (variants : List (String × List RouteParam))
  | release (name : String) (params : List String) (gives : TypeExpr) (body : List Stmt)
  | request (name : String) (args : List Expr)
  | view (nodes : List Node)
  | test (expectation : Expr)

structure Import where
  name : String
  source : Nat

/-- The prelude, the declarations of the files with the module of each, and what each module
imports. -/
structure Linked where
  prelude : List Decl
  decls : List (Nat × Decl)
  imports : List (List Import)

/-- Every declaration with its module.  The prelude's are of no module in particular. -/
def Linked.all (P : Linked) : List (Nat × Decl) :=
  P.prelude.map (fun d => (0, d)) ++ P.decls

end Syntax

section Heads

def Decl.name : Decl → Option String
  | .state name _ _ => some name
  | .function name _ _ => some name
  | .foreign name _ _ _ => some name
  | .record name _ => some name
  | .choice name _ => some name
  | .component name _ _ _ _ => some name
  | .route name _ => some name
  | .release name _ _ _ => some name
  | .request name _ => some name
  | .view _ => none
  | .test _ => none

def Decl.variants : Decl → List String
  | .choice _ variants => variants.map Prod.fst
  | .route _ variants => variants.map Prod.fst
  | _ => []

def Decl.isView : Decl → Bool
  | .view _ => true
  | _ => false

def Decl.isComponent : Decl → Bool
  | .component _ _ _ _ _ => true
  | _ => false

def Decl.isViewForeign : Decl → Bool
  | .foreign _ _ _ owns_view => owns_view
  | _ => false

/-- A `record`, a `choice` and a `route` are what declares a type. -/
def Decl.declaresType : Decl → Bool
  | .record _ _ => true
  | .choice _ _ => true
  | .route _ _ => true
  | _ => false

end Heads

section Walk

inductive Position
  | value
  | callee
  | accessor
  | element
  | type_
  /-- A type of a `foreign`, which may be a parameter of the declaration. -/
  | signature
  | pattern
  /-- The name a `with name is value` introduces. -/
  | binding
deriving DecidableEq

abbrev Scopes := List (List String)

namespace Scopes

def push (scopes : Scopes) : Scopes := [] :: scopes

def declare (scopes : Scopes) (name : String) : Scopes :=
  match scopes with
  | [] => []
  | frame :: frames => (name :: frame) :: frames

def declareAll (scopes : Scopes) (names : List String) : Scopes :=
  names.foldl declare scopes

def lookup (scopes : Scopes) (name : String) : Bool :=
  scopes.any fun frame => frame.contains name

end Scopes

structure Written where
  position : Position
  name : String
  scopes : Scopes

def TypeExpr.written (position : Position) (scopes : Scopes) : TypeExpr → List Written
  | .named name => [⟨position, name, scopes⟩]
  | .list inner => inner.written position scopes
  | .option inner => inner.written position scopes
  | .remote inner => inner.written position scopes
  | .map key value => key.written position scopes ++ value.written position scopes
  | .pair first second => first.written position scopes ++ second.written position scopes

mutual

def Expr.written (scopes : Scopes) : Expr → List Written
  | .form operands => writtenExprs scopes operands
  | .var name => [⟨.value, name, scopes⟩]
  | .call name args => ⟨.callee, name, scopes⟩ :: writtenExprs scopes args
  | .of_ name operand => operand.written scopes ++ [⟨.accessor, name, scopes⟩]
  | .map_inside var source to_ =>
      source.written scopes ++ to_.written (scopes.push.declare var)

def writtenExprs (scopes : Scopes) : List Expr → List Written
  | [] => []
  | e :: es => e.written scopes ++ writtenExprs scopes es

end

def Place.written (scopes : Scopes) (place : Place) : List Written :=
  ⟨.value, place.base, scopes⟩ :: writtenExprs scopes place.path

def PipelineClause.written (scopes : Scopes) : PipelineClause → List Written
  | .from_ e => e.written scopes
  | .take_first e => e.written scopes
  | .keep var cond => cond.written (scopes.push.declare var)
  | .sort var key => key.written (scopes.push.declare var)
  | .map_each var to_ => to_.written (scopes.push.declare var)
  | .fold item total starting step =>
      starting.written scopes ++ step.written ((scopes.push.declare total).declare item)

/-- Each value is resolved before its own name is declared, in the block's own scope. -/
def writtenBindings (scopes : Scopes) : List (String × Expr) → List Written × Scopes
  | [] => ([], scopes)
  | (name, value) :: bindings =>
      let rest := writtenBindings (scopes.declare name) bindings
      (value.written scopes ++ ⟨.binding, name, scopes⟩ :: rest.1, rest.2)

mutual

def Stmt.written (scopes : Scopes) : Stmt → List Written × Scopes
  | .pipeline clause => (clause.written scopes, scopes)
  | .set place value => (place.written scopes ++ value.written scopes, scopes)
  | .update value place => (value.written scopes ++ place.written scopes, scopes)
  | .give e => (e.written scopes, scopes)
  | .do_ call => (call.written scopes, scopes)
  | .bind bindings => writtenBindings scopes bindings
  | .when scrutinee arms => (scrutinee.written scopes ++ writtenArms scopes arms, scopes)
  | .each var iter body =>
      (iter.written scopes ++ writtenStmts (scopes.push.declare var).push body, scopes)
  | .ifThen cond then_ otherwise =>
      (cond.written scopes ++ writtenStmts scopes.push then_ ++
        match otherwise with
        | none => []
        | some stmts => writtenStmts scopes.push stmts, scopes)

def writtenStmts (scopes : Scopes) : List Stmt → List Written
  | [] => []
  | s :: ss => (s.written scopes).1 ++ writtenStmts (s.written scopes).2 ss

def Arm.written (scopes : Scopes) : Arm → List Written
  | .show_ pattern e =>
      ⟨.pattern, pattern.name, scopes⟩ ::
        e.written (scopes.push.declareAll pattern.bindings)
  | .block pattern body =>
      ⟨.pattern, pattern.name, scopes⟩ ::
        writtenStmts (scopes.push.declareAll pattern.bindings).push body

def writtenArms (scopes : Scopes) : List Arm → List Written
  | [] => []
  | arm :: arms => arm.written scopes ++ writtenArms scopes arms

end

mutual

def Node.written (scopes : Scopes) : Node → List Written
  | .element element => element.written scopes
  | .each var iter body =>
      iter.written scopes ++ writtenNodes (scopes.push.declare var) body
  | .when scrutinee arms => scrutinee.written scopes ++ writtenNodeArms scopes arms
  | .handler payload body =>
      writtenStmts (scopes.push.declareAll payload.toList).push body
  | .ifThen cond then_ otherwise =>
      cond.written scopes ++ writtenNodes scopes.push then_ ++
        match otherwise with
        | none => []
        | some nodes => writtenNodes scopes.push nodes
  | .children => []

def Element.written (scopes : Scopes) : Element → List Written
  | .mk name args children =>
      ⟨.element, name, scopes⟩ :: (writtenExprs scopes args ++ writtenNodes scopes children)

def NodeArm.written (scopes : Scopes) : NodeArm → List Written
  | .show_ pattern element =>
      ⟨.pattern, pattern.name, scopes⟩ ::
        element.written (scopes.push.declareAll pattern.bindings)
  | .nodes pattern nodes =>
      ⟨.pattern, pattern.name, scopes⟩ ::
        writtenNodes (scopes.push.declareAll pattern.bindings) nodes

def writtenNodeArms (scopes : Scopes) : List NodeArm → List Written
  | [] => []
  | arm :: arms => arm.written scopes ++ writtenNodeArms scopes arms

def writtenNodes (scopes : Scopes) : List Node → List Written
  | [] => []
  | node :: nodes => node.written scopes ++ writtenNodes scopes nodes

end

def writtenStates (scopes : Scopes) : List ComponentState → List Written × Scopes
  | [] => ([], scopes)
  | state :: states =>
      let rest := writtenStates (scopes.declare state.name) states
      ((state.step.toList.flatMap (Expr.written scopes)) ++ state.init.written scopes ++
        state.ty.written .type_ scopes ++ rest.1, rest.2)

def Init.written : Init → TypeExpr → List Written
  | .starting e, ty => e.written [] ++ ty.written .type_ []
  | .from_ e, ty => e.written [] ++ ty.written .type_ []
  | .clock, ty => ty.written .type_ []
  | .stepping start step, ty => start.written [] ++ step.written [] ++ ty.written .type_ []
  | .schedule body, ty => ty.written .type_ [] ++ writtenStmts [[]] body

def writtenRouteVariant (params : List RouteParam) : List Written :=
  params.flatMap (fun param => param.ty.written .type_ []) ++
    params.flatMap fun param => param.enumerated_in.toList.map fun name => ⟨.value, name, []⟩

/-- Every name a declaration writes.  A `release` and a `function` bind their parameters in a
scope around that of the body. -/
def Decl.written : Decl → List Written
  | .state _ ty init => init.written ty
  | .function _ params body => writtenStmts (Scopes.declareAll [[]] params).push body
  | .foreign _ params result _ =>
      params.flatMap (fun param => param.2.written .signature []) ++
        result.toList.flatMap fun ty => ty.written .signature []
  | .record _ fields => fields.flatMap fun ty => ty.written .type_ []
  | .choice _ variants => variants.flatMap fun v => v.2.flatMap fun ty => ty.written .type_ []
  | .component _ params children states body =>
      let bound := Scopes.declareAll [[]] (params ++ if children then ["children"] else [])
      let lines := writtenStates bound states
      lines.1 ++ writtenNodes lines.2 body
  | .route _ variants => variants.flatMap fun v => writtenRouteVariant v.2
  | .release _ params gives body =>
      writtenStmts (Scopes.declareAll [[]] params).push body ++ gives.written .type_ []
  | .request _ args => writtenExprs [] args
  | .view nodes => writtenNodes [[]] nodes
  | .test expectation => expectation.written []

def Linked.Writes (P : Linked) (m : Nat) (w : Written) : Prop :=
  ∃ entry ∈ P.decls, entry.1 = m ∧ w ∈ entry.2.written

end Walk

end Resolve
end Zdeceptron
