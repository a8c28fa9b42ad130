import Mathlib.Data.List.AList
import Zdeceptron.Graph.Label
import Zdeceptron.Graph.Split

/-!
# The walk of the information flow

One walk labels the expressions of a body and collects what they oblige.  What a call gives
is read off a summary of the callee.  The traces of a walk, which only diagnostics read, are
left out.
-/

namespace Zdeceptron
namespace Graph

section Obligations

inductive Sink
  | clientState
  | view
  | buildArtifact
  | responseBody
  | platformLog
  | liveSync
  | outboundRequest
deriving DecidableEq

inductive SinkSite
  | viewArg (expr : ExprId) (ctx : Ctx)
  | clientSignal (signal : DefId)
  | buildOutput (signal : DefId)
  | responseBody (root : RootId)
  | platformLog (root : RootId)
  | liveSync (signal : DefId)
  | urlArgument (expr : ExprId) (ctx : Ctx)
  | requestArgument (expr : ExprId) (ctx : Ctx)
deriving DecidableEq

inductive ObligationKind
  | write (signal : DefId)
  | declaration (signal : DefId)
  | escape (sink : Sink) (site : SinkSite)
  | foreignArgument (foreign : DefId) (index : Nat)
deriving DecidableEq

structure Obligation where
  kind : ObligationKind
  required : Secrecy
  found : Sym
  pc : Sym
  site : Span
deriving DecidableEq

abbrev ObligationId := Span × ObligationKind

abbrev Obligations := AList (fun _ : ObligationId => Obligation)

def Obligation.id (o : Obligation) : ObligationId := (o.site, o.kind)

def Obligation.instantiate (o : Obligation) (args : List SymLabel) : Obligation :=
  { o with found := o.found.instantiate args, pc := o.pc.instantiate args }

def obligeIn (obligations : Obligations) (id : ObligationId) (o : Obligation) : Obligations :=
  match obligations.lookup id with
  | some existing =>
      obligations.insert id
        { existing with found := existing.found ⊔ o.found, pc := existing.pc ⊔ o.pc }
  | none => obligations.insert id o

structure Summary where
  result : SymLabel
  obligations : Obligations

def Summary.empty : Summary := ⟨⊥, ∅⟩

end Obligations

section Walks

inductive UrlPosition
  | attribute (expr : ExprId)
  | requestArgument (expr : ExprId)

structure Walk where
  locals : LocalId → SymLabel
  /-- The locals that are a component instance's own state. -/
  localSignals : List LocalId
  /-- The locals a `Failed` pattern introduced. -/
  failureBinders : List LocalId
  pc : Sym
  acc : SymLabel
  result : SymLabel
  obligations : Obligations
  urlArgument : Option UrlPosition

def Walk.new : Walk where
  locals := fun _ => ⊥
  localSignals := []
  failureBinders := []
  pc := ⊥
  acc := ⊥
  result := ⊥
  obligations := ∅
  urlArgument := none

/-- What a walk is given: the program, where the body runs, and a summary of every callee. -/
structure Pass where
  hir : Hir
  split : TierSplit
  ctx : Ctx
  owner : DefId
  callee : DefId → Summary

abbrev WalkM := StateM Walk

def runIf (condition : Bool) (run : WalkM Unit) : WalkM Unit :=
  if condition then run else pure ()

def bindLocal (id : LocalId) (label : SymLabel) : WalkM Unit :=
  modify fun w => { w with locals := Function.update w.locals id label }

def setPc (pc : Sym) : WalkM Unit := modify fun w => { w with pc := pc }

def setAcc (acc : SymLabel) : WalkM Unit := modify fun w => { w with acc := acc }

def setUrl (url : Option UrlPosition) : WalkM Unit := modify fun w => { w with urlArgument := url }

def obligeAt (id : ObligationId) (o : Obligation) : WalkM Unit :=
  modify fun w => { w with obligations := obligeIn w.obligations id o }

def oblige (o : Obligation) : WalkM Unit := obligeAt o.id o

def bindAll (label : SymLabel) : List LocalId → WalkM Unit
  | [] => pure ()
  | binder :: binders => do
      bindLocal binder label
      bindAll label binders

def noteBinders (isFailureArm : Bool) (binders : List LocalId) : WalkM Unit :=
  modify fun w =>
    if isFailureArm then { w with failureBinders := binders ++ w.failureBinders } else w

end Walks

def Hir.declared (hir : Hir) (id : DefId) : Label :=
  match hir.signal id with
  | some signal => .scalar (if signal.secret then .secret else .public_)
  | none => .scalar .public_

def Hir.foreignOf (hir : Hir) : Res → Option (DefId × Foreign)
  | .def_ d =>
      match hir.kind d with
      | some (.foreign declared) => some (d, declared)
      | _ => none
  | _ => none

def errorCodeField : String := "code"

def isFailureBinder (w : Walk) : Expr → Bool
  | .ref _ (.local_ id) => id ∈ w.failureBinders
  | _ => false

section Arguments

variable {α : Type}

/-- The slots of the parameters, and the slot the next positional argument goes to. -/
def placeArg (names : List String) (slots : List (Option α) × Nat) (arg : Arg α) :
    List (Option α) × Nat :=
  match arg.name with
  | none =>
      if slots.2 < slots.1.length then (slots.1.set slots.2 (some arg.value), slots.2 + 1)
      else slots
  | some name =>
      match names.idxOf? name with
      | some index => (slots.1.set index (some arg.value), slots.2)
      | none => slots

/-- The arguments in the order of the parameters.  Those that match none are dropped. -/
def orderArgs (names : List String) (args : List (Arg α)) : List (Option α) :=
  (args.foldl (placeArg names) (List.replicate names.length none, 0)).1

def foreignSlots (names : List String) : Nat → List (Arg α) → List (Option Nat)
  | _, [] => []
  | next, ⟨none, _, _⟩ :: args =>
      if next < names.length then some next :: foreignSlots names (next + 1) args
      else none :: foreignSlots names next args
  | next, ⟨some name, _, _⟩ :: args => names.idxOf? name :: foreignSlots names next args

end Arguments

namespace Pass

variable (p : Pass)

section Reads

/-- What a `Failed` payload is worth: everything the endpoint reads. -/
def remoteFailure (endpoint : RootId) : Sym :=
  let members := (p.split.splitter.membersOf endpoint).map Prod.fst
  let inputs := members ++ p.split.params endpoint
  if inputs.any (fun input => (p.hir.declared input).value = .secret) then .ofFloor .secret
  else .bottom

def readSink (url : Option UrlPosition) (expr : ExprId) : Sink × SinkSite :=
  match url with
  | some (.attribute id) => (.outboundRequest, .urlArgument id p.ctx)
  | some (.requestArgument id) => (.outboundRequest, .requestArgument id p.ctx)
  | none => (if some p.owner = p.hir.view then .view else .clientState, .viewArg expr p.ctx)

def read (signal : DefId) (expr : ExprId) : WalkM SymLabel := do
  let declared := p.hir.declared signal
  match p.split.splitter.crossings (expr, p.ctx) with
  | some (.remote endpoint) =>
      let w ← get
      let (sink, site) := p.readSink w.urlArgument expr
      oblige ⟨.escape sink site, .public_, .ofFloor declared.value, w.pc, p.hir.span expr⟩
      pure ⟨.bottom, .bottom, p.remoteFailure endpoint⟩
  | _ => pure (.declared declared)

def refLabel (id : ExprId) : Res → WalkM SymLabel
  | .local_ local_ => do
      let w ← get
      pure (w.locals local_)
  | .def_ d =>
      match p.hir.signal d with
      | some _ => p.read d id
      | none => pure .bottom
  | _ => pure .bottom

/-- An obligation that nothing raises for a public value under a public counter. -/
def requireAt (sink : Sink) (site : SinkSite) (value : Sym) (span : Span) : WalkM Unit := do
  let w ← get
  if value.concrete ⊔ w.pc.concrete = .public_ ∧ value.deps = ∅ then pure ()
  else oblige ⟨.escape sink site, .public_, value, w.pc, span⟩

def requirePublic (value : SymLabel) (span : Span) : WalkM Unit :=
  requireAt .view (.clientSignal p.owner) value.value span

def requireNoOutboundRequest (value : SymLabel) (expr : ExprId) : WalkM Unit :=
  requireAt .outboundRequest (.urlArgument expr p.ctx) value.value (p.hir.span expr)

def requireNoOutboundArgument (value : SymLabel) (expr : ExprId) : WalkM Unit :=
  requireAt .outboundRequest (.requestArgument expr p.ctx) value.value (p.hir.span expr)

def requireClientState (value : SymLabel) (expr : ExprId) : WalkM Unit := do
  let w ← get
  oblige ⟨.escape .clientState (.clientSignal p.owner), .public_, value.value, w.pc,
    p.hir.span expr⟩

end Reads

section Calls

def each : List (WalkM SymLabel) → WalkM (List SymLabel)
  | [] => pure []
  | walk :: walks => do
      let label ← walk
      let labels ← each walks
      pure (label :: labels)

def joinValues (labels : List SymLabel) : Sym := (labels.map SymLabel.value).foldr (· ⊔ ·) ⊥

def constructed (args : List (Arg (WalkM SymLabel))) : WalkM SymLabel := do
  let labels ← each (args.map Arg.value)
  pure (.triple (joinValues labels))

def obligeArguments (foreign : DefId) :
    List (Option Nat) → List ExprId → List SymLabel → WalkM Unit
  | none :: slots, _ :: ids, _ :: labels => obligeArguments foreign slots ids labels
  | some index :: slots, id :: ids, label :: labels => do
      let w ← get
      oblige ⟨.foreignArgument foreign index, .public_, label.value, w.pc, p.hir.span id⟩
      obligeArguments foreign slots ids labels
  | _, _, _ => pure ()

def foreign (d : DefId) (declared : Foreign) (args : List (Arg (WalkM SymLabel))) :
    WalkM SymLabel := do
  let labels ← each (args.map Arg.value)
  let slots := foreignSlots (declared.params.map p.hir.localName) 0 args
  runIf (declared.site = .client) (p.obligeArguments d slots (args.map Arg.id) labels)
  pure (.triple (joinValues labels))

def propagate (labels : List SymLabel) : List (Sigma fun _ : ObligationId => Obligation) →
    WalkM Unit
  | [] => pure ()
  | ⟨id, o⟩ :: obligations => do
      let w ← get
      let instantiated := o.instantiate labels
      obligeAt id { instantiated with pc := instantiated.pc ⊔ w.pc }
      propagate labels obligations

def callFunction (d : DefId) (function : Function) (args : List (Arg (WalkM SymLabel))) :
    WalkM SymLabel := do
  let ordered := orderArgs (function.params.map p.hir.localName) args
  let labels ← each (ordered.map (fun slot => slot.getD (pure .bottom)))
  let summary := p.callee d
  propagate labels summary.obligations.entries
  pure (summary.result.instantiate labels)

def call (callee : Res) (args : List (Arg (WalkM SymLabel))) : WalkM SymLabel :=
  match callee with
  | .def_ d =>
      match p.hir.kind d with
      | some (.foreign declared) => p.foreign d declared args
      | some (.function function) => p.callFunction d function args
      | _ => constructed args
  | _ => constructed args

def outbound : List (Arg (WalkM SymLabel)) → WalkM Unit
  | [] => pure ()
  | ⟨_, id, walk⟩ :: args => do
      let w ← get
      setUrl (some (.requestArgument id))
      let found ← walk
      setUrl w.urlArgument
      p.requireNoOutboundArgument found id
      outbound args

end Calls

section Expressions

mutual

def expr : Expr → WalkM SymLabel
  | .number _ => pure .bottom
  | .text _ => pure .bottom
  | .truth _ => pure .bottom
  | .empty => pure .bottom
  | .address => pure .bottom
  | .media _ => pure .bottom
  | .scroll => pure .bottom
  | .outbound _ args => do
      p.outbound (args_ args)
      pure .bottom
  | .environment _ => pure (.declared (.scalar .secret))
  | .ref id res => p.refLabel id res
  | .build _ argument => do
      let inner ← expr argument
      pure (.triple inner.value)
  | .conditional condition value otherwise => do
      let asked ← expr condition
      let taken ← expr value
      let other ← expr otherwise
      pure (.triple (asked.value ⊔ taken.value ⊔ other.value))
  | .list items => do
      let labels ← each (exprs items)
      pure (.triple (joinValues labels))
  | .map entries => do
      let labels ← each (entries_ entries)
      pure (.triple (joinValues labels))
  | .call callee args => p.call callee (args_ args)
  | .ofCall callee id operand => p.call callee [⟨none, id, expr operand⟩]
  | .operator _ operand => do
      let inner ← expr operand
      pure ⟨inner.value, inner.value, inner.failure⟩
  | .unary _ operand => do
      let inner ← expr operand
      pure ⟨inner.value, inner.value, inner.failure⟩
  | .binary _ lhs rhs => do
      let left ← expr lhs
      let right ← expr rhs
      pure (.triple (left.value ⊔ right.value))
  | .field base name => do
      let w ← get
      if name = errorCodeField ∧ isFailureBinder w base then pure .bottom
      else
        let inner ← expr base
        pure (.triple inner.value)
  | .index base key => do
      let container ← expr base
      let index ← expr key
      pure (.triple (container.shape ⊔ container.value ⊔ index.value))
  | .append item list => do
      let element ← expr item
      let rest ← expr list
      pure (.triple (element.value ⊔ rest.shape ⊔ rest.value))
  | .insert key value table => do
      let writtenKey ← expr key
      let writtenValue ← expr value
      let rest ← expr table
      pure (.triple (writtenKey.value ⊔ writtenValue.value ⊔ rest.shape ⊔ rest.value))
  | .mapInside var source mapped => do
      let container ← expr source
      bindLocal var (.triple container.value)
      let inner ← expr mapped
      let w ← get
      -- the tag of the result is the tag of the container, whatever is made of the payload
      let label : SymLabel :=
        ⟨inner.value ⊔ container.shape, inner.value, inner.value ⊔ container.failure⟩
      pure (label.joinAll w.pc).settle

def exprs : List Expr → List (WalkM SymLabel)
  | [] => []
  | item :: items => expr item :: exprs items

def entries_ : List (Expr × Expr) → List (WalkM SymLabel)
  | [] => []
  | (key, value) :: entries => expr key :: expr value :: entries_ entries

def args_ : List (Arg Expr) → List (Arg (WalkM SymLabel))
  | [] => []
  | ⟨name, id, value⟩ :: args => ⟨name, id, expr value⟩ :: args_ args

end

end Expressions

section Statements

/-- A value joined into the result, under the counter where it is returned. -/
def returns (value : SymLabel) : WalkM Unit :=
  modify fun w => { w with result := w.result ⊔ value.joinAll w.pc }

def closeRun : WalkM Unit := do
  let w ← get
  returns w.acc

def gives (e : Expr) : WalkM Unit := do
  let value ← p.expr e
  returns value

def bindElement (var : LocalId) : WalkM Unit := do
  let w ← get
  bindLocal var (.triple w.acc.value)

/-- What a predicate, a key or a count tells joined onto the shape of the collection. -/
def joinShape (label : SymLabel) : WalkM Unit :=
  modify fun w =>
    { w with acc := { w.acc with shape := w.acc.shape ⊔ label.value ⊔ w.pc }.settle }

def pipeline : Pipeline → WalkM Unit
  | .source e => do
      let value ← p.expr e
      modify fun w => { w with acc := w.acc ⊔ value.joinAll w.pc }
  | .keep var cond => do
      bindElement var
      let predicate ← p.expr cond
      joinShape predicate
  | .sort var key => do
      bindElement var
      let label ← p.expr key
      joinShape label
  | .mapEach var mapped => do
      bindElement var
      let label ← p.expr mapped
      modify fun w =>
        { w with acc := { w.acc with value := w.acc.value ⊔ label.value ⊔ w.pc } }
  | .takeFirst e => do
      let count ← p.expr e
      joinShape count
  | .fold item total starting step => do
      let seed ← p.expr starting
      bindElement item
      bindLocal total seed
      let label ← p.expr step
      modify fun w =>
        { w with acc := .triple (w.acc.shape ⊔ seed.value ⊔ label.value ⊔ w.pc) }

/-- The labels of the indexes of a place joined with that of the value written to it. -/
def writtenValue (found : Sym) : List Expr → WalkM Sym
  | [] => pure found
  | index :: indexes => do
      let label ← p.expr index
      writtenValue (found ⊔ label.value) indexes

def mutation (m : Mutation) : WalkM Unit := do
  let rhs ← p.expr m.value
  let found ← p.writtenValue rhs.value (indexesOf m.place.path)
  let w ← get
  match m.place.base with
  | .local_ id =>
      runIf (id ∈ w.localSignals)
        (oblige ⟨.escape .clientState (.clientSignal p.owner), .public_, found, w.pc,
          m.place.span⟩)
  | .def_ d =>
      runIf (p.hir.signal d).isSome
        (oblige ⟨.write d, (p.hir.declared d).value, found, w.pc, m.place.span⟩)
  | _ => pure ()

def effect : Effect → WalkM Unit
  | .mutation written => p.mutation written
  | .call callee => do
      let _ ← p.expr callee

def bindings : List (LocalId × Expr) → WalkM Unit
  | [] => pure ()
  | (local_, value) :: rest => do
      let label ← p.expr value
      let w ← get
      bindLocal local_ (label.joinAll w.pc)
      bindings rest

/-- What the pattern of an arm binds: the failure of a `Remote`, or the value. -/
def enterArm (scrutinee : SymLabel) (name : String) (binders : List LocalId) : WalkM Unit := do
  let isFailureArm : Bool := name = "Failed"
  bindAll (.triple (if isFailureArm then scrutinee.failure else scrutinee.value)) binders
  noteBinders isFailureArm binders

def mergeArm (merged : Option SymLabel) (acc : SymLabel) : SymLabel :=
  match merged with
  | some previous => previous ⊔ acc
  | none => acc

def closesRun (stmt : Stmt) (rest : List Stmt) : Bool :=
  match stmt, rest with
  | .pipeline _, .pipeline _ :: _ => false
  | .pipeline _, _ => true
  | _, _ => false

mutual

def stmt : Stmt → WalkM Unit
  | .pipeline clause => p.pipeline clause
  | .give e => p.gives e
  | .mutation written => p.effect written
  | .when scrutinee arms_ => do
      let label ← p.expr scrutinee
      let w ← get
      setPc (w.pc ⊔ label.shape)
      let merged ← arms label w.acc none arms_
      setAcc (merged.getD w.acc)
      setPc w.pc
  | .each var iter body => do
      let label ← p.expr iter
      let w ← get
      setPc (w.pc ⊔ label.shape)
      bindLocal var (.triple label.value)
      block body
      modify fun after => { after with acc := w.acc ⊔ after.acc, pc := w.pc }
  | .ifThen cond then_ otherwise => do
      let label ← p.expr cond
      let w ← get
      setPc (w.pc ⊔ label.value)
      block then_
      let afterThen ← get
      setAcc w.acc
      elseBlock otherwise
      modify fun after => { after with acc := w.acc ⊔ afterThen.acc ⊔ after.acc, pc := w.pc }
  | .bind bound => p.bindings bound
  | .perform run => p.effect run

/-- The arms of a `when`, each from the accumulator in front of it. -/
def arms (scrutinee before : SymLabel) : Option SymLabel → List Arm → WalkM (Option SymLabel)
  | merged, [] => pure merged
  | merged, .mk name binders body :: rest => do
      enterArm scrutinee name binders
      setAcc before
      armBody body
      let w ← get
      arms scrutinee before (some (mergeArm merged w.acc)) rest

def armBody : Bodies.ArmBody Expr Effect → WalkM Unit
  | .show_ e => p.gives e
  | .block stmts => block stmts

def elseBlock : Option Block → WalkM Unit
  | none => pure ()
  | some other => block other

def block : Block → WalkM Unit
  | [] => pure ()
  | first :: rest => do
      stmt first
      runIf (closesRun first rest) closeRun
      block rest

end

end Statements

section View

def urlAttributes : List String :=
  ["action", "background", "cite", "codebase", "data", "formaction", "href", "icon", "longdesc",
    "manifest", "ping", "poster", "profile", "source", "src", "srcset", "style", "usemap"]

def isUrlAttribute (name : Option String) : Bool :=
  match name with
  | some name => name ∈ urlAttributes
  | none => false

def elementArg (arg : Arg Expr) : WalkM Unit :=
  if isUrlAttribute arg.name then do
    let w ← get
    setUrl (some (.attribute arg.id))
    let value ← p.expr arg.value
    setUrl w.urlArgument
    p.requireNoOutboundRequest value arg.id
  else do
    let value ← p.expr arg.value
    p.requirePublic value (p.hir.span arg.id)

def elementArgs : List (Arg Expr) → WalkM Unit
  | [] => pure ()
  | arg :: args => do
      p.elementArg arg
      elementArgs args

def twoWay (res : Res) (args : List (Arg Expr)) (span : Span) : WalkM Unit :=
  match res, args with
  | .builtin (.element element), ⟨none, _, .ref _ (.def_ d)⟩ :: _ =>
      runIf (element.isTwoWay && (p.hir.signal d).isSome) (do
        let w ← get
        oblige ⟨.write d, (p.hir.declared d).value, .bottom, w.pc, span⟩)
  | _, _ => pure ()

/-- An element without its children.  A foreign one takes its arguments as a call does. -/
def elementOwn (res : Res) (args : List (Arg Expr)) (span : Span) : WalkM Unit :=
  match p.hir.foreignOf res with
  | some (d, declared) => do
      let _ ← p.foreign d declared (p.args_ args)
  | none => do
      p.elementArgs args
      p.twoWay res args span

def scopeLocals : List LocalSignal → WalkM Unit
  | [] => pure ()
  | signal :: signals => do
      let init ← p.expr signal.init
      p.requireClientState init signal.initId
      modify fun w => { w with localSignals := signal.id :: w.localSignals }
      bindLocal signal.id .bottom
      scopeLocals signals

mutual

def node : Node → WalkM Unit
  | .element e => element e
  | .each var id iter body => do
      let label ← p.expr iter
      p.requirePublic label (p.hir.span id)
      let w ← get
      setPc (w.pc ⊔ label.shape)
      bindLocal var (.triple label.value)
      nodes body
      setPc w.pc
  | .when id scrutinee arms => do
      let label ← p.expr scrutinee
      p.requirePublic (.triple label.shape) (p.hir.span id)
      let w ← get
      setPc (w.pc ⊔ label.shape)
      nodeArms label arms
      setPc w.pc
  | .ifThen id cond then_ otherwise => do
      let label ← p.expr cond
      p.requirePublic label (p.hir.span id)
      let w ← get
      setPc (w.pc ⊔ label.value)
      nodes then_
      elseNodes otherwise
      setPc w.pc
  | .handler _ body => p.block body
  | .children => pure ()
  | .scope signals body => do
      p.scopeLocals signals
      nodes body

def element : Element → WalkM Unit
  | .mk _ res args children span => do
      p.elementOwn res args span
      nodes children

def nodeArms (scrutinee : SymLabel) : List NodeArm → WalkM Unit
  | [] => pure ()
  | .mk name binders body :: rest => do
      enterArm scrutinee name binders
      nodeArmBody body
      nodeArms scrutinee rest

def nodeArmBody : NodeArmBody → WalkM Unit
  | .show_ e => element e
  | .nodes children => nodes children

def elseNodes : Option (List Node) → WalkM Unit
  | none => pure ()
  | some other => nodes other

def nodes : List Node → WalkM Unit
  | [] => pure ()
  | first :: rest => do
      node first
      nodes rest

end

end View

end Pass

end Graph
end Zdeceptron
