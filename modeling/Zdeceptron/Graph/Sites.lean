import Zdeceptron.Graph.Hir

/-!
# What a definition does, in the order of its text

Every call, read and write of a body, as the split and the two label passes see it.
-/

namespace Zdeceptron
namespace Graph

inductive PathKeySeg
  | index
  | field (name : String)
deriving DecidableEq

def PathSeg.key : PathSeg → PathKeySeg
  | .index _ => .index
  | .field name => .field name

inductive Site
  | call (callee : DefId)
  | read (signal : DefId) (expr : ExprId)
  | write (place : PlaceId) (signal : DefId) (op : MutOp) (path : List PathKeySeg)
  | bind (place : ExprId) (signal : DefId)
  | notAPlace
  | environment
  | media
  | scroll
  | foreignCall (callee : DefId)
  | documentKey (key : String)
  | outbound
  | build (capability : BuildCapability)
deriving DecidableEq

section Walk

variable (hir : Hir)

def refSites (id : ExprId) : Res → List Site
  | .def_ d => if (hir.signal d).isSome then [.read d id] else []
  | _ => []

/-- The site of a call written `with`. -/
def callSites : Res → List Site
  | .def_ d =>
      match hir.kind d with
      | some (.function _) => [.call d]
      | some (.release _) => [.call d]
      | some (.foreign _) => [.foreignCall d]
      | _ => []
  | _ => []

/-- The site of a call written `of`. -/
def ofCallSites : Res → List Site
  | .def_ d =>
      match hir.kind d with
      | some (.function _) => [.call d]
      | some (.foreign _) => [.foreignCall d]
      | _ => []
  | _ => []

mutual

def exprSites : Expr → List Site
  | .number _ => []
  | .text _ => []
  | .truth _ => []
  | .empty => []
  | .address => []
  | .environment _ => [.environment]
  | .media _ => [.media]
  | .scroll => [.scroll]
  | .outbound _ args => .outbound :: argSites args
  | .build capability argument => .build capability :: exprSites argument
  | .ref id res => refSites hir id res
  | .conditional condition value otherwise =>
      exprSites condition ++ exprSites value ++ exprSites otherwise
  | .list items => listSites items
  | .map entries => entrySites entries
  | .call callee args => callSites hir callee ++ argSites args
  | .ofCall callee _ operand => ofCallSites hir callee ++ exprSites operand
  | .operator _ operand => exprSites operand
  | .unary _ operand => exprSites operand
  | .binary _ lhs rhs => exprSites lhs ++ exprSites rhs
  | .field base _ => exprSites base
  | .index base key => exprSites base ++ exprSites key
  | .append item rest => exprSites item ++ exprSites rest
  | .insert key value table => exprSites key ++ exprSites value ++ exprSites table
  | .mapInside _ source mapped => exprSites source ++ exprSites mapped

def listSites : List Expr → List Site
  | [] => []
  | item :: items => exprSites item ++ listSites items

def entrySites : List (Expr × Expr) → List Site
  | [] => []
  | (key, value) :: entries => exprSites key ++ exprSites value ++ entrySites entries

def argSites : List (Arg Expr) → List Site
  | [] => []
  | ⟨_, _, value⟩ :: args => exprSites value ++ argSites args

end

/-- The site of a written place.  The own state of a component instance is none. -/
def placeSites (locals : List LocalId) (op : MutOp) (place : Place) : List Site :=
  match place.base with
  | .def_ d =>
      if (hir.signal d).isSome then [.write place.id d op (place.path.map PathSeg.key)]
      else [.notAPlace]
  | .local_ id => if id ∈ locals then [] else [.notAPlace]
  | .builtinVariant _ => []
  | .builtin _ => [.notAPlace]
  | .variant _ _ => [.notAPlace]

def mutationSites (locals : List LocalId) (mutation : Mutation) : List Site :=
  placeSites hir locals mutation.op mutation.place ++ exprSites hir mutation.value ++
    listSites hir (indexesOf mutation.place.path)

def effectSites (locals : List LocalId) : Effect → List Site
  | .mutation written => mutationSites hir locals written
  | .call callee => exprSites hir callee

def pipelineSites : Pipeline → List Site
  | .source expr => exprSites hir expr
  | .keep _ cond => exprSites hir cond
  | .sort _ key => exprSites hir key
  | .mapEach _ mapped => exprSites hir mapped
  | .fold _ _ starting step => exprSites hir starting ++ exprSites hir step
  | .takeFirst count => exprSites hir count

def bindingSites : List (LocalId × Expr) → List Site
  | [] => []
  | (_, value) :: bindings => exprSites hir value ++ bindingSites bindings

mutual

def stmtSites (locals : List LocalId) : Stmt → List Site
  | .pipeline clause => pipelineSites hir clause
  | .mutation effect => effectSites hir locals effect
  | .bind bindings => bindingSites hir bindings
  | .give expr => exprSites hir expr
  | .when scrutinee arms => exprSites hir scrutinee ++ armSites locals arms
  | .each _ iter body => exprSites hir iter ++ blockSites locals body
  | .ifThen cond then_ otherwise =>
      exprSites hir cond ++ blockSites locals then_ ++
        (match otherwise with
        | none => []
        | some block => blockSites locals block)
  | .perform effect => effectSites hir locals effect

def armSites (locals : List LocalId) : List Arm → List Site
  | [] => []
  | .mk _ _ body :: arms =>
      (match body with
      | .show_ expr => exprSites hir expr
      | .block block => blockSites locals block) ++ armSites locals arms

def blockSites (locals : List LocalId) : Block → List Site
  | [] => []
  | stmt :: stmts => stmtSites locals stmt ++ blockSites locals stmts

end

def boundSites (res : Res) (args : List (Arg Expr)) : List Site :=
  match res, args with
  | .builtin (.element element), ⟨none, _, .ref id (.def_ d)⟩ :: _ =>
      if element.isTwoWay && (hir.signal d).isSome then [.bind id d] else []
  | _, _ => []

def targetSites : HandlerTarget → List Site
  | .element => []
  | .document key => [.documentKey key]

def localSites : List LocalSignal → List Site
  | [] => []
  | signal :: signals => exprSites hir signal.init ++ localSites signals

mutual

def nodeSites (locals : List LocalId) : Node → List Site × List LocalId
  | .element element => elementSites locals element
  | .each _ _ iter body =>
      let (sites, locals) := nodesSites locals body
      (exprSites hir iter ++ sites, locals)
  | .when _ scrutinee arms =>
      let (sites, locals) := nodeArmSites locals arms
      (exprSites hir scrutinee ++ sites, locals)
  | .ifThen _ cond then_ none =>
      let (sites, locals) := nodesSites locals then_
      (exprSites hir cond ++ sites, locals)
  | .ifThen _ cond then_ (some otherwise) =>
      let (sites, locals) := nodesSites locals then_
      let (others, locals) := nodesSites locals otherwise
      (exprSites hir cond ++ sites ++ others, locals)
  | .handler target body => (targetSites target ++ blockSites hir locals body, locals)
  | .children => ([], locals)
  | .scope signals body =>
      let (sites, locals) := nodesSites (signals.map LocalSignal.id ++ locals) body
      (localSites hir signals ++ sites, locals)

def elementSites (locals : List LocalId) : Element → List Site × List LocalId
  | .mk _ res args children _ =>
      let (sites, locals) := nodesSites locals children
      (boundSites hir res args ++ argSites hir args ++ sites, locals)

def nodeArmSites (locals : List LocalId) : List NodeArm → List Site × List LocalId
  | [] => ([], locals)
  | .mk _ _ body :: arms =>
      let (sites, locals) :=
        match body with
        | .show_ element => elementSites locals element
        | .nodes nodes => nodesSites locals nodes
      let (rest, locals) := nodeArmSites locals arms
      (sites ++ rest, locals)

def nodesSites (locals : List LocalId) : List Node → List Site × List LocalId
  | [] => ([], locals)
  | node :: nodes =>
      let (sites, locals) := nodeSites locals node
      let (rest, locals) := nodesSites locals nodes
      (sites ++ rest, locals)

end

def optionSites : Option Expr → List Site
  | none => []
  | some expr => exprSites hir expr

/-- The sites of a definition, with the step of a stepping clock or without. -/
def walkBody (includeStep : Bool) (id : DefId) : List Site :=
  match hir.kind id with
  | some (.signal signal) =>
      exprSites hir signal.init ++ (if includeStep then optionSites hir signal.step else []) ++
        (match signal.schedule with
        | none => []
        | some body => blockSites hir [] body)
  | some (.function function) => blockSites hir [] function.body
  | some (.release release) => blockSites hir [] release.body
  | some (.view nodes) => (nodesSites hir [] nodes).1
  | _ => []

def sitesOf (id : DefId) : List Site := walkBody hir true id

/-- The same, without the step of a stepping clock: a step is no derivation. -/
def initSitesOf (id : DefId) : List Site := walkBody hir false id

end Walk

end Graph
end Zdeceptron
