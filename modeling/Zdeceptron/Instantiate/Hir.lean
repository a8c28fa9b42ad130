import Zdeceptron.Bodies.Functions

/-!
# Views with components

The nodes of a view as the resolver leaves them, where an element may name a component, and what
they hold: expressions, statements and the state of an instance.
-/

namespace Zdeceptron
namespace Instantiate

open Bodies (Arg)

section Expressions

/-- What a name was resolved to: a local binding, a definition, or something the language
provides. -/
inductive Res
  | local_ (id : Nat)
  | def_ (id : Nat)
  | provided (name : String)
deriving DecidableEq

/-- An expression.  `Op` are the forms that bind no name, with all they carry besides their
operands. -/
inductive HirExpr (Op : Type)
  | ref (res : Res)
  | form (op : Op) (operands : List (HirExpr Op))
  | mapInside (var : Nat) (source to_ : HirExpr Op)

variable (Op Head : Type)

inductive HirPathSeg
  | field (name : String)
  | index (e : HirExpr Op)

structure HirPlace where
  id : Nat
  base : Res
  path : List (HirPathSeg Op)

inductive HirPipeline
  | from_ (e : HirExpr Op)
  | takeFirst (e : HirExpr Op)
  | keep (var : Nat) (cond : HirExpr Op)
  | sort (var : Nat) (key : HirExpr Op)
  | mapEach (var : Nat) (to_ : HirExpr Op)
  | fold (item total : Nat) (starting step : HirExpr Op)

/-- `set` is written with its place first, the others with their value first. -/
inductive Verb
  | set
  | add
  | subtract
  | append
  | remove
deriving DecidableEq

mutual

inductive HirStmt
  | give (e : HirExpr Op)
  | pipeline (clause : HirPipeline Op)
  | mutation (verb : Verb) (place : HirPlace Op) (value : HirExpr Op)
  | when (scrutinee : HirExpr Op) (arms : List HirArm)
  | each (var : Nat) (iter : HirExpr Op) (body : List HirStmt)
  | ifThen (cond : HirExpr Op) (then_ : List HirStmt) (otherwise : Option (List HirStmt))
  | bind (bindings : List (Nat × HirExpr Op))
  | do_ (call : HirExpr Op)

inductive HirArm
  | show_ (pattern : String) (bindings : List Nat) (e : HirExpr Op)
  | block (pattern : String) (bindings : List Nat) (body : List HirStmt)

end

/-- State of an instance.  `Head` is what is written on its line besides expressions: the
placement, the type, the clock and whether it is a source. -/
structure LocalSignal where
  local_ : Nat
  head : Head
  step : Option (HirExpr Op)
  init : HirExpr Op

end Expressions

section Nodes

variable (Op Head : Type)

abbrev Span := Nat × Nat

mutual

inductive HirNode
  | element (element : HirElement)
  | each (var : Nat) (iter : HirExpr Op) (body : List HirNode) (span : Span)
  | when (scrutinee : HirExpr Op) (arms : List HirNodeArm) (span : Span)
  | ifThen (cond : HirExpr Op) (then_ : List HirNode) (otherwise : Option (List HirNode))
      (span : Span)
  | handler (event : String) (payload : Option Nat) (body : List (HirStmt Op)) (span : Span)
  | children (span : Span)
  | scope (locals : List (LocalSignal Op Head)) (body : List HirNode) (span : Span)

inductive HirElement
  | mk (name : String) (res : Res) (args : List (Arg (HirExpr Op))) (children : List HirNode)
      (span : Span)

inductive HirNodeArm
  | show_ (pattern : String) (bindings : List Nat) (element : HirElement)
  | nodes (pattern : String) (bindings : List Nat) (nodes : List HirNode)

end

variable {Op Head}

namespace HirElement

def res : HirElement Op Head → Res
  | .mk _ res _ _ _ => res

def args : HirElement Op Head → List (Arg (HirExpr Op))
  | .mk _ _ args _ _ => args

def children : HirElement Op Head → List (HirNode Op Head)
  | .mk _ _ _ children _ => children

def span : HirElement Op Head → Span
  | .mk _ _ _ _ span => span

end HirElement

variable (Op Head)

structure Component where
  params : List Nat
  takesChildren : Bool
  states : List (LocalSignal Op Head)
  body : List (HirNode Op Head)

structure Def where
  name : String
  component : Option (Component Op Head)

/-- A resolved program: its definitions, the names of its locals, how many places it has, and
the nodes of its view. -/
structure Hir where
  defs : List (Def Op Head)
  locals : List String
  places : Nat
  view : List (HirNode Op Head)

variable {Op Head}

def Hir.component (hir : Hir Op Head) (id : Nat) : Option (Component Op Head) :=
  hir.defs[id]?.bind Def.component

def Hir.name (hir : Hir Op Head) (id : Nat) : String :=
  (hir.defs[id]?.map Def.name).getD ""

def component_of (hir : Hir Op Head) : Res → Option (Nat × Component Op Head)
  | .def_ id => (hir.component id).map fun component => (id, component)
  | _ => none

end Nodes

end Instantiate
end Zdeceptron
