import Zdeceptron.Bodies.Syntax

/-!
# The resolved program

Expressions, statements and view nodes are trees.  A reference, an argument and what a node
evaluates keep the identity of their expression, a place that of the place.
-/

namespace Zdeceptron
namespace Graph

section Names

abbrev DefId := Nat
abbrev LocalId := Nat
abbrev ExprId := Nat
abbrev PlaceId := Nat

abbrev Span := Nat × Nat

/-- The built-in elements.  Those without a two-way binding are `plain`. -/
inductive BuiltinElement
  | input
  | textArea
  | passwordInput
  | numberInput
  | dateInput
  | fileInput
  | slider
  | select
  | radio
  | checkbox
  | dialog
  | plain (name : String)
deriving DecidableEq

def BuiltinElement.isTwoWay : BuiltinElement → Bool
  | plain _ => false
  | _ => true

inductive Builtin
  | element (element : BuiltinElement)
  | type_
  | pair
deriving DecidableEq

inductive BuiltinVariant
  | some_
  | none_
  | loading
  | ready
  | failed
  | unreachable
  | timeout
  | rejected
deriving DecidableEq

inductive Res
  | def_ (id : DefId)
  | local_ (id : LocalId)
  | builtin (builtin : Builtin)
  | builtinVariant (variant : BuiltinVariant)
  | variant (choice : DefId) (index : Nat)
deriving DecidableEq

end Names

section Expressions

inductive OperatorName
  | length
  | textOf
deriving DecidableEq

inductive UnaryOp
  | not
  | neg
deriving DecidableEq

inductive BinOp
  | or
  | and
  | is
  | isNot
  | contains
  | less
  | greater
  | lessEq
  | greaterEq
  | add
  | sub
  | mul
  | div
deriving DecidableEq

inductive BuildCapability
  | read
  | list
  | markdown
  | parts
deriving DecidableEq

structure Arg (ε : Type) where
  name : Option String
  id : ExprId
  value : ε

inductive Expr
  | number (value : Float)
  | text (value : String)
  | truth (value : Bool)
  | empty
  | address
  | media (query : String)
  | scroll
  | environment (key : String)
  | ref (id : ExprId) (res : Res)
  | conditional (condition value otherwise : Expr)
  | list (items : List Expr)
  | map (entries : List (Expr × Expr))
  | call (callee : Res) (args : List (Arg Expr))
  | ofCall (callee : Res) (id : ExprId) (operand : Expr)
  | operator (op : OperatorName) (operand : Expr)
  | build (capability : BuildCapability) (argument : Expr)
  | unary (op : UnaryOp) (operand : Expr)
  | binary (op : BinOp) (lhs rhs : Expr)
  | field (base : Expr) (name : String)
  | index (base index : Expr)
  | append (item list : Expr)
  | insert (key value table : Expr)
  | outbound (destination : String) (args : List (Arg Expr))
  | mapInside (var : LocalId) (source mapped : Expr)

def Expr.children : Expr → List Expr
  | .number _ => []
  | .text _ => []
  | .truth _ => []
  | .empty => []
  | .address => []
  | .media _ => []
  | .scroll => []
  | .environment _ => []
  | .ref _ _ => []
  | .conditional condition value otherwise => [condition, value, otherwise]
  | .list items => items
  | .map entries => entries.flatMap (fun entry => [entry.1, entry.2])
  | .call _ args => args.map Arg.value
  | .ofCall _ _ operand => [operand]
  | .operator _ operand => [operand]
  | .build _ argument => [argument]
  | .unary _ operand => [operand]
  | .binary _ lhs rhs => [lhs, rhs]
  | .field base _ => [base]
  | .index base key => [base, key]
  | .append item rest => [item, rest]
  | .insert key value table => [key, value, table]
  | .outbound _ args => args.map Arg.value
  | .mapInside _ source mapped => [source, mapped]

inductive Expr.Within (e : Expr) : Expr → Prop
  | self : Within e e
  | child {c d : Expr} : c ∈ d.children → Within e c → Within e d

end Expressions

section Statements

inductive MutOp
  | set
  | incr
  | decr
  | append
  | remove
deriving DecidableEq

inductive PathSeg
  | field (name : String)
  | index (expr : Expr)

structure Place where
  id : PlaceId
  base : Res
  path : List PathSeg
  span : Span

structure Mutation where
  op : MutOp
  place : Place
  value : Expr

def indexesOf : List PathSeg → List Expr
  | [] => []
  | .index expr :: path => expr :: indexesOf path
  | .field _ :: path => indexesOf path

inductive Effect
  | mutation (mutation : Mutation)
  | call (call : Expr)

abbrev Pipeline := Bodies.Pipeline Expr
abbrev Stmt := Bodies.Stmt Expr Effect
abbrev Arm := Bodies.Arm Expr Effect
abbrev Block := Bodies.Block Expr Effect

/-- The expressions an effect evaluates, in order. -/
def Effect.exprs : Effect → List Expr
  | .mutation written => written.value :: indexesOf written.place.path
  | .call callee => [callee]

end Statements

section View

inductive HandlerTarget
  | element
  | document (key : String)

structure LocalSignal where
  id : LocalId
  initId : ExprId
  init : Expr
  step : Option Expr

mutual

inductive Node
  | element (element : Element)
  | each (var : LocalId) (id : ExprId) (iter : Expr) (body : List Node)
  | when (id : ExprId) (scrutinee : Expr) (arms : List NodeArm)
  | ifThen (id : ExprId) (cond : Expr) (then_ : List Node) (otherwise : Option (List Node))
  | handler (target : HandlerTarget) (body : Block)
  | children
  | scope (locals : List LocalSignal) (body : List Node)

inductive Element
  | mk (name : String) (res : Res) (args : List (Arg Expr)) (children : List Node)
      (span : Span)

inductive NodeArm
  | mk (name : String) (bindings : List LocalId) (body : NodeArmBody)

inductive NodeArmBody
  | show_ (element : Element)
  | nodes (nodes : List Node)

end

end View

section Declarations

inductive Placement
  | client
  | static
  | server
  | durable
  | remembered
deriving DecidableEq

inductive ForeignSite
  | client
  | server
  | anywhere
deriving DecidableEq

inductive ForeignGrant
  | opaque_
  | pure_
  | trusted
deriving DecidableEq

structure Signal where
  secret : Bool
  trusted : Bool
  placement : Placement
  init : Expr
  step : Option Expr
  clock : Bool
  schedule : Option Block
  emits : Option String
  expectation : Bool

structure Function where
  params : List LocalId
  body : Block

structure Release where
  params : List LocalId
  endorsed : List Bool
  body : Block

structure Foreign where
  site : ForeignSite
  params : List LocalId
  trustedParams : List Bool
  resultGrant : ForeignGrant

inductive DefKind
  | signal (signal : Signal)
  | function (function : Function)
  | release (release : Release)
  | view (nodes : List Node)
  | foreign (foreign : Foreign)
  | record
  | choice
  | component

structure Def where
  name : String
  span : Span
  kind : DefKind

structure Hir where
  defs : List Def
  view : Option DefId
  span : ExprId → Span
  localName : LocalId → String

def Hir.kind (hir : Hir) (id : DefId) : Option DefKind := (hir.defs[id]?).map Def.kind

def Hir.signal (hir : Hir) (id : DefId) : Option Signal :=
  match hir.kind id with
  | some (.signal signal) => some signal
  | _ => none

end Declarations

end Graph
end Zdeceptron
