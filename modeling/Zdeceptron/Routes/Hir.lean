import Mathlib.Data.List.SplitOn
import Zdeceptron.Bodies.Syntax
import Zdeceptron.Store.Value

/-!
# What routing reads of a program

The routes of a program and their URLs, the signals a route parameter may range over, and
the trees of its views and bodies as far as routing walks them.
-/

namespace Zdeceptron
namespace Routes

abbrev Text := List Char

section Expressions

/-- An expression; `other` are the kinds with no value at build time. -/
inductive Expr
  | text (text : Text)
  | number (n : Float)
  | truth (b : Bool)
  | conditional (condition value otherwise : Expr)
  | list (items : List Expr)
  | ref (definition : Nat)
  | address
  | other

/-- What a body runs for its effect: a write to a place, which may start at a definition,
or a call. -/
inductive Effect
  | mutation (base : Option Nat)
  | call

end Expressions

section Nodes

inductive NodeArg
  | named (name : String) (value : Expr)
  | positional (value : Expr)

mutual

inductive Node
  | element (element : Element)
  | each (body : List Node)
  | when (arms : List NodeArm)
  | ifThen (then_ : List Node) (otherwise : Option (List Node))
  | scope (body : List Node)
  | handler (body : Bodies.Block Expr Effect)
  | children

inductive Element
  | mk (name : String) (args : List NodeArg) (children : List Node)

inductive NodeArm
  | show_ (element : Element)
  | nodes (nodes : List Node)

end

/-- The destination of a `Link`. -/
def destinationOf (name : String) (args : List NodeArg) : Option Expr :=
  if name = "Link" then
    args.findSome? (fun arg =>
      match arg with
      | .named name value => if name = "href" then some value else none
      | .positional _ => none)
  else none

end Nodes

section Definitions

inductive Placement
  | client
  | static
  | server
  | durable
  | remembered
deriving DecidableEq

structure Signal where
  placement : Placement
  secret : Bool
  init : Expr

inductive DefKind
  | signal (signal : Signal)
  | function (body : Bodies.Block Expr Effect)
  | release (body : Bodies.Block Expr Effect)
  | view (nodes : List Node)
  | other

end Definitions

section Table

def segmentChar (c : Char) : Bool :=
  c.isAlphanum || c == '-' || c == '_' || c == '.'

def segmentIsSafe (value : Text) : Bool := !value.isEmpty && value.all segmentChar

def routePathIsSafe (path : Text) : Bool :=
  if path = ['/'] then true
  else if path.head? ≠ some '/' ∨ path.getLast? = some '/' then false
  else
    (path.tail.splitOn '/').all (fun segment =>
      !segment.isEmpty && segment != ['.'] && segment != ['.', '.'] &&
        segment.all segmentChar)

/-- A parameter, and the signal that holds its values if it is enumerable. -/
structure RouteParam where
  name : String
  enumeratedIn : Option Nat

structure RouteVariantInfo where
  path : Text
  params : List RouteParam
  safe : routePathIsSafe path = true

structure RouteTable where
  variants : List RouteVariantInfo

def trimEndMatches (path : Text) : Text :=
  (path.reverse.dropWhile (fun c => c == '/')).reverse

def RouteTable.url (table : RouteTable) (index : Nat) (values : List Text) : Text :=
  match table.variants[index]? with
  | none => []
  | some variant =>
      let out := values.foldl (fun out value => out ++ '/' :: value)
        (trimEndMatches variant.path)
      if out = [] then ['/'] else out

structure Hir where
  defs : List DefKind
  routes : Option RouteTable

end Table

end Routes
end Zdeceptron
