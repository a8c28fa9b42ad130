import Zdeceptron.Reactive.Analysis

/-!
# Masked fields

`masked_signals` collects what the `PasswordInput`s of a view bind, and `check_masked` looks
for those signals in the arguments of the elements.
-/

namespace Zdeceptron
namespace View

open Bodies Reactive

section Nodes

/-- The state of an instance: a signal of its own, or a value computed from others. -/
structure LocalSignal where
  id : Nat
  is_source : Bool
  init : HirExpr Op

mutual

inductive HirNode
  | element (element : HirElement)
  | each (var : Nat) (iter : HirExpr Op) (body : List HirNode)
  | when (scrutinee : HirExpr Op) (arms : List HirNodeArm)
  | ifThen (cond : HirExpr Op) (then_ : List HirNode) (otherwise : Option (List HirNode))
  | handler
  | scope (locals : List LocalSignal) (body : List HirNode)

/-- An element.  One that is a view of a foreign belongs to the module of the foreign. -/
inductive HirElement
  | mk (name : String) (isForeign : Bool) (args : List (Arg (HirExpr Op)))
      (children : List HirNode)

inductive HirNodeArm
  | mk (pattern : String) (bindings : List Nat) (body : HirNodeArmBody)

inductive HirNodeArmBody
  | show_ (element : HirElement)
  | nodes (nodes : List HirNode)

end

end Nodes

section Collect

def leading_positional : List (Arg (HirExpr Op)) → Option (HirExpr Op)
  | [] => none
  | .positional e :: _ => some e
  | .named _ _ :: args => leading_positional args

def definition : HirExpr Op → Option Nat
  | .operator (.ref id) [] => some id
  | _ => none

def instance_ : HirExpr Op → Option Nat
  | .local_ id => some id
  | _ => none

variable (bound : HirExpr Op → Option Nat)

mutual

/-- What the fields of the nodes bind, of the sort `bound` looks for. -/
def bound_node : HirNode → List Nat
  | .element element => bound_element element
  | .each _ _ body => bound_nodes body
  | .when _ arms => bound_arms arms
  | .ifThen _ then_ none => bound_nodes then_
  | .ifThen _ then_ (some otherwise) => bound_nodes then_ ++ bound_nodes otherwise
  | .handler => []
  | .scope _ body => bound_nodes body

def bound_nodes : List HirNode → List Nat
  | [] => []
  | node :: nodes => bound_node node ++ bound_nodes nodes

def bound_element : HirElement → List Nat
  | .mk name _ args children =>
      (if name = "PasswordInput" then ((leading_positional args).bind bound).toList else []) ++
        bound_nodes children

def bound_arms : List HirNodeArm → List Nat
  | [] => []
  | .mk _ _ (.show_ element) :: arms => bound_element element ++ bound_arms arms
  | .mk _ _ (.nodes nodes) :: arms => bound_nodes nodes ++ bound_arms arms

end

/-- Every signal of the program that a `PasswordInput` anywhere under the nodes binds. -/
def masked_signals (nodes : List HirNode) : List Nat := bound_nodes definition nodes

def masked_instances (nodes : List HirNode) : List Nat := bound_nodes instance_ nodes

end Collect

section Check

def mentions (sort : Nat → Bool) : Marks Op where
  operator
    | .ref id => sort id
    | _ => false
  local_ _ := false
  callee := sort

/-- The arguments of an element, but for the binding of a `PasswordInput`. -/
def written (name : String) (args : List (Arg (HirExpr Op))) : List (HirExpr Op) :=
  if name = "PasswordInput" then
    let binding := args.findIdx fun arg => match arg with
      | .positional _ => true
      | .named _ _ => false
    (args.eraseIdx binding).map Arg.value
  else args.map Arg.value

variable (masked : List Nat)

def check_masked (name : String) (args : List (Arg (HirExpr Op))) : Bool :=
  (written name args).all fun e => !e.touches (mentions fun id => masked.contains id)

mutual

/-- The nodes are lowered without an error of this check.  A view of a foreign is settled
before it. -/
def lowered_node : HirNode → Bool
  | .element element => lowered_element element
  | .each _ _ body => lowered_nodes body
  | .when _ arms => lowered_arms arms
  | .ifThen _ then_ none => lowered_nodes then_
  | .ifThen _ then_ (some otherwise) => lowered_nodes then_ && lowered_nodes otherwise
  | .handler => true
  | .scope _ body => lowered_nodes body

def lowered_nodes : List HirNode → Bool
  | [] => true
  | node :: nodes => lowered_node node && lowered_nodes nodes

def lowered_element : HirElement → Bool
  | .mk _ true _ _ => true
  | .mk name false args children => check_masked masked name args && lowered_nodes children

def lowered_arms : List HirNodeArm → Bool
  | [] => true
  | .mk _ _ (.show_ element) :: arms => lowered_element element && lowered_arms arms
  | .mk _ _ (.nodes nodes) :: arms => lowered_nodes nodes && lowered_arms arms

end

def accepted (view : List HirNode) : Bool := lowered_nodes (masked_signals view) view

end Check

end View
end Zdeceptron
