import Zdeceptron.Bodies.Touches
import Zdeceptron.Library.Closure

/-!
# What reads a signal

`reads_signal` walks an expression, `block_reads_signal` a body, and
`solve_reactive_functions` makes rounds over the functions until no more of them read.  On a
page the binders of its nodes are read like signals.
-/

namespace Zdeceptron
namespace Reactive

open Bodies Library

section Program

inductive Placement
  | client
  | static_
  | server
  | durable
  | remembered
deriving DecidableEq

inductive Op
  | number (value : Float)
  | text (value : String)
  | truth (value : Bool)
  | empty
  | address
  | media (query : String)
  | scroll
  | list
  | map
  | environment (name : String)
  | outbound (destination : String) (names : List String)
  | build (capability : String)
  -- a definition named without a call
  | ref (id : Nat)
  -- a variant or a built-in, named or called
  | constructed (name : String)
  | operator (name : String)
  | unary (op : String)
  | binary (op : String)
  | field (name : String)
  | index
  | append
  | insert

/-- A program: its definitions, and where those that are signals are placed. -/
structure Hir (Verb : Type) where
  defs : Program Op Verb
  signal : Nat → Option Placement

def is_reactive_signal {Verb : Type} (hir : Hir Verb) (id : Nat) : Bool :=
  match hir.signal id with
  | some placement => !decide (placement = .static_)
  | none => false

structure Analysis where
  folded : List Nat
  reactive_locals : List Nat
  reactive_functions : Finset Nat

end Program

section Reads

variable {Verb : Type} (hir : Hir Verb) (A : Analysis)

/-- `res_is_reactive` of a definition. -/
def res_is_reactive (id : Nat) : Bool :=
  match hir.defs[id]? with
  | some .other => is_reactive_signal hir id
  | some (.function _ _) => decide (id ∈ A.reactive_functions)
  | some (.release _ _) => decide (id ∈ A.reactive_functions)
  | _ => false

/-- `res_is_reactive` of a local. -/
def local_is_reactive (id : Nat) : Bool :=
  A.reactive_locals.contains id && !A.folded.contains id

def op_reads : Op → Bool
  | .media _ => true
  | .scroll => true
  | .environment _ => true
  | .ref id => res_is_reactive hir A id
  | _ => false

def reactive : Marks Op := ⟨op_reads hir A, local_is_reactive A, res_is_reactive hir A⟩

def reads_signal (e : HirExpr Op) : Bool := e.touches (reactive hir A)

def block_reads_signal (body : FunctionBody Op Verb) : Bool :=
  bodyTouches (reactive hir A) body

def scratch (S : Finset Nat) : Analysis := ⟨[], [], S⟩

/-- Whether a function reads a signal, given the functions that do so far. -/
def function_reads (S : Finset Nat) (id : Nat) : Bool :=
  match hir.defs[id]? with
  | some (.function _ body) => block_reads_signal hir (scratch S) body
  | _ => false

def solve_reactive_functions : Finset Nat :=
  leastClosed (function_reads hir) (List.range hir.defs.length)

end Reads

section Nodes

mutual

inductive Node
  | element (element : Element)
  | each (var : Nat) (iter : HirExpr Op) (body : List Node)
  | when (scrutinee : HirExpr Op) (arms : List NodeArm)
  | ifThen (cond : HirExpr Op) (then_ : List Node) (otherwise : Option (List Node))
  | handler
  -- the state of an instance: each local with the expression it starts as
  | scope (locals : List (Nat × HirExpr Op)) (body : List Node)

inductive Element
  | mk (args : List (HirExpr Op)) (children : List Node)

inductive NodeArm
  | mk (bindings : List Nat) (body : NodeArmBody)

inductive NodeArmBody
  | show_ (element : Element)
  | nodes (nodes : List Node)

end

mutual

def node_binder : Node → List Nat
  | .element (.mk _ children) => node_binders children
  | .each var _ body => var :: node_binders body
  | .when _ arms => arm_binders arms
  | .ifThen _ then_ none => node_binders then_
  | .ifThen _ then_ (some otherwise) => node_binders then_ ++ node_binders otherwise
  | .handler => []
  | .scope _ body => node_binders body

def node_binders : List Node → List Nat
  | [] => []
  | node :: nodes => node_binder node ++ node_binders nodes

def arm_binders : List NodeArm → List Nat
  | [] => []
  | .mk bindings (.show_ (.mk _ children)) :: arms =>
      bindings ++ node_binders children ++ arm_binders arms
  | .mk bindings (.nodes nodes) :: arms =>
      bindings ++ node_binders nodes ++ arm_binders arms

end

mutual

def local_signal : Node → List Nat
  | .element (.mk _ children) => local_signals children
  | .each _ _ body => local_signals body
  | .when _ arms => arm_signals arms
  | .ifThen _ then_ none => local_signals then_
  | .ifThen _ then_ (some otherwise) => local_signals then_ ++ local_signals otherwise
  | .handler => []
  | .scope locals body => locals.map Prod.fst ++ local_signals body

def local_signals : List Node → List Nat
  | [] => []
  | node :: nodes => local_signal node ++ local_signals nodes

def arm_signals : List NodeArm → List Nat
  | [] => []
  | .mk _ (.show_ (.mk _ children)) :: arms => local_signals children ++ arm_signals arms
  | .mk _ (.nodes nodes) :: arms => local_signals nodes ++ arm_signals arms

end

/-- The analysis of one page; `bindings` are the binders the address fold replaced. -/
def rooted {Verb : Type} (hir : Hir Verb) (roots : List Node) (bindings : List Nat) :
    Analysis where
  folded := bindings
  reactive_locals :=
    (node_binders roots ++ local_signals roots).filter (fun id => !bindings.contains id)
  reactive_functions := solve_reactive_functions hir

end Nodes

section Places

mutual

/-- An expression is written in a node, under the binders `bound` of the nodes around it. -/
inductive Node.Holds : Node → List Nat → HirExpr Op → Prop
  | element {element bound e} : Element.Holds element bound e →
      Node.Holds (.element element) bound e
  | iter {var iter body} : Node.Holds (.each var iter body) [] iter
  | each {var iter body bound e} : Nodes.Holds body bound e →
      Node.Holds (.each var iter body) (var :: bound) e
  | scrutinee {scrutinee arms} : Node.Holds (.when scrutinee arms) [] scrutinee
  | when {scrutinee arms bound e} : Arms.Holds arms bound e →
      Node.Holds (.when scrutinee arms) bound e
  | cond {cond then_ otherwise} : Node.Holds (.ifThen cond then_ otherwise) [] cond
  | then_ {cond then_ otherwise bound e} : Nodes.Holds then_ bound e →
      Node.Holds (.ifThen cond then_ otherwise) bound e
  | otherwise {cond then_ otherwise bound e} : Nodes.Holds otherwise bound e →
      Node.Holds (.ifThen cond then_ (some otherwise)) bound e
  | state {locals body declared} : declared ∈ locals →
      Node.Holds (.scope locals body) (locals.map Prod.fst) declared.2
  | scope {locals body bound e} : Nodes.Holds body bound e →
      Node.Holds (.scope locals body) (locals.map Prod.fst ++ bound) e

inductive Nodes.Holds : List Node → List Nat → HirExpr Op → Prop
  | head {node nodes bound e} : Node.Holds node bound e → Nodes.Holds (node :: nodes) bound e
  | tail {node nodes bound e} : Nodes.Holds nodes bound e → Nodes.Holds (node :: nodes) bound e

inductive Element.Holds : Element → List Nat → HirExpr Op → Prop
  | arg {args children e} : e ∈ args → Element.Holds (.mk args children) [] e
  | child {args children bound e} : Nodes.Holds children bound e →
      Element.Holds (.mk args children) bound e

inductive Arms.Holds : List NodeArm → List Nat → HirExpr Op → Prop
  | show_ {bindings element arms bound e} : Element.Holds element bound e →
      Arms.Holds (.mk bindings (.show_ element) :: arms) (bindings ++ bound) e
  | nodes {bindings nodes arms bound e} : Nodes.Holds nodes bound e →
      Arms.Holds (.mk bindings (.nodes nodes) :: arms) (bindings ++ bound) e
  | tail {arm arms bound e} : Arms.Holds arms bound e → Arms.Holds (arm :: arms) bound e

end

/-- The binders around an expression are collected, as binders or as state. -/
def Collected (binders signals bound : List Nat) : Prop :=
  ∀ id ∈ bound, id ∈ binders ∨ id ∈ signals

theorem Collected.mono {binders signals binders' signals' bound : List Nat}
    (h : Collected binders signals bound) (hbinders : binders ⊆ binders')
    (hsignals : signals ⊆ signals') : Collected binders' signals' bound := fun id hid =>
  (h id hid).imp (fun hmem => hbinders hmem) (fun hmem => hsignals hmem)

theorem collected_nil (binders signals : List Nat) : Collected binders signals [] := by
  intro id hid
  cases hid

theorem Collected.append {binders signals bound bound' : List Nat}
    (h : Collected binders signals bound) (h' : Collected binders signals bound') :
    Collected binders signals (bound ++ bound') := fun id hid =>
  (List.mem_append.mp hid).elim (h id) (h' id)

mutual

theorem Node.Holds.collected {node : Node} {bound : List Nat} {e : HirExpr Op}
    (h : Node.Holds node bound e) :
    Collected (node_binder node) (local_signal node) bound := by
  match h with
  | @Node.Holds.element (.mk args children) _ _ helement => exact helement.collected
  | .iter => exact collected_nil _ _
  | @Node.Holds.each var iter body bound' _ hbody =>
      have hvar : Collected (var :: node_binders body) (local_signals body) [var] :=
        fun id hid => .inl (List.mem_singleton.mp hid ▸ List.mem_cons_self)
      exact hvar.append (hbody.collected.mono (List.subset_cons_self _ _) (List.Subset.refl _))
  | .scrutinee => exact collected_nil _ _
  | .when harms => exact harms.collected
  | .cond => exact collected_nil _ _
  | @Node.Holds.then_ cond then_ none _ _ hthen => exact hthen.collected
  | @Node.Holds.then_ cond then_ (some otherwise) _ _ hthen =>
      exact hthen.collected.mono (List.subset_append_left _ _) (List.subset_append_left _ _)
  | .otherwise hotherwise =>
      exact hotherwise.collected.mono (List.subset_append_right _ _)
        (List.subset_append_right _ _)
  | .state _ => exact fun id hid => .inr (List.mem_append_left _ hid)
  | @Node.Holds.scope locals body _ _ hbody =>
      have hown : Collected (node_binders body) (locals.map Prod.fst ++ local_signals body)
          (locals.map Prod.fst) := fun id hid => .inr (List.mem_append_left _ hid)
      exact hown.append
        (hbody.collected.mono (List.Subset.refl _) (List.subset_append_right _ _))

theorem Nodes.Holds.collected {nodes : List Node} {bound : List Nat} {e : HirExpr Op}
    (h : Nodes.Holds nodes bound e) :
    Collected (node_binders nodes) (local_signals nodes) bound := by
  match h with
  | .head hnode =>
      exact hnode.collected.mono (List.subset_append_left _ _) (List.subset_append_left _ _)
  | .tail hnodes =>
      exact hnodes.collected.mono (List.subset_append_right _ _) (List.subset_append_right _ _)

theorem Element.Holds.collected {args : List (HirExpr Op)} {children : List Node}
    {bound : List Nat} {e : HirExpr Op} (h : Element.Holds (.mk args children) bound e) :
    Collected (node_binders children) (local_signals children) bound := by
  match h with
  | .arg _ => exact collected_nil _ _
  | .child hchildren => exact hchildren.collected

theorem Arms.Holds.collected {arms : List NodeArm} {bound : List Nat} {e : HirExpr Op}
    (h : Arms.Holds arms bound e) :
    Collected (arm_binders arms) (arm_signals arms) bound := by
  have hbindings {bindings inside rest : List Nat} {signals : List Nat} :
      Collected (bindings ++ inside ++ rest) signals bindings := fun id hid =>
    .inl (List.mem_append_left _ (List.mem_append_left _ hid))
  have hinside {bindings inside rest : List Nat} : inside ⊆ bindings ++ inside ++ rest :=
    fun id hid => List.mem_append_left _ (List.mem_append_right _ hid)
  match h with
  | @Arms.Holds.show_ bindings (.mk args children) arms _ _ helement =>
      exact hbindings.append (helement.collected.mono hinside (List.subset_append_left _ _))
  | .nodes hnodes =>
      exact hbindings.append (hnodes.collected.mono hinside (List.subset_append_left _ _))
  | @Arms.Holds.tail (.mk bindings (.show_ (.mk args children))) _ _ _ harms =>
      exact harms.collected.mono (List.subset_append_right _ _) (List.subset_append_right _ _)
  | @Arms.Holds.tail (.mk bindings (.nodes nodes)) _ _ _ harms =>
      exact harms.collected.mono (List.subset_append_right _ _) (List.subset_append_right _ _)

end

theorem local_is_reactive_of_holds {Verb : Type} (hir : Hir Verb) {roots : List Node}
    {bindings bound : List Nat} {e : HirExpr Op} (h : Nodes.Holds roots bound e) {id : Nat}
    (hid : id ∈ bound) (hfolded : id ∉ bindings) :
    local_is_reactive (rooted hir roots bindings) id = true := by
  have hcollected : id ∈ node_binders roots ++ local_signals roots :=
    List.mem_append.mpr (h.collected id hid)
  simp [local_is_reactive, rooted, hfolded, List.mem_append.mp hcollected]

end Places

end Reactive
end Zdeceptron
