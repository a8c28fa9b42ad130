import Zdeceptron.Graph.SideBySide

/-!
# Views walked side by side

The expressions of a view, and the walk of its nodes over two tables of summaries.
-/

namespace Zdeceptron
namespace Graph

open Library

section Exprs

mutual

/-- The expressions that the walk of a node evaluates. -/
def nodeExprs : Node → List Expr
  | .element element => elementExprs element
  | .each _ _ iter body => iter :: nodesExprs body
  | .when _ scrutinee arms => scrutinee :: nodeArmExprs arms
  | .ifThen _ cond then_ otherwise => cond :: (nodesExprs then_ ++ elseExprs otherwise)
  | .handler _ body => blockExprs body
  | .children => []
  | .scope signals body => signals.map LocalSignal.init ++ nodesExprs body

def elementExprs : Element → List Expr
  | .mk _ _ args children _ => args.map Arg.value ++ nodesExprs children

def nodeArmExprs : List NodeArm → List Expr
  | [] => []
  | .mk _ _ body :: arms => nodeArmBodyExprs body ++ nodeArmExprs arms

def nodeArmBodyExprs : NodeArmBody → List Expr
  | .show_ element => elementExprs element
  | .nodes nodes => nodesExprs nodes

def elseExprs : Option (List Node) → List Expr
  | none => []
  | some nodes => nodesExprs nodes

def nodesExprs : List Node → List Expr
  | [] => []
  | node :: nodes => nodeExprs node ++ nodesExprs nodes

end

end Exprs

namespace Pass

variable {p : Pass} {callee : DefId → Summary} {T : Prop} {R : Sym → Sym → Prop}
  {I : ObligationId → Prop} {L : LocalId → Prop} {C : DefId → Prop}
  (hR : Logical R) (hI : ∀ id, I id → Rising R)
  (hC : ∀ d, C d → SummaryRel p.hir T R I (p.callee d) (callee d))

theorem related_twoWay (hR : Logical R) (res : Res) (args : List (Arg Expr)) (span : Span) :
    Related (WalkRel p.hir T R I L) (fun _ _ => True) (p.twoWay res args span)
      ((p.reading callee).twoWay res args span) := by
  unfold twoWay
  split
  · refine related_runIf _ (Related.of_get.bind (fun w w' hw => ?_))
    exact related_oblige hR hR.bot hw.pc
  · exact .of_pure trivial

include hR hI hC

theorem elementArg_related {arg : Arg Expr} (h : Scoped p.hir L C arg.value) :
    Related (WalkRel p.hir T R I L) (fun _ _ => True) (p.elementArg arg)
      ((p.reading callee).elementArg arg) := by
  unfold elementArg
  split
  · refine Related.of_get.bind (fun w w' hw => ?_)
    rw [hw.urlArgument]
    refine (related_setUrl _).bind (fun _ _ _ => ?_)
    refine (expr_related hR hI hC arg.value h).bind (fun value value' hvalue => ?_)
    refine (related_setUrl _).bind (fun _ _ _ => ?_)
    exact related_requireAt hR hI _ _ hvalue.value _
  · refine (expr_related hR hI hC arg.value h).bind (fun value value' hvalue => ?_)
    exact related_requireAt hR hI _ _ hvalue.value _

variable {args : List (Arg Expr)}

theorem elementArgs_related (h : ∀ e ∈ args.map Arg.value, Scoped p.hir L C e) :
    Related (WalkRel p.hir T R I L) (fun _ _ => True) (p.elementArgs args)
      ((p.reading callee).elementArgs args) := by
  induction args with
  | nil => exact .of_pure trivial
  | cons arg args ih =>
      rw [List.map_cons, List.forall_mem_cons] at h
      exact (elementArg_related hR hI hC h.1).bind (fun _ _ _ => ih h.2)

theorem elementOwn_related (res : Res) (span : Span)
    (h : ∀ e ∈ args.map Arg.value, Scoped p.hir L C e) :
    Related (WalkRel p.hir T R I L) (fun _ _ => True) (p.elementOwn res args span)
      ((p.reading callee).elementOwn res args span) := by
  unfold elementOwn
  simp only [reading_hir, args_eq_map]
  split
  · refine (related_foreign (fun e he => expr_related hR hI hC e (h e he)) hR _ _).bind ?_
    exact fun _ _ _ => .of_pure trivial
  · exact (elementArgs_related hR hI hC h).bind (fun _ _ _ => related_twoWay hR res args span)

theorem scopeLocals_related {signals : List LocalSignal}
    (h : ∀ e ∈ signals.map LocalSignal.init, Scoped p.hir L C e) :
    Related (WalkRel p.hir T R I L) (fun _ _ => True) (p.scopeLocals signals)
      ((p.reading callee).scopeLocals signals) := by
  induction signals with
  | nil => exact .of_pure trivial
  | cons signal signals ih =>
      rw [List.map_cons, List.forall_mem_cons] at h
      refine (expr_related hR hI hC signal.init h.1).bind (fun label label' hlabel => ?_)
      refine Related.bind (A := fun _ _ => True) ?_ (fun _ _ _ => ?_)
      · exact Related.of_get.bind (fun w w' hw => related_oblige hR hlabel.value hw.pc)
      · refine Related.bind (.of_modify (fun w w' hw =>
          { hw with localSignals := congrArg (signal.id :: ·) hw.localSignals })) (fun _ _ _ => ?_)
        exact (related_bindLocal signal.id hR.bottom).bind (fun _ _ _ => ih h.2)

mutual

theorem node_related : (n : Node) → (∀ e ∈ nodeExprs n, Scoped p.hir L C e) →
    Related (WalkRel p.hir T R I L) (fun _ _ => True) (p.node n) ((p.reading callee).node n)
  | .element e, h => element_related e h
  | .each var id iter body, h => by
      rw [nodeExprs, List.forall_mem_cons] at h
      refine (expr_related hR hI hC iter h.1).bind (fun label label' hlabel => ?_)
      refine (related_requireAt hR hI _ _ hlabel.value _).bind (fun _ _ _ => ?_)
      refine Related.of_get.bind (fun w w' hw => ?_)
      refine (related_setPc (hR.sup hw.pc hlabel.shape)).bind (fun _ _ _ => ?_)
      refine (related_bindLocal var (.triple hlabel.value)).bind (fun _ _ _ => ?_)
      exact (nodes_related body h.2).bind (fun _ _ _ => related_setPc hw.pc)
  | .when id scrutinee arms, h => by
      rw [nodeExprs, List.forall_mem_cons] at h
      refine (expr_related hR hI hC scrutinee h.1).bind (fun label label' hlabel => ?_)
      refine (related_requireAt hR hI _ _ hlabel.shape _).bind (fun _ _ _ => ?_)
      refine Related.of_get.bind (fun w w' hw => ?_)
      refine (related_setPc (hR.sup hw.pc hlabel.shape)).bind (fun _ _ _ => ?_)
      exact (nodeArms_related hlabel arms h.2).bind (fun _ _ _ => related_setPc hw.pc)
  | .ifThen id cond then_ otherwise, h => by
      rw [nodeExprs, List.forall_mem_cons, List.forall_mem_append] at h
      refine (expr_related hR hI hC cond h.1).bind (fun label label' hlabel => ?_)
      refine (related_requireAt hR hI _ _ hlabel.value _).bind (fun _ _ _ => ?_)
      refine Related.of_get.bind (fun w w' hw => ?_)
      refine (related_setPc (hR.sup hw.pc hlabel.value)).bind (fun _ _ _ => ?_)
      refine (nodes_related then_ h.2.1).bind (fun _ _ _ => ?_)
      exact (elseNodes_related otherwise h.2.2).bind (fun _ _ _ => related_setPc hw.pc)
  | .handler _ body, h => block_related hR hI hC body h
  | .children, _ => .of_pure trivial
  | .scope signals body, h => by
      rw [nodeExprs, List.forall_mem_append] at h
      exact (scopeLocals_related hR hI hC h.1).bind (fun _ _ _ => nodes_related body h.2)

theorem element_related : (e : Element) → (∀ c ∈ elementExprs e, Scoped p.hir L C c) →
    Related (WalkRel p.hir T R I L) (fun _ _ => True) (p.element e) ((p.reading callee).element e)
  | .mk _ res args children span, h => by
      rw [elementExprs, List.forall_mem_append] at h
      exact (elementOwn_related hR hI hC res span h.1).bind
        (fun _ _ _ => nodes_related children h.2)

theorem nodeArms_related {scrutinee scrutinee' : SymLabel}
    (hscrutinee : LabelRel R scrutinee scrutinee') : (arms : List NodeArm) →
    (∀ e ∈ nodeArmExprs arms, Scoped p.hir L C e) →
      Related (WalkRel p.hir T R I L) (fun _ _ => True) (p.nodeArms scrutinee arms)
        ((p.reading callee).nodeArms scrutinee' arms)
  | [], _ => .of_pure trivial
  | .mk name binders body :: rest, h => by
      rw [nodeArmExprs, List.forall_mem_append] at h
      refine (related_enterArm hscrutinee name binders).bind (fun _ _ _ => ?_)
      refine (nodeArmBody_related body h.1).bind (fun _ _ _ => ?_)
      exact nodeArms_related hscrutinee rest h.2

theorem nodeArmBody_related : (body : NodeArmBody) →
    (∀ e ∈ nodeArmBodyExprs body, Scoped p.hir L C e) →
      Related (WalkRel p.hir T R I L) (fun _ _ => True) (p.nodeArmBody body)
        ((p.reading callee).nodeArmBody body)
  | .show_ e, h => element_related e h
  | .nodes nodes, h => nodes_related nodes h

theorem elseNodes_related : (otherwise : Option (List Node)) →
    (∀ e ∈ elseExprs otherwise, Scoped p.hir L C e) →
      Related (WalkRel p.hir T R I L) (fun _ _ => True) (p.elseNodes otherwise)
        ((p.reading callee).elseNodes otherwise)
  | none, _ => .of_pure trivial
  | some nodes, h => nodes_related nodes h

theorem nodes_related : (ns : List Node) → (∀ e ∈ nodesExprs ns, Scoped p.hir L C e) →
    Related (WalkRel p.hir T R I L) (fun _ _ => True) (p.nodes ns) ((p.reading callee).nodes ns)
  | [], _ => .of_pure trivial
  | first :: rest, h => by
      rw [nodesExprs, List.forall_mem_append] at h
      exact (node_related first h.1).bind (fun _ _ _ => nodes_related rest h.2)

end

end Pass

end Graph
end Zdeceptron
