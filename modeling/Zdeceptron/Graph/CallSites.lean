import Zdeceptron.Graph.Reached
import Zdeceptron.Graph.ViewWalks

/-!
# The calls of a member

The split finds a call wherever the walk of the information flow does.
-/

namespace Zdeceptron
namespace Graph

section Sites

variable {hir : Hir} {d : DefId} {locals : List LocalId}

def Called (hir : Hir) (d : DefId) (exprs : List Expr) : Prop :=
  ∃ e ∈ exprs, .call d ∈ exprSites hir e

@[simp] theorem called_nil : ¬ Called hir d [] := by
  rintro ⟨_, h, _⟩
  exact List.not_mem_nil h

@[simp] theorem called_cons {e : Expr} {exprs : List Expr} :
    Called hir d (e :: exprs) ↔ .call d ∈ exprSites hir e ∨ Called hir d exprs := by
  simp only [Called, List.mem_cons, exists_eq_or_imp]

@[simp] theorem called_append {exprs others : List Expr} :
    Called hir d (exprs ++ others) ↔ Called hir d exprs ∨ Called hir d others := by
  simp only [Called, List.mem_append, or_and_right, exists_or]

theorem signal_of_kind {kind : DefKind} (hkind : hir.kind d = some kind)
    (h : ∀ signal, kind ≠ .signal signal) : hir.signal d = none := by
  unfold Hir.signal
  rw [hkind]
  cases kind with
  | signal signal => exact absurd rfl (h signal)
  | _ => rfl

theorem signal_of_call {e : Expr} (h : .call d ∈ exprSites hir e) : hir.signal d = none := by
  obtain ⟨found, -, hown⟩ := (mem_exprSites_iff e).mp h
  cases found with
  | call callee args =>
      cases callee with
      | def_ other =>
          simp only [ownSites, callSites] at hown
          split at hown
          · cases List.mem_singleton.mp hown
            exact signal_of_kind ‹_› (fun _ => DefKind.noConfusion)
          · cases List.mem_singleton.mp hown
            exact signal_of_kind ‹_› (fun _ => DefKind.noConfusion)
          · cases List.mem_singleton.mp hown
          · exact absurd hown List.not_mem_nil
      | _ => exact absurd hown List.not_mem_nil
  | ofCall callee id operand =>
      cases callee with
      | def_ other =>
          simp only [ownSites, ofCallSites] at hown
          split at hown
          · cases List.mem_singleton.mp hown
            exact signal_of_kind ‹_› (fun _ => DefKind.noConfusion)
          · cases List.mem_singleton.mp hown
          · exact absurd hown List.not_mem_nil
      | _ => exact absurd hown List.not_mem_nil
  | ref id res =>
      cases res with
      | def_ other =>
          simp only [ownSites, refSites] at hown
          split at hown
          · cases List.mem_singleton.mp hown
          · exact absurd hown List.not_mem_nil
      | _ => exact absurd hown List.not_mem_nil
  | _ => simp [ownSites] at hown

theorem call_notMem_placeSites (op : MutOp) (place : Place) :
    .call d ∉ placeSites hir locals op place := by
  unfold placeSites
  intro h
  split at h
  · split at h
    · cases List.mem_singleton.mp h
    · cases List.mem_singleton.mp h
  · split at h
    · exact List.not_mem_nil h
    · cases List.mem_singleton.mp h
  · exact List.not_mem_nil h
  · cases List.mem_singleton.mp h
  · cases List.mem_singleton.mp h

theorem call_mem_blockSites (body : Block) :
    .call d ∈ blockSites hir locals body ↔ Called hir d (blockExprs body) := by
  rw [mem_blockSites]
  constructor
  · rintro (hexpr | ⟨m, -, hplace⟩)
    · exact hexpr
    · exact absurd hplace (call_notMem_placeSites m.op m.place)
  · exact .inl

theorem call_notMem_boundSites (res : Res) (args : List (Arg Expr)) :
    .call d ∉ boundSites hir res args := by
  unfold boundSites
  intro h
  split at h
  · split at h
    · cases List.mem_singleton.mp h
    · exact List.not_mem_nil h
  · exact List.not_mem_nil h

theorem call_notMem_targetSites (target : HandlerTarget) : .call d ∉ targetSites target := by
  intro h
  cases target with
  | element => exact List.not_mem_nil h
  | document key => cases List.mem_singleton.mp h

theorem call_mem_localSites (signals : List LocalSignal) :
    .call d ∈ localSites hir signals ↔ Called hir d (signals.map LocalSignal.init) := by
  induction signals with
  | nil => simp [localSites]
  | cons signal signals ih => simp [localSites, ih]

theorem call_mem_argSites (args : List (Arg Expr)) :
    .call d ∈ argSites hir args ↔ Called hir d (args.map Arg.value) := by
  rw [mem_argSites]
  simp [Called]

mutual

theorem call_mem_nodeSites (locals : List LocalId) : (n : Node) →
    (.call d ∈ (nodeSites hir locals n).1 ↔ Called hir d (nodeExprs n))
  | .element e => call_mem_elementSites locals e
  | .each _ _ iter body => by
      simp [nodeSites, nodeExprs, call_mem_nodesSites locals body]
  | .when _ scrutinee arms => by
      simp [nodeSites, nodeExprs, call_mem_nodeArmSites locals arms]
  | .ifThen _ cond then_ none => by
      simp [nodeSites, nodeExprs, elseExprs, call_mem_nodesSites locals then_]
  | .ifThen _ cond then_ (some otherwise) => by
      simp [nodeSites, nodeExprs, elseExprs, call_mem_nodesSites locals then_,
        call_mem_nodesSites _ otherwise]
  | .handler target body => by
      simp [nodeSites, nodeExprs, call_notMem_targetSites, call_mem_blockSites]
  | .children => by simp [nodeSites, nodeExprs]
  | .scope signals body => by
      simp [nodeSites, nodeExprs, call_mem_localSites, call_mem_nodesSites _ body]

theorem call_mem_elementSites (locals : List LocalId) : (e : Element) →
    (.call d ∈ (elementSites hir locals e).1 ↔ Called hir d (elementExprs e))
  | .mk _ res args children _ => by
      simp [elementSites, elementExprs, call_notMem_boundSites, call_mem_argSites,
        call_mem_nodesSites locals children]

theorem call_mem_nodeArmSites (locals : List LocalId) : (arms : List NodeArm) →
    (.call d ∈ (nodeArmSites hir locals arms).1 ↔ Called hir d (nodeArmExprs arms))
  | [] => by simp [nodeArmSites, nodeArmExprs]
  | .mk _ _ (.show_ element) :: arms => by
      simp [nodeArmSites, nodeArmExprs, nodeArmBodyExprs, call_mem_elementSites locals element,
        call_mem_nodeArmSites _ arms]
  | .mk _ _ (.nodes nodes) :: arms => by
      simp [nodeArmSites, nodeArmExprs, nodeArmBodyExprs, call_mem_nodesSites locals nodes,
        call_mem_nodeArmSites _ arms]

theorem call_mem_nodesSites (locals : List LocalId) : (ns : List Node) →
    (.call d ∈ (nodesSites hir locals ns).1 ↔ Called hir d (nodesExprs ns))
  | [] => by simp [nodesSites, nodesExprs]
  | node :: nodes => by
      simp [nodesSites, nodesExprs, call_mem_nodeSites locals node, call_mem_nodesSites _ nodes]

end

def walkedExprs (hir : Hir) (id : DefId) : List Expr :=
  match hir.kind id with
  | some (.signal signal) =>
      signal.init :: (signal.step.toList ++ (signal.schedule.map blockExprs).getD [])
  | some (.function function) => blockExprs function.body
  | some (.release release) => blockExprs release.body
  | some (.view nodes) => nodesExprs nodes
  | _ => []

theorem call_mem_sitesOf (id : DefId) :
    .call d ∈ sitesOf hir id ↔ Called hir d (walkedExprs hir id) := by
  unfold sitesOf walkBody walkedExprs
  cases hkind : hir.kind id with
  | none => simp
  | some kind =>
      cases kind with
      | signal signal =>
          cases hstep : signal.step <;> cases hschedule : signal.schedule <;>
            simp [hstep, hschedule, optionSites, call_mem_blockSites]
      | function function => exact call_mem_blockSites function.body
      | release release => exact call_mem_blockSites release.body
      | view nodes => exact call_mem_nodesSites [] nodes
      | _ => simp

theorem signal_of_call_mem {id : DefId} (h : .call d ∈ sitesOf hir id) : hir.signal d = none := by
  obtain ⟨e, -, he⟩ := (call_mem_sitesOf id).mp h
  exact signal_of_call he

end Sites

end Graph
end Zdeceptron
