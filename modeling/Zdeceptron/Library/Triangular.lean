import Mathlib.Data.Finset.Lattice.Fold
import Mathlib.Logic.Function.Basic

/-!
# Triangular substitutions

Bindings of variables to terms, where a term may mention variables that are bound in
turn.  When no variable reaches itself the bindings have a resolution, which every
solution of the bindings factors through.
-/

namespace Library

structure Terms (α : Type) where
  var : Nat → α
  vars : α → List Nat
  subst : (Nat → α) → α → α
  vars_var : ∀ v, vars (var v) = [v]
  subst_var : ∀ σ v, subst σ (var v) = σ v
  subst_congr : ∀ {σ τ : Nat → α} {t : α}, (∀ v ∈ vars t, σ v = τ v) → subst σ t = subst τ t
  subst_subst : ∀ (σ τ : Nat → α) (t : α),
    subst σ (subst τ t) = subst (fun v => subst σ (τ v)) t
  mem_vars_subst : ∀ {σ : Nat → α} {t : α} {u : Nat},
    u ∈ vars (subst σ t) ↔ ∃ v ∈ vars t, u ∈ vars (σ v)

namespace Terms

variable {α : Type} (T : Terms α) {binds : Nat → Option α} {ρ σ : Nat → α}

def Acyclic (binds : Nat → Option α) : Prop :=
  ∃ rank : Nat → Nat, ∀ v t, binds v = some t → ∀ u ∈ T.vars t, rank u < rank v

def Solves (binds : Nat → Option α) (σ : Nat → α) : Prop :=
  ∀ v t, binds v = some t → σ v = T.subst σ t

/-- The solution that leaves the variables that are not bound as they are. -/
structure Resolution (binds : Nat → Option α) (ρ : Nat → α) : Prop where
  bound : T.Solves binds ρ
  free : ∀ v, binds v = none → ρ v = T.var v

def round (binds : Nat → Option α) : Nat → Nat → α
  | 0, v => T.var v
  | n + 1, v =>
      match binds v with
      | some t => T.subst (round binds n) t
      | none => T.var v

variable {T}

theorem Acyclic.induct (h : T.Acyclic binds) {P : Nat → Prop}
    (step : ∀ v, (∀ t, binds v = some t → ∀ u ∈ T.vars t, P u) → P v) (v : Nat) : P v := by
  obtain ⟨rank, hrank⟩ := h
  induction hr : rank v using Nat.strong_induction_on generalizing v with
  | h r ih =>
      subst hr
      refine step v ?_
      intro t hv u hu
      exact ih (rank u) (hrank v t hv u hu) u rfl

theorem round_stable {rank : Nat → Nat}
    (hrank : ∀ v t, binds v = some t → ∀ u ∈ T.vars t, rank u < rank v) {v n m : Nat}
    (hn : rank v < n) (hm : rank v < m) : T.round binds n v = T.round binds m v := by
  induction hr : rank v using Nat.strong_induction_on generalizing v n m with
  | h r ih =>
      subst hr
      obtain ⟨n, rfl⟩ := Nat.exists_eq_add_of_lt (Nat.zero_lt_of_lt hn)
      obtain ⟨m, rfl⟩ := Nat.exists_eq_add_of_lt (Nat.zero_lt_of_lt hm)
      rw [Nat.zero_add] at hn hm ⊢
      rw [Nat.zero_add]
      rw [round, round]
      cases hv : binds v with
      | none => rfl
      | some t =>
          refine T.subst_congr ?_
          intro u hu
          have hlt := hrank v t hv u hu
          exact ih (rank u) hlt (by omega) (by omega) rfl

theorem Acyclic.exists_resolution (h : T.Acyclic binds) : ∃ ρ, T.Resolution binds ρ := by
  obtain ⟨rank, hrank⟩ := h
  refine ⟨fun v => T.round binds (rank v + 1) v, ?_, ?_⟩
  · intro v t hv
    have hround : T.round binds (rank v + 1) v = T.subst (T.round binds (rank v)) t := by
      rw [round, hv]
    refine hround.trans (T.subst_congr ?_)
    intro u hu
    exact round_stable hrank (hrank v t hv u hu) (Nat.lt_succ_self _)
  · intro v hv
    show T.round binds (rank v + 1) v = _
    rw [round, hv]

theorem Solves.subst_resolution (hacyclic : T.Acyclic binds) (hρ : T.Resolution binds ρ)
    (hσ : T.Solves binds σ) (v : Nat) : T.subst σ (ρ v) = σ v := by
  induction v using hacyclic.induct with
  | step v ih =>
      cases hv : binds v with
      | none => rw [hρ.free v hv, T.subst_var]
      | some t =>
          rw [hρ.bound v t hv, T.subst_subst, hσ v t hv]
          exact T.subst_congr (fun u hu => ih t hv u hu)

theorem Solves.subst_resolved (hacyclic : T.Acyclic binds) (hρ : T.Resolution binds ρ)
    (hσ : T.Solves binds σ) (t : α) : T.subst σ (T.subst ρ t) = T.subst σ t := by
  rw [T.subst_subst]
  exact T.subst_congr (fun v _ => hσ.subst_resolution hacyclic hρ v)

theorem Solves.of_extends {binds' : Nat → Option α}
    (h : ∀ v t, binds v = some t → binds' v = some t) (hσ : T.Solves binds' σ) :
    T.Solves binds σ :=
  fun v t hv => hσ v t (h v t hv)

theorem Acyclic.bind (h : T.Acyclic binds) (hρ : T.Resolution binds ρ) {v : Nat} {t : α}
    (hfree : binds v = none) (hoccurs : v ∉ T.vars (T.subst ρ t)) :
    T.Acyclic (Function.update binds v (some t)) := by
  obtain ⟨rank, hrank⟩ := h
  obtain ⟨bound, hbound⟩ : ∃ bound, ∀ u ∈ T.vars t, rank u < bound := by
    refine ⟨(T.vars t).toFinset.sup rank + 1, ?_⟩
    intro u hu
    exact Nat.lt_succ_of_le (Finset.le_sup (List.mem_toFinset.mpr hu))
  classical
  -- whatever reaches the variable moves above the term it is bound to
  refine ⟨fun u => if v ∈ T.vars (ρ u) then rank u + bound else rank u, ?_⟩
  intro w s hw u hu
  by_cases hwv : w = v
  · subst hwv
    rw [Function.update_self] at hw
    obtain rfl := Option.some.inj hw
    have hu' : w ∉ T.vars (ρ u) := fun hmem => hoccurs (T.mem_vars_subst.mpr ⟨u, hu, hmem⟩)
    have hw' : w ∈ T.vars (ρ w) := by
      rw [hρ.free w hfree, T.vars_var]
      exact List.mem_singleton_self w
    have hlt := hbound u hu
    simp only [hu', hw', if_true, if_false]
    omega
  · rw [Function.update_of_ne hwv] at hw
    have hlt := hrank w s hw u hu
    have hup : v ∈ T.vars (ρ u) → v ∈ T.vars (ρ w) := by
      intro hmem
      rw [hρ.bound w s hw]
      exact T.mem_vars_subst.mpr ⟨u, hu, hmem⟩
    by_cases hu' : v ∈ T.vars (ρ u)
    · simp only [hu', hup hu', if_true]
      omega
    · simp only [hu', if_false]
      split
      · omega
      · exact hlt

end Terms

end Library
