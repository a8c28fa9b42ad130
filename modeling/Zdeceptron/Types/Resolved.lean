import Zdeceptron.Types.Solver

/-!
# Resolved types

In a well-formed solver no variable reaches itself through the bindings.  There the
bindings have a resolution, and following them comes to an end.
-/

namespace Zdeceptron
namespace Types

open Library

namespace Solver

section WellFormed

def binds (s : Solver) (id : Nat) : Option Ty := s.bindings[id]?.join

def Scopes (s : Solver) (t : Ty) : Prop := ∀ v ∈ t.vars, v < s.bindings.length

/-- One constraint for each variable, and bindings over the variables without a cycle. -/
structure WellFormed (s : Solver) : Prop where
  lengths : s.constraints.length = s.bindings.length
  inScope : ∀ {v : Nat} {t : Ty}, s.binds v = some t → s.Scopes t
  acyclic : Ty.terms.Acyclic s.binds

/-- Neither `Unknown` nor `Nothing` occurs in the bindings. -/
def Plain (s : Solver) : Prop := ∀ {v : Nat} {t : Ty}, s.binds v = some t → t.isPlain = true

variable {s : Solver} {ρ : Nat → Ty} {t t' : Ty}

theorem Scopes.child (h : s.Scopes t) {child : Ty} (hchild : child ∈ t.children) :
    s.Scopes child := fun v hv => h v (Ty.mem_vars_of_child hchild hv)

variable {id : Nat}

theorem binds_none_of_getElem? (h : s.bindings[id]? = some none) :
    s.binds id = none := by
  rw [binds, h]
  rfl

theorem binds_some_of_getElem? (h : s.bindings[id]? = some (some t)) :
    s.binds id = some t := by
  rw [binds, h]
  rfl

theorem shallow_of_isVar (s : Solver) (h : t.isVar = false) : s.shallow t = some t := by
  rw [shallow.eq_def]
  cases t with
  | var id => cases h
  | _ => rfl

theorem shallow_free (h : s.bindings[id]? = some none) :
    s.shallow (.var id) = some (.var id) := by
  rw [shallow.eq_def]
  simp only [h]

theorem shallow_bound (h : s.bindings[id]? = some (some t)) :
    s.shallow (.var id) = s.shallow t := by
  rw [shallow.eq_def]
  simp only [h]

def Settled (s : Solver) (t : Ty) : Prop := ∀ id, t = .var id → s.bindings[id]? = some none

theorem Settled.shallow (h : s.Settled t) : s.shallow t = some t := by
  cases hvar : t.isVar with
  | true =>
      obtain ⟨id, rfl⟩ := Ty.isVar_eq_true hvar
      exact shallow_free (h id rfl)
  | false => exact s.shallow_of_isVar hvar

structure Follows (s : Solver) (t t' : Ty) : Prop where
  shallow : s.shallow t = some t'
  settled : s.Settled t'
  inScope : s.Scopes t'
  same : ∀ {σ : Nat → Ty}, Ty.terms.Solves s.binds σ → t'.subst σ = t.subst σ
  plain : s.Plain → t.isPlain = true → t'.isPlain = true

theorem Follows.of_isVar (ht : s.Scopes t) (hvar : t.isVar = false) : s.Follows t t where
  shallow := s.shallow_of_isVar hvar
  settled := by
    rintro id rfl
    cases hvar
  inScope := ht
  same _ := rfl
  plain _ h := h

theorem shallow_spec (hs : s.WellFormed) (ht : s.Scopes t) : ∃ t', s.Follows t t' := by
  cases hvar : t.isVar with
  | false => exact ⟨t, .of_isVar ht hvar⟩
  | true =>
      obtain ⟨rank, hrank⟩ := hs.acyclic
      obtain ⟨id, rfl⟩ := Ty.isVar_eq_true hvar
      clear hvar
      induction hr : rank id using Nat.strong_induction_on generalizing id with
      | h r ih =>
          subst hr
          have hlt : id < s.bindings.length := ht id (List.mem_singleton_self id)
          cases hb : s.bindings[id] with
          | none =>
              have hfree : s.bindings[id]? = some none := by
                rw [List.getElem?_eq_getElem hlt, hb]
              refine ⟨.var id, shallow_free hfree, ?_, ht, fun _ => rfl, fun _ h => h⟩
              rintro other ⟨⟩
              exact hfree
          | some bound =>
              have hbound : s.bindings[id]? = some (some bound) := by
                rw [List.getElem?_eq_getElem hlt, hb]
              have hbinds := binds_some_of_getElem? hbound
              have hnext : ∃ t', s.Follows bound t' := by
                cases hvar : bound.isVar with
                | false => exact ⟨bound, .of_isVar (hs.inScope hbinds) hvar⟩
                | true =>
                    obtain ⟨next, rfl⟩ := Ty.isVar_eq_true hvar
                    have hdown := hrank id _ hbinds next (List.mem_singleton_self next)
                    exact ih _ hdown next (hs.inScope hbinds) rfl
              obtain ⟨t', hfollows⟩ := hnext
              refine ⟨t', (shallow_bound hbound).trans hfollows.shallow, hfollows.settled,
                hfollows.inScope, ?_, ?_⟩
              · intro σ hσ
                exact (hfollows.same hσ).trans (hσ id bound hbinds).symm
              · intro hplain _
                exact hfollows.plain hplain (hplain hbinds)

end WellFormed

section Resolved

variable {s : Solver} {ρ : Nat → Ty} {t t' : Ty}

theorem WellFormed.exists_resolution (hs : s.WellFormed) :
    ∃ ρ, Ty.terms.Resolution s.binds ρ := hs.acyclic.exists_resolution

theorem vars_resolved {R : Nat → Prop} (hs : s.WellFormed) (hρ : Ty.terms.Resolution s.binds ρ)
    (hclosed : ∀ v bound, R v → s.binds v = some bound → ∀ w ∈ bound.vars, R w)
    (ht : ∀ v ∈ t.vars, R v) : ∀ v ∈ (t.subst ρ).vars, R v := by
  have hall : ∀ v, R v → ∀ u ∈ (ρ v).vars, R u := by
    intro v
    induction v using hs.acyclic.induct with
    | step v ih =>
        intro hv
        cases hbinds : s.binds v with
        | none =>
            rw [hρ.free v hbinds]
            intro u hu
            rw [List.mem_singleton.mp hu]
            exact hv
        | some bound =>
            rw [hρ.bound v bound hbinds]
            intro u hu
            obtain ⟨w, hw, hu⟩ := Ty.mem_vars_subst.mp hu
            exact ih bound hbinds w hw (hclosed v bound hv hbinds w hw) u hu
  intro u hu
  obtain ⟨v, hv, hu⟩ := Ty.mem_vars_subst.mp hu
  exact hall v (ht v hv) u hu

theorem Scopes.resolved (ht : s.Scopes t) (hs : s.WellFormed)
    (hρ : Ty.terms.Resolution s.binds ρ) : s.Scopes (t.subst ρ) :=
  vars_resolved hs hρ (fun _ _ _ hbinds => hs.inScope hbinds) ht

theorem Plain.resolved (h : s.Plain) (hs : s.WellFormed)
    (hρ : Ty.terms.Resolution s.binds ρ) (ht : t.isPlain = true) :
    (t.subst ρ).isPlain = true := by
  have hall : ∀ v, (ρ v).isPlain = true := by
    intro v
    induction v using hs.acyclic.induct with
    | step v ih =>
        cases hbinds : s.binds v with
        | none =>
            rw [hρ.free v hbinds]
            rfl
        | some bound =>
            rw [hρ.bound v bound hbinds]
            exact Ty.isPlain_subst (h hbinds) (ih bound hbinds)
  exact Ty.isPlain_subst ht (fun v _ => hall v)

theorem Settled.resolved (h : s.Settled t) (hρ : Ty.terms.Resolution s.binds ρ)
    (hvar : t.isVar = true) : t.subst ρ = t := by
  obtain ⟨id, rfl⟩ := Ty.isVar_eq_true hvar
  exact hρ.free id (binds_none_of_getElem? (h id rfl))

theorem Follows.sizeOf_child (h : s.Follows t t') (hρ : Ty.terms.Resolution s.binds ρ)
    {child : Ty} (hchild : child ∈ t'.children) :
    sizeOf (child.subst ρ) < sizeOf (t.subst ρ) := by
  rw [← h.same hρ.bound]
  refine Ty.sizeOf_child ?_
  cases hvar : t'.isVar with
  | true =>
      obtain ⟨id, rfl⟩ := Ty.isVar_eq_true hvar
      cases hchild
  | false =>
      rw [Ty.children_subst hvar]
      exact List.mem_map_of_mem hchild

theorem zonkAll_eq {params : List Ty} (h : ∀ param ∈ params, s.zonk param = some (param.subst ρ)) :
    s.zonkAll params = some (Ty.substAll ρ params) := by
  induction params with
  | nil =>
      rw [zonkAll.eq_def]
      rfl
  | cons param params ih =>
      have hparam := h param List.mem_cons_self
      have hparams := ih (fun p hp => h p (List.mem_cons_of_mem _ hp))
      rw [zonkAll.eq_def]
      simp only [hparam, hparams, Ty.substAll]
      rfl

theorem zonk_spec (hs : s.WellFormed) (hρ : Ty.terms.Resolution s.binds ρ) (ht : s.Scopes t) :
    s.zonk t = some (t.subst ρ) := by
  induction hn : sizeOf (t.subst ρ) using Nat.strong_induction_on generalizing t with
  | h n ih =>
      subst hn
      obtain ⟨t', hfollows⟩ := shallow_spec hs ht
      have hchildren : ∀ child ∈ t'.children, s.zonk child = some (child.subst ρ) := by
        intro child hchild
        exact ih _ (hfollows.sizeOf_child hρ hchild) (hfollows.inScope.child hchild) rfl
      rw [← hfollows.same hρ.bound]
      rw [zonk.eq_def, hfollows.shallow]
      cases t' with
      | var id =>
          rw [hfollows.settled.resolved hρ rfl]
          rfl
      | function params result =>
          have hparams : s.zonkAll params = some (Ty.substAll ρ params) := by
            refine zonkAll_eq ?_
            intro param hparam
            exact hchildren param (by simp [Ty.children, hparam])
          have hresult := hchildren result (by simp [Ty.children])
          simp [hparams, hresult, Ty.subst]
      | _ => simp_all [Ty.children, Ty.subst]

theorem occursAny_eq {id : Nat} {params : List Ty}
    (h : ∀ param ∈ params, s.occurs id param = some (decide (id ∈ (param.subst ρ).vars))) :
    s.occursAny id params = some (decide (id ∈ (Ty.substAll ρ params).flatMap Ty.vars)) := by
  induction params with
  | nil =>
      rw [occursAny.eq_def]
      rfl
  | cons param params ih =>
      have hparam := h param List.mem_cons_self
      have hparams := ih (fun p hp => h p (List.mem_cons_of_mem _ hp))
      rw [occursAny.eq_def]
      simp only [hparam, hparams, Ty.substAll]
      by_cases hmem : id ∈ (param.subst ρ).vars <;> simp [hmem]

theorem occurs_spec (hs : s.WellFormed) (hρ : Ty.terms.Resolution s.binds ρ) (ht : s.Scopes t)
    (id : Nat) : s.occurs id t = some (decide (id ∈ (t.subst ρ).vars)) := by
  induction hn : sizeOf (t.subst ρ) using Nat.strong_induction_on generalizing t with
  | h n ih =>
      subst hn
      obtain ⟨t', hfollows⟩ := shallow_spec hs ht
      have hchildren : ∀ child ∈ t'.children,
          s.occurs id child = some (decide (id ∈ (child.subst ρ).vars)) := by
        intro child hchild
        exact ih _ (hfollows.sizeOf_child hρ hchild) (hfollows.inScope.child hchild) rfl
      rw [← hfollows.same hρ.bound]
      rw [occurs.eq_def, hfollows.shallow]
      cases t' with
      | var other =>
          rw [hfollows.settled.resolved hρ rfl]
          simp [Ty.vars, eq_comm]
      | function params result =>
          have hparams : s.occursAny id params =
              some (decide (id ∈ (Ty.substAll ρ params).flatMap Ty.vars)) := by
            refine occursAny_eq ?_
            intro param hparam
            exact hchildren param (by simp [Ty.children, hparam])
          have hresult := hchildren result (by simp [Ty.children])
          show (do if ← s.occursAny id params then return true else s.occurs id result) = _
          rw [hparams, hresult, Ty.subst, Ty.vars, Ty.varsAll_eq_flatMap]
          by_cases hmem : id ∈ (Ty.substAll ρ params).flatMap Ty.vars
          · simp only [hmem, decide_true, List.mem_append, true_or]
            rfl
          · simp only [hmem, decide_false, List.mem_append, false_or]
            rfl
      | map key value =>
          have hkey := hchildren key (by simp [Ty.children])
          have hvalue := hchildren value (by simp [Ty.children])
          by_cases hmem : id ∈ (key.subst ρ).vars <;> simp [hkey, hvalue, Ty.subst, Ty.vars, hmem]
      | pair first second =>
          have hfirst := hchildren first (by simp [Ty.children])
          have hsecond := hchildren second (by simp [Ty.children])
          by_cases hmem : id ∈ (first.subst ρ).vars <;>
            simp [hfirst, hsecond, Ty.subst, Ty.vars, hmem]
      | _ => simp_all [Ty.children, Ty.subst, Ty.vars]

end Resolved

end Solver

end Types
end Zdeceptron
