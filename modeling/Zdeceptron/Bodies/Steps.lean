import Zdeceptron.Bodies.Check
import Zdeceptron.Library.Advances

/-!
# What each step of the checker leaves behind

Every step moves the checker to a `Later` state.  What it has found out is stated for the
assignments `σ` that solve the final solver of a program without a report (`Completed`).
-/

namespace Zdeceptron
namespace Bodies

open Types Library

section Later

variable {choices : Choices} {c c' c'' : Checker} {t : Ty}

theorem Later.refl (hc : c.WellFormed) : Later choices c c :=
  ⟨hc, .refl hc.solver, fun h => h, fun h => .inl h⟩

theorem Later.trans (h : Later choices c c') (h' : Later choices c' c'') :
    Later choices c c'' := by
  refine ⟨h'.wellFormed, h.grows.trans h'.grows, fun herr => h.errors (h'.errors herr), ?_⟩
  intro t arms hmem
  rcases h.pending hmem with hmem | hmatched
  · exact h'.pending hmem
  · refine .inr ?_
    intro σ herr hσ
    exact hmatched (h'.errors herr) (hσ.of_extends (fun _ _ => h'.grows.binds))

instance : IsTrans Checker (Later choices) := ⟨fun _ _ _ => Later.trans⟩

theorem Later.inScope (h : Later choices c c') (ht : c.solver.Scopes t) : c'.solver.Scopes t :=
  fun v hv => (ht v hv).trans_le h.grows.length

/-- A state on the way to the end of a program without a report, solved by `σ`. -/
structure Completed (choices : Choices) (σ : Nat → Ty) (c : Checker) : Prop where
  errors : c.errors = []
  solves : Ty.terms.Solves c.solver.binds σ
  matched : ∀ {t : Ty} {arms : List PendingArm}, .when t arms ∈ c.pending →
    Matched choices σ t (arms.map PendingArm.name)

theorem Completed.of_later {σ : Nat → Ty} (h : Completed choices σ c')
    (hlater : Later choices c c') : Completed choices σ c where
  errors := hlater.errors h.errors
  solves := h.solves.of_extends (fun _ _ => hlater.grows.binds)
  matched hmem := by
    rcases hlater.pending hmem with hmem | hmatched
    · exact h.matched hmem
    · exact hmatched h.errors h.solves

/-- A type of the checker: over its variables, and plain unless there is a report. -/
structure Checker.Holds (c : Checker) (t : Ty) : Prop where
  inScope : c.solver.Scopes t
  plain : c.errors = [] → t.isPlain = true

theorem Checker.Holds.later (h : c.Holds t) (hlater : Later choices c c') : c'.Holds t :=
  ⟨hlater.inScope h.inScope, fun herr => h.plain (hlater.errors herr)⟩

theorem Checker.Holds.list (h : c.Holds t) : c.Holds (.list t) :=
  ⟨h.inScope, h.plain⟩

theorem Checker.holds_closed (hplain : t.isPlain = true) (hvars : t.vars = []) : c.Holds t := by
  refine ⟨?_, fun _ => hplain⟩
  intro v hv
  rw [hvars] at hv
  cases hv

theorem Checker.WellFormed.step (hc : c.WellFormed) {solver : Solver}
    (hgrows : c.solver.Grows solver) {errors : List Report} (herrors : errors = [] → c.errors = [])
    (hplain : errors = [] → solver.Plain) :
    Later choices c { c with solver := solver, errors := errors } := by
  have hscope : ∀ {t : Ty}, c.solver.Scopes t → solver.Scopes t :=
    fun ht v hv => (ht v hv).trans_le hgrows.length
  refine ⟨⟨hgrows.wellFormed, hplain, fun h => hscope (hc.locals h), ?_⟩, hgrows, herrors,
    fun h => .inl h⟩
  intro t arms hmem
  obtain ⟨⟨ht, htplain⟩, hbinders⟩ := hc.pending hmem
  refine ⟨⟨hscope ht, fun herr => htplain (herrors herr)⟩, ?_⟩
  intro arm harm binder hbinder
  obtain ⟨hb, hbplain⟩ := hbinders arm harm binder hbinder
  exact ⟨hscope hb, fun herr => hbplain (herrors herr)⟩

end Later

section Primitives

variable {choices : Choices} {c : Checker} {t : Ty}

theorem coded_spec (hc : c.WellFormed) (report : Report) :
    Advances (Later choices) (coded report) c (fun _ c' => c'.errors ≠ []) := by
  intro u c' h
  cases h
  refine ⟨hc.step (.refl hc.solver) ?_ ?_, by simp⟩
  · intro herr
    simp at herr
  · intro herr
    simp at herr

theorem codedIf_spec (hc : c.WellFormed) (wrong : Bool) (report : Report) :
    Advances (Later choices) (codedIf wrong report) c
      (fun _ c' => c'.errors = [] → wrong = false) := by
  cases wrong with
  | true => exact (coded_spec hc report).imp (fun _ hne herr => absurd herr hne)
  | false => exact .pure (.refl hc) (fun _ => rfl)

theorem bindLocal_spec (hc : c.WellFormed) (id : Nat) (ht : c.solver.Scopes t) :
    Advances (Later choices) (bindLocal id t) c (fun _ _ => True) := by
  intro u c' h
  cases h
  refine ⟨⟨⟨hc.solver, hc.plain, ?_, hc.pending⟩, .refl hc.solver, fun h => h,
    fun h => .inl h⟩, trivial⟩
  intro id' t' hid
  simp only [Function.update_apply] at hid
  split_ifs at hid
  · cases hid
    exact ht
  · exact hc.locals hid

theorem fresh_spec (hc : c.WellFormed) :
    Advances (Later choices) fresh c (fun t c' => c'.Holds t) := by
  intro t c' h
  unfold fresh at h
  cases hfresh : c.solver.fresh with
  | none =>
      rw [hfresh] at h
      cases h
  | some pair =>
      obtain ⟨solver, t'⟩ := pair
      rw [hfresh] at h
      cases h
      have hgrows := Solver.freshConstrained_grows hc.solver hfresh
      obtain ⟨hsolver, ht⟩ : solver = ⟨c.solver.bindings ++ [none], _⟩ ∧
          t = .var c.solver.bindings.length := by
        unfold Solver.fresh Solver.freshConstrained at hfresh
        split_ifs at hfresh
        cases hfresh
        exact ⟨rfl, rfl⟩
      have hbinds : ∀ {v : Nat} {u : Ty}, solver.binds v = some u → c.solver.binds v = some u := by
        intro v u hv
        rw [hsolver, Solver.binds] at hv
        rw [Solver.binds]
        rcases Nat.lt_trichotomy v c.solver.bindings.length with hlt | rfl | hlt
        · rwa [List.getElem?_append_left hlt] at hv
        · rw [List.getElem?_concat_length] at hv
          cases hv
        · rw [List.getElem?_eq_none (by simp; omega)] at hv
          cases hv
      refine ⟨hc.step hgrows (fun h => h) (fun herr _ _ hv => hc.plain herr (hbinds hv)), ?_⟩
      subst ht
      refine ⟨?_, fun _ => rfl⟩
      intro v hv
      obtain rfl := List.mem_singleton.mp hv
      simp [hsolver]

theorem zonk_spec (hc : c.WellFormed) (ht : c.Holds t) :
    Advances (Later choices) (zonk t) c (fun t' c' => c' = c ∧ c'.Holds t' ∧
      ∀ {σ : Nat → Ty}, Ty.terms.Solves c'.solver.binds σ → t'.subst σ = t.subst σ) := by
  intro t' c' h
  obtain ⟨ρ, hρ⟩ := hc.solver.exists_resolution
  unfold zonk at h
  rw [Solver.zonk_spec hc.solver hρ ht.inScope] at h
  cases h
  refine ⟨.refl hc, rfl, ⟨ht.inScope.resolved hc.solver hρ, ?_⟩, ?_⟩
  · exact fun herr => Solver.Plain.resolved (hc.plain herr) hc.solver hρ (ht.plain herr)
  · intro σ hσ
    exact hσ.subst_resolved hc.solver.acyclic hρ t

theorem expect_spec (hc : c.WellFormed) {found want : Ty} (hfound : c.Holds found)
    (hwant : c.Holds want) :
    Advances (Later choices) (expect found want) c (fun _ c' =>
      ∀ {σ : Nat → Ty}, Completed choices σ c' → found.subst σ = want.subst σ) := by
  intro u c' h
  obtain ⟨solver, result, hunify, houtcome⟩ :=
    Solver.unify_spec hc.solver hfound.inScope hwant.inScope
  unfold expect at h
  rw [hunify] at h
  have hplain : c.errors = [] → found.isPlain = true ∧ want.isPlain = true :=
    fun herr => ⟨hfound.plain herr, hwant.plain herr⟩
  cases result with
  | ok =>
      cases h
      refine ⟨hc.step houtcome.grows_of (fun h => h)
        (fun herr => houtcome.stays (hc.plain herr) (hplain herr)), ?_⟩
      intro σ hσ
      exact houtcome.sound (hc.plain hσ.errors) (hplain hσ.errors) rfl hσ.solves
  | error mismatch =>
      cases h
      refine ⟨hc.step houtcome.grows_of ?_ ?_, ?_⟩
      · intro herr
        simp at herr
      · intro herr
        simp at herr
      · intro σ hσ
        have herr := hσ.errors
        simp at herr

theorem defer_spec (hc : c.WellFormed) {arms : List PendingArm} (ht : c.Holds t)
    (harms : ∀ arm ∈ arms, ∀ binder ∈ arm.binders, c.Holds binder) :
    Advances (Later choices) (defer (.when t arms)) c (fun _ c' =>
      ∀ {σ : Nat → Ty}, Completed choices σ c' →
        Matched choices σ t (arms.map PendingArm.name)) := by
  intro u c' h
  cases h
  refine ⟨⟨⟨hc.solver, hc.plain, hc.locals, ?_⟩, .refl hc.solver, fun h => h, ?_⟩, ?_⟩
  · intro t' arms' hmem
    rcases List.mem_append.mp hmem with hmem | hmem
    · exact hc.pending hmem
    · cases List.mem_singleton.mp hmem
      refine ⟨⟨ht.inScope, ht.plain⟩, ?_⟩
      intro arm harm binder hbinder
      have hholds := harms arm harm binder hbinder
      exact ⟨hholds.inScope, fun herr _ => hholds.plain herr⟩
  · exact fun hmem => .inl (List.mem_append_left _ hmem)
  · exact fun hσ => hσ.matched (List.mem_append_right _ List.mem_cons_self)

end Primitives

end Bodies
end Zdeceptron
