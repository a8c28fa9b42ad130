import Mathlib.Data.List.Basic

/-!
# Machines and their runs

A machine moves from state to state under labelled events and may refuse an
event.  This file collects the two ways a property of a run is proved: an
invariant kept by every step, and an invariant kept by every step that meets a
guard.
-/

namespace Library

universe u v

structure Machine (σ : Type u) (ε : Type v) where
  step : σ → ε → Option σ

namespace Machine

variable {σ : Type u} {ε : Type v} (M : Machine σ ε)

def run : σ → List ε → Option σ
  | s, [] => some s
  | s, e :: es => (M.step s e).bind (fun s' => run s' es)

@[simp] theorem run_nil (s : σ) : M.run s [] = some s := rfl

theorem run_cons (s : σ) (e : ε) (es : List ε) :
    M.run s (e :: es) = (M.step s e).bind (fun s' => M.run s' es) := rfl

variable {es : List ε}

theorem run_cons_eq_some {s t : σ} {e : ε} :
    M.run s (e :: es) = some t ↔ ∃ s', M.step s e = some s' ∧ M.run s' es = some t := by
  rw [run_cons, Option.bind_eq_some_iff]

theorem run_append (s : σ) (es fs : List ε) :
    M.run s (es ++ fs) = (M.run s es).bind (fun s' => M.run s' fs) := by
  induction es generalizing s with
  | nil => rfl
  | cons e es ih =>
      rw [List.cons_append, run_cons, run_cons]
      cases M.step s e with
      | none => rfl
      | some s' => exact ih s'

variable {es fs : List ε}

theorem run_append_eq_some {s t : σ} :
    M.run s (es ++ fs) = some t ↔ ∃ s', M.run s es = some s' ∧ M.run s' fs = some t := by
  rw [run_append, Option.bind_eq_some_iff]

variable {I : σ → Prop}

theorem run_invariant (hstep : ∀ s e s', I s → M.step s e = some s' → I s')
    {s t : σ} (hs : I s) (hrun : M.run s es = some t) : I t := by
  induction es generalizing s with
  | nil =>
      simp only [run_nil, Option.some.injEq] at hrun
      subst hrun
      exact hs
  | cons e es ih =>
      obtain ⟨s', hse, hrun'⟩ := M.run_cons_eq_some.mp hrun
      exact ih (hstep s e s' hs hse) hrun'

/-- Every step of the run of `es` from `s` meets the guard `G`. -/
def Meets (G : σ → ε → Prop) : σ → List ε → Prop
  | _, [] => True
  | s, e :: es => G s e ∧ ∀ s', M.step s e = some s' → Meets G s' es

variable {G : σ → ε → Prop} {s : σ}

theorem meets_of_meets_append (hG : M.Meets G s (es ++ fs)) : M.Meets G s es := by
  induction es generalizing s with
  | nil => trivial
  | cons e es ih => exact ⟨hG.1, fun s' hse => ih (hG.2 s' hse)⟩

theorem run_invariant_of_meets (hstep : ∀ s e s', I s → G s e → M.step s e = some s' → I s')
    {s t : σ} (hs : I s) (hG : M.Meets G s es) (hrun : M.run s es = some t) : I t := by
  induction es generalizing s with
  | nil =>
      simp only [run_nil, Option.some.injEq] at hrun
      subst hrun
      exact hs
  | cons e es ih =>
      obtain ⟨s', hse, hrun'⟩ := M.run_cons_eq_some.mp hrun
      exact ih (hstep s e s' hs hG.1 hse) (hG.2 s' hse) hrun'

theorem run_isSome_of_meets (hstep : ∀ s e, I s → G s e → ∃ s', M.step s e = some s' ∧ I s')
    (hs : I s) (hG : M.Meets G s es) : ∃ t, M.run s es = some t := by
  induction es generalizing s with
  | nil => exact ⟨s, rfl⟩
  | cons e es ih =>
      obtain ⟨s', hse, hs'⟩ := hstep s e hs hG.1
      obtain ⟨t, hrun⟩ := ih hs' (hG.2 s' hse)
      exact ⟨t, M.run_cons_eq_some.mpr ⟨s', hse, hrun⟩⟩

theorem meets_congr {O G G' : σ → ε → Prop}
    (hstep : ∀ s e s', I s → O s e → G s e → M.step s e = some s' → I s')
    (hiff : ∀ s e, I s → (G s e ↔ G' s e)) (hs : I s)
    (hO : M.Meets O s es) : M.Meets G s es ↔ M.Meets G' s es := by
  induction es generalizing s with
  | nil => exact Iff.rfl
  | cons e es ih =>
      have hnext (hG : G s e) : (∀ s', M.step s e = some s' → M.Meets G s' es) ↔
          ∀ s', M.step s e = some s' → M.Meets G' s' es :=
        forall_congr' (fun s' => imp_congr_right (fun hse =>
          ih (hstep s e s' hs hO.1 hG hse) (hO.2 s' hse)))
      constructor
      · rintro ⟨hG, hrest⟩
        exact ⟨(hiff s e hs).mp hG, (hnext hG).mp hrest⟩
      · rintro ⟨hG', hrest⟩
        have hG := (hiff s e hs).mpr hG'
        exact ⟨hG, (hnext hG).mpr hrest⟩

theorem meets_iff_states {I P : σ → Prop} (hI : ∀ s, I s → P s)
    (hstep : ∀ s e s', I s → G s e → M.step s e = some s' → I s')
    (hguard : ∀ s e, I s → (∀ s', M.step s e = some s' → P s') → G s e) (hs : I s) :
    M.Meets G s es ↔ ∀ first rest t, es = first ++ rest → M.run s first = some t → P t := by
  constructor
  · intro hG first rest t hes hrun
    rw [hes] at hG
    exact hI t (M.run_invariant_of_meets hstep hs (M.meets_of_meets_append hG) hrun)
  · intro hP
    induction es generalizing s with
    | nil => trivial
    | cons e es ih =>
        have hG : G s e := by
          refine hguard s e hs (fun s' hse => hP [e] es s' rfl ?_)
          exact M.run_cons_eq_some.mpr ⟨s', hse, rfl⟩
        refine ⟨hG, fun s' hse => ih (hstep s e s' hs hG hse) ?_⟩
        intro first rest t hes hrun
        refine hP (e :: first) rest t (congrArg (List.cons e) hes) ?_
        exact M.run_cons_eq_some.mpr ⟨s', hse, hrun⟩

theorem meets_true (s : σ) (es : List ε) : M.Meets (fun _ _ => True) s es := by
  induction es generalizing s with
  | nil => trivial
  | cons e es ih => exact ⟨trivial, fun s' _ => ih s'⟩

theorem Meets.and {G G' : σ → ε → Prop} (h : M.Meets G s es)
    (h' : M.Meets G' s es) : M.Meets (fun s e => G s e ∧ G' s e) s es := by
  induction es generalizing s with
  | nil => trivial
  | cons e es ih => exact ⟨⟨h.1, h'.1⟩, fun s' hse => ih (h.2 s' hse) (h'.2 s' hse)⟩

theorem Meets.mono {G G' : σ → ε → Prop} (himp : ∀ s e, G s e → G' s e)
    (h : M.Meets G s es) : M.Meets G' s es := by
  induction es generalizing s with
  | nil => trivial
  | cons e es ih => exact ⟨himp s e h.1, fun s' hse => ih (h.2 s' hse)⟩

theorem Meets.mem (hsub : ∀ e ∈ es, e ∈ fs)
    (hG : M.Meets G s es) : M.Meets (fun s e => G s e ∧ e ∈ fs) s es := by
  induction es generalizing s with
  | nil => trivial
  | cons e es ih =>
      exact ⟨⟨hG.1, hsub e List.mem_cons_self⟩,
        fun s' hse => ih (fun e he => hsub e (List.mem_cons_of_mem _ he)) (hG.2 s' hse)⟩

theorem meets_rest {s t : σ}
    (hG : M.Meets G s (es ++ fs)) (hrun : M.run s es = some t) : M.Meets G t fs := by
  induction es generalizing s with
  | nil =>
      cases hrun
      exact hG
  | cons e es ih =>
      obtain ⟨s', hse, hrun'⟩ := M.run_cons_eq_some.mp hrun
      exact ih (hG.2 s' hse) hrun'

end Machine
end Library
