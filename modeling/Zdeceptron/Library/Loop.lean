import Mathlib.Logic.Function.Basic
import Mathlib.Order.Basic

/-!
# Loops

A loop runs a body that fails, leaves the loop, or goes on from a new state.  The loop
itself gives `none` where the body fails or the loop does not end.
-/

namespace Library

structure Loop (σ : Type) where
  body : σ → Option (Option σ)

def Loop.run {σ : Type} (l : Loop σ) (s : σ) : Option σ :=
  match l.body s with
  | none => none
  | some none => some s
  | some (some s') => l |>.run s'
partial_fixpoint

variable {σ : Type} {body : σ → Option (Option σ)}

def loop (body : σ → Option (Option σ)) (s : σ) : Option σ := Loop.run ⟨body⟩ s

theorem loop_done {s : σ} (h : body s = some none) : loop body s = some s := by
  rw [loop, Loop.run.eq_def]
  simp only [h]

theorem loop_next {s s' : σ} (h : body s = some (some s')) : loop body s = loop body s' := by
  rw [loop, Loop.run.eq_def]
  simp only [h]
  rfl

theorem loop_fail {s : σ} (h : body s = none) : loop body s = none := by
  rw [loop, Loop.run.eq_def]
  simp only [h]

/-- A loop whose body does not fail under an invariant, keeps it and makes a measure smaller
ends, and leaves with the invariant. -/
theorem loop_spec {I : σ → Prop} {size : σ → Nat} (hstep : ∀ s, I s → body s = some none ∨
      ∃ s', body s = some (some s') ∧ I s' ∧ size s' < size s) {s : σ} (hs : I s) :
    ∃ t, loop body s = some t ∧ I t ∧ body t = some none := by
  induction hn : size s using Nat.strongRecOn generalizing s with
  | ind n ih =>
      subst hn
      rcases hstep s hs with hdone | ⟨s', hnext, hs', hlt⟩
      · exact ⟨s, loop_done hdone, hs, hdone⟩
      · rw [loop_next hnext]
        exact ih _ hlt hs' rfl

end Library
