import Mathlib.Order.Defs.Unbundled

/-!
# Steps that move a state forward

`Advances R m s Q`: where the step `m` returns from the state `s`, the new state is related
to `s`, and the result and the new state satisfy `Q`.
-/

namespace Library

variable {σ α β : Type} {R : σ → σ → Prop} {s : σ}

def Advances (R : σ → σ → Prop) (m : StateT σ Option α) (s : σ) (Q : α → σ → Prop) : Prop :=
  ∀ (a : α) (s' : σ), m s = some (a, s') → R s s' ∧ Q a s'

variable {m : StateT σ Option α}

variable {f : α → StateT σ Option β}

theorem bind_eq_some {b : β} {s'' : σ} :
    (m >>= f) s = some (b, s'') ↔ ∃ a s', m s = some (a, s') ∧ f a s' = some (b, s'') := by
  simp only [Bind.bind, StateT.bind, Option.bind_eq_some_iff, Prod.exists]

theorem Advances.imp {P Q : α → σ → Prop} (h : Advances R m s P)
    (himp : ∀ {a : α} {s' : σ}, R s s' → P a s' → Q a s') : Advances R m s Q := by
  intro a s' hm
  obtain ⟨hR, hP⟩ := h a s' hm
  exact ⟨hR, himp hR hP⟩

theorem Advances.pure {a : α} {Q : α → σ → Prop} (hR : R s s) (hQ : Q a s) :
    Advances R (pure a) s Q := by
  intro b s' hm
  cases hm
  exact ⟨hR, hQ⟩

theorem Advances.bind [IsTrans σ R] {P : α → σ → Prop} {Q : β → σ → Prop} (h : Advances R m s P)
    (hf : ∀ {a : α} {s' : σ}, R s s' → P a s' → Advances R (f a) s' Q) :
    Advances R (m >>= f) s Q := by
  intro b s'' hm
  obtain ⟨a, s', hfirst, hsecond⟩ := bind_eq_some.mp hm
  obtain ⟨hR, hP⟩ := h a s' hfirst
  obtain ⟨hR', hQ⟩ := hf hR hP b s'' hsecond
  exact ⟨IsTrans.trans _ _ _ hR hR', hQ⟩

end Library
