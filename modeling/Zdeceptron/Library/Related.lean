import Mathlib.Data.List.Forall2

/-!
# Two computations over a state, side by side

Two computations are related when, from related states, they give related values and leave
related states.  One computation keeps a part of the state when it leaves that part alone.
-/

namespace Library

section Related

variable {σ σ' α α' β β' : Type} {S : σ → σ' → Prop} {A : α → α' → Prop} {B : β → β' → Prop}

/-- From related states, related values and related states. -/
def Related (S : σ → σ' → Prop) (A : α → α' → Prop) (m : StateM σ α) (m' : StateM σ' α') :
    Prop :=
  ∀ ⦃s s'⦄, S s s' → A (m.run s).1 (m'.run s').1 ∧ S (m.run s).2 (m'.run s').2

namespace Related

theorem of_pure {a : α} {a' : α'} (h : A a a') :
    Related S A (pure a : StateM σ α) (pure a' : StateM σ' α') :=
  fun _ _ hs => ⟨h, hs⟩

theorem bind {m : StateM σ α} {m' : StateM σ' α'} {f : α → StateM σ β} {f' : α' → StateM σ' β'}
    (hm : Related S A m m') (hf : ∀ a a', A a a' → Related S B (f a) (f' a')) :
    Related S B (m >>= f) (m' >>= f') := by
  intro s s' hs
  obtain ⟨ha, hs⟩ := hm hs
  exact hf _ _ ha hs

theorem of_get : Related S S (get : StateM σ σ) (get : StateM σ' σ') :=
  fun _ _ hs => ⟨hs, hs⟩

theorem of_modify {f : σ → σ} {f' : σ' → σ'} (h : ∀ s s', S s s' → S (f s) (f' s')) :
    Related S (fun _ _ => True) (modify f : StateM σ Unit) (modify f' : StateM σ' Unit) :=
  fun s s' hs => ⟨trivial, h s s' hs⟩

end Related

end Related

section Keeps

variable {σ γ α β : Type} {v : σ → γ}

def Keeps (v : σ → γ) (m : StateM σ α) : Prop := ∀ s, v (m.run s).2 = v s

namespace Keeps

theorem of_pure (a : α) : Keeps v (pure a : StateM σ α) := fun _ => rfl

theorem of_get : Keeps v (get : StateM σ σ) := fun _ => rfl

theorem of_modify {f : σ → σ} (h : ∀ s, v (f s) = v s) : Keeps v (modify f : StateM σ Unit) := h

theorem bind {m : StateM σ α} {f : α → StateM σ β} (hm : Keeps v m) (hf : ∀ a, Keeps v (f a)) :
    Keeps v (m >>= f) :=
  fun s => (hf _ _).trans (hm s)

end Keeps

end Keeps

end Library
