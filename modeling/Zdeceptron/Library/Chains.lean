import Mathlib.Data.List.Basic
import Mathlib.Order.Nat

/-!
# Chains of changes that are made when they are read

An object is plain, or a link: a change to the object it is linked to, which is only made when
the link is forced.  A forced link remembers the plain object it stands for, and may forget
what it was linked to.
-/

namespace Library

section Chains

variable {P L : Type*}

/-- An object: plain, or a change to another one, with the plain object it was forced to. -/
inductive Node (P L : Type*)
  | plain (content : P)
  | link (base : Option Nat) (item : L) (flat : Option Nat)

abbrev Heap (P L : Type*) := List (Node P L)

namespace Heap

def content (h : Heap P L) (a : Nat) : Option P :=
  match h[a]? with
  | some (.plain p) => some p
  | some (.link _ _ (some f)) =>
      match h[f]? with
      | some (.plain p) => some p
      | _ => none
  | _ => none

/-- The changes of the unforced links from an object on, newest first, and what is below
them. -/
def walk (h : Heap P L) : Nat → Nat → Option (List L × Nat)
  | 0, _ => none
  | fuel + 1, a =>
      match h[a]? with
      | some (.link (some base) item none) =>
          (h.walk fuel base).map (fun below => (item :: below.1, below.2))
      | some (.link none _ none) => none
      | some _ => some ([], a)
      | none => none

/-- The plain object an object stands for, made now if it has not been made before.  `drops`
says whether a forced link forgets its base. -/
def force (apply : P → L → P) (drops : Bool) (h : Heap P L) (a : Nat) :
    Option (Nat × Heap P L) :=
  match h[a]? with
  | some (.plain _) => some (a, h)
  | some (.link _ _ (some f)) => some (f, h)
  | some (.link base item none) =>
      (h.walk (h.length + 1) a).bind (fun below =>
        (h.content below.2).map (fun p =>
          (h.length, (h ++ [Node.plain (below.1.reverse.foldl apply p)]).set a
            (.link (if drops then none else base) item (some h.length)))))
  | none => none

def alloc (h : Heap P L) (node : Node P L) : Nat × Heap P L := (h.length, h ++ [node])

def Keeps (h h' : Heap P L) : Prop :=
  ∀ (a : Nat) (p : P), h[a]? = some (.plain p) → h'[a]? = some (.plain p)

theorem Keeps.refl (h : Heap P L) : h.Keeps h := fun _ _ hp => hp

theorem keeps_alloc (h : Heap P L) (node : Node P L) : h.Keeps (h.alloc node).2 := by
  intro a p hp
  obtain ⟨ha, -⟩ := List.getElem?_eq_some_iff.mp hp
  exact (List.getElem?_append_left ha).trans hp

end Heap

section Denotation

variable (apply : P → L → P)

def Stands (h : Heap P L) (den : List P) (a : Nat) : Node P L → Prop
  | .plain p => den[a]? = some p
  | .link _ _ (some f) => ∃ p, den[a]? = some p ∧ h[f]? = some (.plain p)
  | .link base item none =>
      ∃ b p, base = some b ∧ b < a ∧ den[b]? = some p ∧ den[a]? = some (apply p item)

structure Denotes (h : Heap P L) (den : List P) : Prop where
  length : h.length = den.length
  stands : ∀ (a : Nat) (node : Node P L), h[a]? = some node → Stands apply h den a node

variable {apply} {h : Heap P L} {den : List P} {a : Nat} {p : P}

theorem denotes_nil : Denotes apply ([] : Heap P L) [] :=
  ⟨rfl, fun a node h => by cases h⟩

theorem Denotes.node (hden : Denotes apply h den) (ha : den[a]? = some p) :
    ∃ node, h[a]? = some node := by
  obtain ⟨hlt, -⟩ := List.getElem?_eq_some_iff.mp ha
  exact ⟨h.get ⟨a, hden.length ▸ hlt⟩, List.getElem?_eq_getElem _⟩

theorem walk_spec (hden : Denotes apply h den) {fuel : Nat} (hfuel : a < fuel)
    (ha : den[a]? = some p) :
    ∃ items below q, h.walk fuel a = some (items, below) ∧ h.content below = some q ∧
      items.reverse.foldl apply q = p := by
  induction fuel generalizing a p with
  | zero => exact absurd hfuel (Nat.not_lt_zero a)
  | succ fuel ih =>
      obtain ⟨node, hnode⟩ := hden.node ha
      have hstands := hden.stands a node hnode
      cases node with
      | plain q =>
          obtain rfl := Option.some.inj (hstands.symm.trans ha)
          refine ⟨[], a, q, ?_, ?_, rfl⟩
          · rw [Heap.walk, hnode]
          · rw [Heap.content, hnode]
      | link base item flat =>
          cases flat with
          | some f =>
              obtain ⟨q, hq, hf⟩ := hstands
              obtain rfl := Option.some.inj (hq.symm.trans ha)
              refine ⟨[], a, q, ?_, ?_, rfl⟩
              · cases base <;> simp only [Heap.walk, hnode]
              · simp only [Heap.content, hnode, hf]
          | none =>
              obtain ⟨b, q, rfl, hb, hq, happly⟩ := hstands
              obtain rfl := Option.some.inj (happly.symm.trans ha)
              obtain ⟨items, below, r, hwalk, hcontent, hfold⟩ :=
                ih (lt_of_lt_of_le hb (Nat.le_of_lt_succ hfuel)) hq
              refine ⟨item :: items, below, r, ?_, hcontent, ?_⟩
              · simp only [Heap.walk, hnode, hwalk, Option.map_some]
              · rw [List.reverse_cons, List.foldl_append, hfold]
                rfl

theorem Denotes.alloc (hden : Denotes apply h den) {node : Node P L}
    (hnode : Stands apply (h.alloc node).2 (den ++ [p]) h.length node) :
    Denotes apply (h.alloc node).2 (den ++ [p]) := by
  refine ⟨by simp [Heap.alloc, hden.length], fun a node' ha => ?_⟩
  unfold Heap.alloc at ha
  rcases lt_trichotomy a h.length with hlt | rfl | hgt
  · rw [List.getElem?_append_left hlt] at ha
    have hstands := hden.stands a node' ha
    have hkeep : ∀ (b : Nat) (q : P), den[b]? = some q → (den ++ [p])[b]? = some q := by
      intro b q hq
      obtain ⟨hb, -⟩ := List.getElem?_eq_some_iff.mp hq
      exact (List.getElem?_append_left hb).trans hq
    cases node' with
    | plain q => exact hkeep a q hstands
    | link base item flat =>
        cases flat with
        | some f =>
            obtain ⟨q, hq, hf⟩ := hstands
            exact ⟨q, hkeep a q hq, Heap.keeps_alloc h node f q hf⟩
        | none =>
            obtain ⟨b, q, hb, hlt', hq, happly⟩ := hstands
            exact ⟨b, q, hb, hlt', hkeep b q hq, hkeep a _ happly⟩
  · rw [List.getElem?_append_right (Nat.le_refl _), Nat.sub_self] at ha
    obtain rfl := Option.some.inj ha
    exact hnode
  · rw [List.getElem?_eq_none (by simp; omega)] at ha
    cases ha

theorem Denotes.forced (hden : Denotes apply h den) {b : Option Nat} {item : L} {f : Nat}
    (hlink : h[a]? = some (.link b item none)) (ha : den[a]? = some p)
    (hf : h[f]? = some (.plain p)) (b' : Option Nat) :
    Denotes apply (h.set a (.link b' item (some f))) den ∧
      h.Keeps (h.set a (.link b' item (some f))) ∧
        (h.set a (.link b' item (some f)))[f]? = some (.plain p) := by
  have hkeeps : h.Keeps (h.set a (.link b' item (some f))) := by
    intro x q hx
    have hne : a ≠ x := by
      rintro rfl
      rw [hlink] at hx
      cases hx
    rwa [List.getElem?_set_ne hne]
  refine ⟨⟨by rw [List.length_set, hden.length], fun x node hx => ?_⟩, hkeeps, hkeeps f p hf⟩
  by_cases hax : a = x
  · rw [← hax] at hx ⊢
    obtain ⟨halt, -⟩ := List.getElem?_eq_some_iff.mp hlink
    rw [List.getElem?_set_self halt] at hx
    obtain rfl := Option.some.inj hx
    exact ⟨p, ha, hkeeps f p hf⟩
  · rw [List.getElem?_set_ne hax] at hx
    have hstands := hden.stands x node hx
    cases node with
    | plain q => exact hstands
    | link base item' flat =>
        cases flat with
        | some g =>
            obtain ⟨q, hq, hg⟩ := hstands
            exact ⟨q, hq, hkeeps g q hg⟩
        | none => exact hstands

theorem force_spec (hden : Denotes apply h den) (drops : Bool) (ha : den[a]? = some p) :
    ∃ f h' den', h.force apply drops a = some (f, h') ∧ h'[f]? = some (.plain p) ∧
      Denotes apply h' den' ∧ den <+: den' ∧ h.Keeps h' := by
  obtain ⟨node, hnode⟩ := hden.node ha
  have hstands := hden.stands a node hnode
  cases node with
  | plain q =>
      obtain rfl := Option.some.inj (hstands.symm.trans ha)
      refine ⟨a, h, den, ?_, hnode, hden, List.prefix_refl den, Heap.Keeps.refl h⟩
      rw [Heap.force, hnode]
  | link base item flat =>
      cases flat with
      | some f =>
          obtain ⟨q, hq, hf⟩ := hstands
          obtain rfl := Option.some.inj (hq.symm.trans ha)
          refine ⟨f, h, den, ?_, hf, hden, List.prefix_refl den, Heap.Keeps.refl h⟩
          rw [Heap.force, hnode]
      | none =>
          obtain ⟨halt, -⟩ := List.getElem?_eq_some_iff.mp hnode
          obtain ⟨items, below, q, hwalk, hcontent, hfold⟩ :=
            walk_spec hden (Nat.lt_succ_of_lt halt) ha
          have hmade : Denotes apply (h.alloc (.plain p)).2 (den ++ [p]) := by
            refine hden.alloc ?_
            rw [Stands, hden.length]
            exact List.getElem?_concat_length
          have hlink : (h.alloc (.plain p)).2[a]? = some (.link base item none) :=
            (List.getElem?_append_left halt).trans hnode
          have hplain : (h.alloc (.plain p)).2[h.length]? = some (.plain p) :=
            List.getElem?_concat_length
          have hap : (den ++ [p])[a]? = some p := by
            obtain ⟨hlt, -⟩ := List.getElem?_eq_some_iff.mp ha
            exact (List.getElem?_append_left hlt).trans ha
          obtain ⟨hforced, hkeeps, hstill⟩ := hmade.forced hlink hap hplain
            (if drops then none else base)
          refine ⟨h.length, _, den ++ [p], ?_, hstill, hforced, List.prefix_append _ _, ?_⟩
          · rw [Heap.force, hnode]
            simp only [hwalk, hcontent, Option.bind_some, Option.map_some, hfold]
            rfl
          · exact fun b r hb => hkeeps b r (h.keeps_alloc _ b r hb)

end Denotation

end Chains

end Library
