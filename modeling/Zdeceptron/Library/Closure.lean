import Mathlib.Data.Finset.Card
import Mathlib.Data.Finset.Prod
import Mathlib.Logic.Relation
import Mathlib.Order.Bounds.Basic

/-!
# The transitive closure of a finite relation, by rounds

A round takes the sources in order and gives each of them what its targets lead to; rounds
are made until one changes nothing.
-/

namespace Library

section Saturation

variable {β : Type*} [DecidableEq β] {f : Finset β → Finset β} {within R : Finset β}

/-- `f`, up to `n` times, until it changes nothing. -/
def saturate (f : Finset β → Finset β) : Nat → Finset β → Finset β
  | 0, R => R
  | n + 1, R => if f R = R then R else saturate f n (f R)

theorem saturate_induction (P : Finset β → Prop) (hstep : ∀ R, P R → P (f R)) (n : Nat)
    (h : P R) : P (saturate f n R) := by
  induction n generalizing R with
  | zero => exact h
  | succ n ih =>
      rw [saturate]
      split_ifs
      · exact h
      · exact ih (hstep R h)

theorem saturate_fixed (hgrows : ∀ R, R ⊆ f R) (hwithin : ∀ R ⊆ within, f R ⊆ within) {n : Nat}
    (hR : R ⊆ within) (hn : within.card ≤ n + R.card) :
    f (saturate f n R) = saturate f n R := by
  induction n generalizing R with
  | zero =>
      rw [Nat.zero_add] at hn
      obtain rfl := Finset.eq_of_subset_of_card_le hR hn
      exact (hwithin R hR).antisymm (hgrows R)
  | succ n ih =>
      rw [saturate]
      split_ifs with hfixed
      · exact hfixed
      · have hgrown : R ⊂ f R := (hgrows R).ssubset_of_ne (Ne.symm hfixed)
        have hcard := Finset.card_lt_card hgrown
        exact ih (hwithin R hR) (by omega)

end Saturation

section Least

variable {α : Type*} [DecidableEq α] {admits : Finset α → α → Bool} {xs : List α}
  {R S : Finset α}

/-- `x` is taken in where the test admits it. -/
def takeIn (admits : Finset α → α → Bool) (R : Finset α) (x : α) : Finset α :=
  if !decide (x ∈ R) && admits R x then insert x R else R

/-- A round over the candidates in their order; what is taken in counts at once. -/
def takeRound (admits : Finset α → α → Bool) (xs : List α) (R : Finset α) : Finset α :=
  xs.foldl (takeIn admits) R

/-- Rounds from nothing until one changes nothing; there are no more of them than
candidates. -/
def leastClosed (admits : Finset α → α → Bool) (xs : List α) : Finset α :=
  saturate (takeRound admits xs) xs.toFinset.card ∅

def ClosedUnder (admits : Finset α → α → Bool) (xs : List α) (T : Finset α) : Prop :=
  ∀ x ∈ xs, admits T x = true → x ∈ T

theorem subset_takeIn (R : Finset α) (x : α) : R ⊆ takeIn admits R x := by
  unfold takeIn
  split_ifs
  · exact Finset.subset_insert x R
  · exact Finset.Subset.refl R

theorem mem_takeIn {x : α} (hadmits : admits R x = true) : x ∈ takeIn admits R x := by
  unfold takeIn
  split_ifs with htaken
  · exact Finset.mem_insert_self x R
  · by_contra hx
    exact htaken (by simp [hx, hadmits])

theorem takeIn_subset_insert (R : Finset α) (x : α) : takeIn admits R x ⊆ insert x R := by
  unfold takeIn
  split_ifs
  · exact Finset.Subset.refl _
  · exact Finset.subset_insert x R

theorem takeRound_induction (P : Finset α → Prop)
    (hstep : ∀ R, ∀ x ∈ xs, P R → P (takeIn admits R x)) (h : P R) :
    P (takeRound admits xs R) := by
  unfold takeRound
  induction xs generalizing R with
  | nil => exact h
  | cons x xs ih =>
      refine ih (fun S y hy => hstep S y (List.mem_cons_of_mem x hy)) ?_
      exact hstep R x List.mem_cons_self h

theorem subset_takeRound (R : Finset α) : R ⊆ takeRound admits xs R :=
  takeRound_induction (R ⊆ ·) (fun S x _ h => h.trans (subset_takeIn S x))
    (Finset.Subset.refl R)

theorem takeIn_of_takeRound {x : α} (h : takeRound admits xs R = R) (hx : x ∈ xs) :
    takeIn admits R x = R := by
  unfold takeRound at h
  induction xs with
  | nil => cases hx
  | cons first xs ih =>
      have hfirst : takeIn admits R first = R := by
        refine Finset.Subset.antisymm ?_ (subset_takeIn R first)
        have hlater : takeIn admits R first ⊆ takeRound admits xs (takeIn admits R first) :=
          subset_takeRound _
        unfold takeRound at hlater
        rw [List.foldl_cons] at h
        rwa [h] at hlater
      rw [List.foldl_cons, hfirst] at h
      rcases List.mem_cons.mp hx with rfl | hx
      · exact hfirst
      · exact ih h hx

theorem exists_admits_of_mem {x : α} (hx : x ∈ leastClosed admits xs) :
    ∃ S, admits S x = true := by
  have hround : ∀ R : Finset α, (∀ y ∈ R, ∃ S, admits S y = true) →
      ∀ y ∈ takeRound admits xs R, ∃ S, admits S y = true := by
    intro R hR
    refine takeRound_induction (fun T => ∀ y ∈ T, ∃ S, admits S y = true)
      (fun T z _ hT y hy => ?_) hR
    unfold takeIn at hy
    split_ifs at hy with htaken
    · rcases Finset.mem_insert.mp hy with rfl | hy
      · exact ⟨T, (Bool.and_eq_true_iff.mp htaken).2⟩
      · exact hT y hy
    · exact hT y hy
  exact saturate_induction (fun T => ∀ y ∈ T, ∃ S, admits S y = true) hround _
    (fun y hy => absurd hy (Finset.notMem_empty y)) x hx

theorem takeRound_leastClosed :
    takeRound admits xs (leastClosed admits xs) = leastClosed admits xs := by
  refine saturate_fixed subset_takeRound (fun R hR => ?_) (Finset.empty_subset _)
    (Nat.le_add_right _ _)
  refine takeRound_induction (· ⊆ xs.toFinset) (fun S x hx hS => ?_) hR
  refine (takeIn_subset_insert S x).trans (Finset.insert_subset ?_ hS)
  exact List.mem_toFinset.mpr hx

theorem isLeast_leastClosed
    (hmono : ∀ {S T : Finset α}, S ⊆ T → ∀ x, admits S x = true → admits T x = true) :
    IsLeast {T | ClosedUnder admits xs T} (leastClosed admits xs) := by
  constructor
  · intro x hx hadmits
    rw [← takeIn_of_takeRound takeRound_leastClosed hx]
    exact mem_takeIn hadmits
  · intro T hT
    refine saturate_induction (· ⊆ T) (fun R hR => ?_) _ (Finset.empty_subset T)
    refine takeRound_induction (· ⊆ T) (fun S x hx hS => ?_) hR
    unfold takeIn
    split_ifs with htaken
    · refine Finset.insert_subset (hT x hx (hmono hS x ?_)) hS
      exact (Bool.and_eq_true_iff.mp htaken).2
    · exact hS

end Least

section Closure

variable {α : Type*} [DecidableEq α] {R S : Finset (α × α)} {sources : List α} {a b c : α}

/-- `a` leads to what its targets lead to. -/
def extendAt (R : Finset (α × α)) (a : α) : Finset (α × α) :=
  R ∪ (R.filter (fun p => p.1 = a)).biUnion
    (fun p => (R.filter (fun q => q.1 = p.2)).image (fun q => (a, q.2)))

theorem mem_extendAt : (b, c) ∈ extendAt R a ↔
    (b, c) ∈ R ∨ b = a ∧ ∃ via, (a, via) ∈ R ∧ (via, c) ∈ R := by
  unfold extendAt
  simp only [Finset.mem_union, Finset.mem_biUnion, Finset.mem_filter, Finset.mem_image,
    Prod.exists, Prod.mk.injEq]
  grind

theorem subset_extendAt (R : Finset (α × α)) (a : α) : R ⊆ extendAt R a :=
  Finset.subset_union_left

def closeRound (sources : List α) (R : Finset (α × α)) : Finset (α × α) :=
  sources.foldl extendAt R

theorem closeRound_induction (P : Finset (α × α) → Prop)
    (hstep : ∀ R a, P R → P (extendAt R a)) (h : P R) : P (closeRound sources R) := by
  unfold closeRound
  induction sources generalizing R with
  | nil => exact h
  | cons a sources ih => exact ih (hstep R a h)

theorem subset_closeRound (sources : List α) (R : Finset (α × α)) :
    R ⊆ closeRound sources R :=
  closeRound_induction (R ⊆ ·) (fun S a h => h.trans (subset_extendAt S a)) (Finset.Subset.refl R)

theorem extendAt_of_closeRound (h : closeRound sources R = R) (ha : a ∈ sources) :
    extendAt R a = R := by
  unfold closeRound at h
  induction sources with
  | nil => cases ha
  | cons first sources ih =>
      have hfirst : extendAt R first = R := by
        refine Finset.Subset.antisymm ?_ (subset_extendAt R first)
        have hlater := subset_closeRound sources (extendAt R first)
        unfold closeRound at hlater
        rw [List.foldl_cons] at h
        rwa [h] at hlater
      rw [List.foldl_cons, hfirst] at h
      rcases List.mem_cons.mp ha with rfl | ha
      · exact hfirst
      · exact ih h ha

def pairs (R : Finset (α × α)) : Finset (α × α) := R.image Prod.fst ×ˢ R.image Prod.snd

theorem subset_pairs (R : Finset (α × α)) : R ⊆ pairs R := fun _ hp =>
  Finset.mem_product.mpr ⟨Finset.mem_image_of_mem _ hp, Finset.mem_image_of_mem _ hp⟩

theorem extendAt_subset_pairs (hS : S ⊆ pairs R) : extendAt S a ⊆ pairs R := by
  rintro ⟨b, c⟩ h
  rcases mem_extendAt.mp h with h | ⟨rfl, via, hvia, hc⟩
  · exact hS h
  · exact Finset.mem_product.mpr
      ⟨(Finset.mem_product.mp (hS hvia)).1, (Finset.mem_product.mp (hS hc)).2⟩

def transClosure (sources : List α) (R : Finset (α × α)) : Finset (α × α) :=
  saturate (closeRound sources) (pairs R).card R

theorem closeRound_transClosure (sources : List α) (R : Finset (α × α)) :
    closeRound sources (transClosure sources R) = transClosure sources R := by
  have hwithin : ∀ S ⊆ pairs R, closeRound sources S ⊆ pairs R := fun S hS =>
    closeRound_induction (· ⊆ pairs R) (fun _ _ => extendAt_subset_pairs) hS
  exact saturate_fixed (subset_closeRound sources) hwithin (subset_pairs R)
    (Nat.le_add_right _ _)

theorem subset_transClosure (sources : List α) (R : Finset (α × α)) :
    R ⊆ transClosure sources R :=
  saturate_induction (R ⊆ ·) (fun S h => h.trans (subset_closeRound sources S)) _
    (Finset.Subset.refl R)

/-- A relation of which every pair is a path of `R`. -/
def Sound (R S : Finset (α × α)) : Prop :=
  ∀ p ∈ S, Relation.TransGen (fun x y => (x, y) ∈ R) p.1 p.2

theorem transGen_of_mem (h : (a, b) ∈ transClosure sources R) :
    Relation.TransGen (fun x y => (x, y) ∈ R) a b := by
  have hextend : ∀ S x, Sound R S → Sound R (extendAt S x) := by
    rintro S x hS ⟨y, z⟩ hp
    rcases mem_extendAt.mp hp with hp | ⟨rfl, via, hvia, hz⟩
    · exact hS _ hp
    · exact (hS _ hvia).trans (hS _ hz)
  have hround : ∀ S, Sound R S → Sound R (closeRound sources S) := fun S hS =>
    closeRound_induction (Sound R) hextend hS
  exact saturate_induction (Sound R) hround _ (fun _ hp => Relation.TransGen.single hp) _ h

theorem mem_transClosure (hsources : ∀ p ∈ R, p.1 ∈ sources) :
    (a, b) ∈ transClosure sources R ↔ Relation.TransGen (fun x y => (x, y) ∈ R) a b := by
  refine ⟨transGen_of_mem, fun h => ?_⟩
  induction h using Relation.TransGen.head_induction_on with
  | single h => exact subset_transClosure _ _ h
  | @head x y h _ ih =>
      rw [← extendAt_of_closeRound (closeRound_transClosure sources R) (hsources _ h)]
      exact mem_extendAt.mpr (.inr ⟨rfl, y, subset_transClosure _ _ h, ih⟩)

end Closure

end Library
