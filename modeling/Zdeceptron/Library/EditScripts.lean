import Mathlib.Data.List.Basic
import Mathlib.Tactic.SplitIfs

/-!
# Shortest edit scripts

A script turns one list into another: it keeps an element of both, drops one of the old list or
adds one of the new.  A greedy search finds one with the fewest drops and adds: `furthest d k` is
the furthest point on the diagonal `k` after `d` of them, and a run of equal elements is free.
-/

namespace Library
namespace EditScripts

section Scripts

variable {α : Type}

inductive Step
  | keep
  | drop
  | add
deriving DecidableEq

inductive Runs : List Step → List α → List α → Prop
  | done : Runs [] [] []
  | keep {s : List Step} {old new : List α} (a : α) (h : Runs s old new) :
      Runs (.keep :: s) (a :: old) (a :: new)
  | drop {s : List Step} {old new : List α} (a : α) (h : Runs s old new) :
      Runs (.drop :: s) (a :: old) new
  | add {s : List Step} {old new : List α} (a : α) (h : Runs s old new) :
      Runs (.add :: s) old (a :: new)

def changes (s : List Step) : Nat := s.countP (· ≠ .keep)

@[simp] theorem changes_nil : changes [] = 0 := rfl

variable (s : List Step)

@[simp] theorem changes_keep : changes (.keep :: s) = changes s := by
  simp [changes]

@[simp] theorem changes_drop : changes (.drop :: s) = changes s + 1 := by
  simp [changes]

@[simp] theorem changes_add : changes (.add :: s) = changes s + 1 := by
  simp [changes]

theorem Runs.changes_add_keeps {s : List Step} {old new : List α} (h : Runs s old new) :
    changes s + 2 * s.count .keep = old.length + new.length := by
  induction h with
  | done => rfl
  | keep a h ih =>
      rw [changes_keep, List.count_cons_self, List.length_cons, List.length_cons]
      omega
  | drop a h ih =>
      rw [changes_drop, List.count_cons_of_ne (by decide), List.length_cons]
      omega
  | add a h ih =>
      rw [changes_add, List.count_cons_of_ne (by decide), List.length_cons]
      omega

theorem Runs.common {s : List Step} {old new : List α} (h : Runs s old new) :
    ∃ common : List α, common.Sublist old ∧ common.Sublist new ∧ common.length = s.count .keep := by
  induction h with
  | done => exact ⟨[], List.Sublist.refl _, List.Sublist.refl _, rfl⟩
  | keep a h ih =>
      obtain ⟨common, hold, hnew, hlen⟩ := ih
      exact ⟨a :: common, hold.cons_cons a, hnew.cons_cons a, by
        rw [List.length_cons, hlen, List.count_cons_self]⟩
  | drop a h ih =>
      obtain ⟨common, hold, hnew, hlen⟩ := ih
      exact ⟨common, hold.cons a, hnew, by rw [hlen, List.count_cons_of_ne (by decide)]⟩
  | add a h ih =>
      obtain ⟨common, hold, hnew, hlen⟩ := ih
      exact ⟨common, hold, hnew.cons a, by rw [hlen, List.count_cons_of_ne (by decide)]⟩

theorem exists_runs_adds (new : List α) : ∃ s, Runs s [] new := by
  induction new with
  | nil => exact ⟨[], .done⟩
  | cons a new ih =>
      obtain ⟨s, hs⟩ := ih
      exact ⟨.add :: s, .add a hs⟩

theorem exists_runs {common old new : List α} (hold : common.Sublist old)
    (hnew : common.Sublist new) : ∃ s, Runs s old new ∧ common.length ≤ s.count .keep := by
  induction hold generalizing new with
  | slnil =>
      obtain ⟨s, hs⟩ := exists_runs_adds new
      exact ⟨s, hs, Nat.zero_le _⟩
  | cons a hold ih =>
      obtain ⟨s, hs, hlen⟩ := ih hnew
      exact ⟨.drop :: s, .drop a hs, by rw [List.count_cons_of_ne (by decide)]; exact hlen⟩
  | cons_cons a hold ih =>
      rename_i common old
      induction new with
      | nil => cases hnew
      | cons b new ihnew =>
          cases hnew with
          | cons _ hnew =>
              obtain ⟨s, hs, hlen⟩ := ihnew hnew
              exact ⟨.add :: s, .add b hs, by
                rw [List.count_cons_of_ne (by decide)]; exact hlen⟩
          | cons_cons _ hnew =>
              obtain ⟨s, hs, hlen⟩ := ih hnew
              exact ⟨.keep :: s, .keep a hs, by
                rw [List.count_cons_self, List.length_cons]; omega⟩

end Scripts

section Search

variable (same : Int → Int → Bool)

def slide : Nat → Int → Int → Int
  | 0, x, _ => x
  | fuel + 1, x, y => if same x y then slide fuel (x + 1) (y + 1) else x

def fromAbove (d k : Int) (f : Int → Int) : Bool :=
  k == -d || (k != d && decide (f (k - 1) < f (k + 1)))

def start (d k : Int) (f : Int → Int) : Int :=
  if fromAbove d k f then f (k + 1) else f (k - 1) + 1

def reach (fuel : Nat) (d k : Int) (f : Int → Int) : Int :=
  slide same fuel (start d k f) (start d k f - k)

def OnRound (d : Nat) (k : Int) : Prop := -d ≤ k ∧ k ≤ d ∧ (k + d) % 2 = 0

instance (d : Nat) (k : Int) : Decidable (OnRound d k) := inferInstanceAs (Decidable (_ ∧ _))

def furthest (fuel : Nat) : Nat → Int → Int
  | 0, k => if OnRound 0 k then reach same fuel 0 k (fun _ => 0) else 0
  | d + 1, k =>
      if OnRound (d + 1) k then reach same fuel (d + 1 : Nat) k (furthest fuel d)
      else furthest fuel d k

end Search

section Furthest

variable {same : Int → Int → Bool} {n m : Nat} {fuel : Nat}

def Inside (same : Int → Int → Bool) (n m : Nat) : Prop :=
  ∀ x y, same x y = true → 0 ≤ x ∧ x < n ∧ 0 ≤ y ∧ y < m

theorem le_slide (fuel : Nat) (x y : Int) : x ≤ slide same fuel x y := by
  induction fuel generalizing x y with
  | zero => exact Int.le_refl x
  | succ fuel ih =>
      rw [slide]
      split_ifs with h
      · have := ih (x + 1) (y + 1)
        omega
      · exact Int.le_refl x

theorem same_of_slide {x y i : Int} (hlow : x ≤ i) (hhigh : i < slide same fuel x y) :
    same i (i - (x - y)) = true := by
  induction fuel generalizing x y with
  | zero => exact absurd hhigh (Int.not_lt.mpr hlow)
  | succ fuel ih =>
      rw [slide] at hhigh
      split_ifs at hhigh with h
      · rcases Int.lt_or_eq_of_le hlow with hlt | rfl
        · have := ih (x := x + 1) (y := y + 1) hlt hhigh
          rwa [show i - (x + 1 - (y + 1)) = i - (x - y) by omega] at this
        · rwa [show x - (x - y) = y by omega]
      · omega

theorem slide_inside (hin : Inside same n m) (fuel : Nat) (x y : Int)
    (h : x < slide same fuel x y) :
    slide same fuel x y ≤ n ∧ slide same fuel x y - (x - y) ≤ m := by
  have hsame := @same_of_slide same fuel x y (slide same fuel x y - 1) (by omega) (by omega)
  have := hin _ _ hsame
  omega

theorem slide_stays (hin : Inside same n m) (fuel : Nat) (x y : Int)
    (hover : n < slide same fuel x y ∨ m < slide same fuel x y - (x - y)) :
    slide same fuel x y = x := by
  have hle := @le_slide same fuel x y
  by_contra hne
  have := slide_inside hin fuel x y (by omega)
  omega

theorem slide_ends (hin : Inside same n m) (fuel : Nat) (x y : Int) (hfuel : (n : Int) ≤ fuel + x) :
    same (slide same fuel x y) (slide same fuel x y - (x - y)) = false := by
  induction fuel generalizing x y with
  | zero =>
      rw [slide]
      by_contra h
      have := hin _ _ (by simpa using h)
      omega
  | succ fuel ih =>
      rw [slide]
      split_ifs with h
      · have := ih (x := x + 1) (y := y + 1) (by push_cast at hfuel; omega)
        rwa [show x + 1 - (y + 1) = x - y by omega] at this
      · rw [show x - (x - y) = y by omega]
        simpa using h

theorem furthest_zero : furthest same fuel 0 0 = slide same fuel 0 0 := by
  rw [furthest, if_pos (by decide), reach]
  rfl

variable {d : Nat} {k : Int}

theorem furthest_succ (h : OnRound (d + 1) k) :
    furthest same fuel (d + 1) k = reach same fuel (d + 1 : Nat) k (furthest same fuel d) := by
  rw [furthest, if_pos h]

theorem start_cases {d : Nat} {k : Int} (h : OnRound (d + 1) k) :
    (fromAbove (d + 1 : Nat) k (furthest same fuel d) = true ∧ OnRound d (k + 1) ∧
      start (d + 1 : Nat) k (furthest same fuel d) = furthest same fuel d (k + 1) ∧
      (OnRound d (k - 1) → furthest same fuel d (k - 1) < furthest same fuel d (k + 1))) ∨
    (fromAbove (d + 1 : Nat) k (furthest same fuel d) = false ∧ OnRound d (k - 1) ∧
      start (d + 1 : Nat) k (furthest same fuel d) = furthest same fuel d (k - 1) + 1 ∧
      (OnRound d (k + 1) → furthest same fuel d (k + 1) ≤ furthest same fuel d (k - 1))) := by
  obtain ⟨hlow, hhigh, hparity⟩ := h
  push_cast at hlow hhigh hparity
  rw [start]
  by_cases habove : fromAbove (d + 1 : Nat) k (furthest same fuel d) = true
  · rw [if_pos habove]
    rw [fromAbove, Bool.or_eq_true, Bool.and_eq_true, beq_iff_eq, bne_iff_ne, decide_eq_true_eq]
      at habove
    refine .inl ⟨by rw [fromAbove, Bool.or_eq_true, Bool.and_eq_true, beq_iff_eq, bne_iff_ne,
      decide_eq_true_eq]; exact habove, ?_, rfl, ?_⟩
    · push_cast at habove
      refine ⟨by omega, ?_, by omega⟩
      rcases habove with h | ⟨h, -⟩ <;> omega
    · rintro ⟨hlow', -, -⟩
      push_cast at habove
      rcases habove with h | ⟨-, h⟩
      · omega
      · exact h
  · rw [if_neg habove]
    have hfalse : fromAbove (d + 1 : Nat) k (furthest same fuel d) = false := by
      simpa using habove
    rw [fromAbove, Bool.or_eq_true, Bool.and_eq_true, beq_iff_eq, bne_iff_ne, decide_eq_true_eq]
      at habove
    push_cast at habove
    refine .inr ⟨hfalse, ⟨by omega, by omega, by omega⟩, rfl, ?_⟩
    rintro ⟨-, hhigh', -⟩
    by_contra hlt
    exact habove (.inr ⟨by omega, by omega⟩)

theorem furthest_slides {d : Nat} {k : Int} (h : OnRound (d + 1) k) :
    furthest same fuel (d + 1) k = slide same fuel (start (d + 1 : Nat) k (furthest same fuel d))
        (start (d + 1 : Nat) k (furthest same fuel d) - k) :=
  furthest_succ h

theorem furthest_nonneg {d : Nat} {k : Int} (h : OnRound d k) :
    0 ≤ furthest same fuel d k ∧ 0 ≤ furthest same fuel d k - k := by
  induction d generalizing k with
  | zero =>
      obtain ⟨hlow, hhigh, -⟩ := h
      obtain rfl : k = 0 := by omega
      have := @le_slide same fuel 0 0
      rw [furthest_zero]
      omega
  | succ d ih =>
      rw [furthest_slides h]
      have hle := @le_slide same fuel (start (d + 1 : Nat) k (furthest same fuel d))
        (start (d + 1 : Nat) k (furthest same fuel d) - k)
      rcases @start_cases same fuel _ _ h with
        ⟨-, hon, hstart, -⟩ | ⟨-, hon, hstart, -⟩
      · have := ih hon
        omega
      · have := ih hon
        omega

theorem over_old (hin : Inside same n m) (h : OnRound d k) (hover : n < furthest same fuel d k) :
    ∃ d', d = d' + 1 ∧ OnRound d' (k - 1) ∧
      furthest same fuel d k - 1 ≤ furthest same fuel d' (k - 1) := by
  induction d generalizing k with
  | zero =>
      obtain ⟨hlow, hhigh, -⟩ := h
      obtain rfl : k = 0 := by omega
      rw [furthest_zero] at hover
      have := slide_inside hin fuel 0 0 (by omega)
      omega
  | succ d ih =>
      refine ⟨d, rfl, ?_⟩
      rw [furthest_slides h] at hover ⊢
      have hstay := slide_stays hin _ _ _ (.inl hover)
      rw [hstay] at hover ⊢
      rcases @start_cases same fuel _ _ h with
        ⟨-, hon, hstart, hbest⟩ | ⟨-, hon, hstart, -⟩
      · rw [hstart] at hover ⊢
        obtain ⟨d', rfl, hon', hbefore⟩ := ih hon hover
        obtain ⟨hlow, hhigh, hparity⟩ := hon'
        have hleft : OnRound (d' + 1) (k - 1) := by
          refine ⟨?_, ?_, ?_⟩ <;> push_cast <;> omega
        refine ⟨hleft, ?_⟩
        -- The diagonal below was reached from the same point.
        rw [furthest_slides hleft]
        have hle' := @le_slide same fuel (start (d' + 1 : Nat) (k - 1) (furthest same fuel d'))
          (start (d' + 1 : Nat) (k - 1) (furthest same fuel d') - (k - 1))
        rw [show k + 1 - 1 = k - 1 + 1 by omega] at hbefore hparity
        have hon'' : OnRound d' (k - 1 + 1) := ⟨by omega, by omega, hparity⟩
        rcases @start_cases same fuel _ _ hleft with
          ⟨-, -, hstart', -⟩ | ⟨-, -, hstart', hbest'⟩
        · omega
        · have := hbest' hon''
          omega
      · exact ⟨hon, by omega⟩

theorem over_new (hin : Inside same n m) (h : OnRound d k)
    (hover : m < furthest same fuel d k - k) :
    ∃ d', d = d' + 1 ∧ OnRound d' (k + 1) ∧
      furthest same fuel d k ≤ furthest same fuel d' (k + 1) := by
  induction d generalizing k with
  | zero =>
      obtain ⟨hlow, hhigh, -⟩ := h
      obtain rfl : k = 0 := by omega
      rw [furthest_zero] at hover
      have := slide_inside hin fuel 0 0 (by omega)
      omega
  | succ d ih =>
      refine ⟨d, rfl, ?_⟩
      rw [furthest_slides h] at hover ⊢
      have hstay := slide_stays hin fuel (start (d + 1 : Nat) k (furthest same fuel d))
        (start (d + 1 : Nat) k (furthest same fuel d) - k)
        (.inr (by rw [Int.sub_sub_self]; exact hover))
      rw [hstay] at hover ⊢
      rcases @start_cases same fuel _ _ h with
        ⟨-, hon, hstart, -⟩ | ⟨-, hon, hstart, hbest⟩
      · exact ⟨hon, by omega⟩
      · rw [hstart] at hover ⊢
        obtain ⟨d', rfl, hon', hbefore⟩ := ih hon (by omega)
        obtain ⟨hlow, hhigh, hparity⟩ := hon'
        have hright : OnRound (d' + 1) (k + 1) := by
          refine ⟨?_, ?_, ?_⟩ <;> push_cast <;> omega
        refine ⟨hright, ?_⟩
        -- The diagonal above was reached from the same point.
        rw [furthest_slides hright]
        have hle' := @le_slide same fuel (start (d' + 1 : Nat) (k + 1) (furthest same fuel d'))
          (start (d' + 1 : Nat) (k + 1) (furthest same fuel d') - (k + 1))
        rw [show k - 1 + 1 = k + 1 - 1 by omega] at hbefore hparity
        have hon'' : OnRound d' (k + 1 - 1) := ⟨by omega, by omega, hparity⟩
        rcases @start_cases same fuel _ _ hright with
          ⟨-, -, hstart', hbest'⟩ | ⟨-, -, hstart', -⟩
        · have := hbest' hon''
          omega
        · omega

def Done (same : Int → Int → Bool) (n m fuel d : Nat) : Prop :=
  ∃ k, OnRound d k ∧ (n : Int) ≤ furthest same fuel d k ∧ (m : Int) ≤ furthest same fuel d k - k

theorem arrives (hin : Inside same n m) (hfirst : ∀ d' < d, ¬Done same n m fuel d')
    (hk : OnRound d k) (hold : (n : Int) ≤ furthest same fuel d k)
    (hnew : (m : Int) ≤ furthest same fuel d k - k) :
    furthest same fuel d k = n ∧ k = n - m := by
  have hn : ¬(n : Int) < furthest same fuel d k := by
    intro hover
    obtain ⟨d', rfl, hon, hle⟩ := over_old hin hk hover
    exact hfirst d' (Nat.lt_succ_self d') ⟨k - 1, hon, by omega, by omega⟩
  have hm : ¬(m : Int) < furthest same fuel d k - k := by
    intro hover
    obtain ⟨d', rfl, hon, hle⟩ := over_new hin hk hover
    exact hfirst d' (Nat.lt_succ_self d') ⟨k + 1, hon, by omega, by omega⟩
  omega

end Furthest

section Paths

variable {same : Int → Int → Bool} {n m : Nat} {fuel : Nat}

/-- The points a script comes to, with its steps so far and how many of them are changes. -/
inductive Path (same : Int → Int → Bool) (n m : Nat) : Nat → Int → Int → List Step → Prop
  | nil : Path same n m 0 0 0 []
  | keep {d : Nat} {x y : Int} {s : List Step} (h : Path same n m d x y s)
      (hsame : same x y = true) : Path same n m d (x + 1) (y + 1) (s ++ [.keep])
  | drop {d : Nat} {x y : Int} {s : List Step} (h : Path same n m d x y s) (hx : x < n) :
      Path same n m (d + 1) (x + 1) y (s ++ [.drop])
  | add {d : Nat} {x y : Int} {s : List Step} (h : Path same n m d x y s) (hy : y < m) :
      Path same n m (d + 1) x (y + 1) (s ++ [.add])

variable {s : List Step} {d : Nat} {x y : Int}

theorem Path.onRound (h : Path same n m d x y s) :
    OnRound d (x - y) := by
  induction h with
  | nil => exact ⟨by omega, by omega, by omega⟩
  | keep h hsame ih =>
      obtain ⟨hlow, hhigh, hparity⟩ := ih
      exact ⟨by omega, by omega, by omega⟩
  | drop _ _ ih | add _ _ ih =>
      obtain ⟨hlow, hhigh, hparity⟩ := ih
      refine ⟨?_, ?_, ?_⟩ <;> push_cast <;> omega

theorem Path.nonneg (h : Path same n m d x y s) :
    0 ≤ x ∧ 0 ≤ y := by
  induction h with
  | nil => exact ⟨Int.le_refl 0, Int.le_refl 0⟩
  | keep h hsame ih => omega
  | drop h hx ih => omega
  | add h hy ih => omega

theorem Path.changes (h : Path same n m d x y s) :
    EditScripts.changes s = d := by
  induction h with
  | nil => rfl
  | keep _ _ ih | drop _ _ ih | add _ _ ih => simpa [EditScripts.changes] using ih

theorem furthest_ends (hin : Inside same n m) (hfuel : n ≤ fuel) {k : Int}
    (h : OnRound d k) : same (furthest same fuel d k) (furthest same fuel d k - k) = false := by
  cases d with
  | zero =>
      obtain ⟨hlow, hhigh, -⟩ := h
      obtain rfl : k = 0 := by omega
      rw [furthest_zero]
      have := slide_ends hin fuel 0 0 (by omega)
      rwa [Int.sub_self] at this
  | succ d =>
      rw [furthest_slides h]
      have hstart : 0 ≤ start (d + 1 : Nat) k (furthest same fuel d) := by
        rcases @start_cases same fuel _ _ h with
          ⟨-, hon, hstart, -⟩ | ⟨-, hon, hstart, -⟩
        · have := @furthest_nonneg same fuel _ _ hon
          omega
        · have := @furthest_nonneg same fuel _ _ hon
          omega
      have := slide_ends hin fuel (start (d + 1 : Nat) k (furthest same fuel d))
        (start (d + 1 : Nat) k (furthest same fuel d) - k) (by omega)
      rwa [Int.sub_sub_self] at this

theorem Path.le_furthest (hin : Inside same n m) (hfuel : n ≤ fuel)
    (h : Path same n m d x y s) : x ≤ furthest same fuel d (x - y) := by
  induction h with
  | nil =>
      rw [Int.sub_self]
      exact (furthest_nonneg (by decide)).1
  | keep h hsame ih =>
      rename_i d x y s
      have hends := furthest_ends hin hfuel h.onRound
      rw [show x + 1 - (y + 1) = x - y by omega]
      by_contra hlt
      have heq : furthest same fuel d (x - y) = x := by omega
      rw [heq, Int.sub_sub_self, hsame] at hends
      cases hends
  | drop h hx ih =>
      rename_i d x y s
      have hon := h.onRound
      have hnext := (Path.drop h hx).onRound
      rw [furthest_slides hnext]
      have hle := @le_slide same fuel (start (d + 1 : Nat) (x + 1 - y) (furthest same fuel d))
        (start (d + 1 : Nat) (x + 1 - y) (furthest same fuel d) - (x + 1 - y))
      rw [show x - y = x + 1 - y - 1 by omega] at hon ih
      rcases @start_cases same fuel _ _ hnext with
        ⟨-, -, hstart, hbest⟩ | ⟨-, -, hstart, -⟩
      · have := hbest hon
        omega
      · omega
  | add h hy ih =>
      rename_i d x y s
      have hon := h.onRound
      have hnext := (Path.add h hy).onRound
      rw [furthest_slides hnext]
      have hle := @le_slide same fuel (start (d + 1 : Nat) (x - (y + 1)) (furthest same fuel d))
        (start (d + 1 : Nat) (x - (y + 1)) (furthest same fuel d) - (x - (y + 1)))
      rw [show x - y = x - (y + 1) + 1 by omega] at hon ih
      rcases @start_cases same fuel _ _ hnext with
        ⟨-, -, hstart, -⟩ | ⟨-, -, hstart, hbest⟩
      · omega
      · have := hbest hon
        omega

theorem Path.done (hin : Inside same n m) (hfuel : n ≤ fuel)
    (h : Path same n m d n m s) : Done same n m fuel d := by
  have hle := h.le_furthest hin hfuel
  exact ⟨n - m, h.onRound, hle, by omega⟩

theorem Path.keeps (h : Path same n m d x y s) (count : Nat)
    (hsame : ∀ i : Nat, i < count → same (x + i) (y + i) = true) :
    Path same n m d (x + count) (y + count) (s ++ List.replicate count .keep) := by
  induction count with
  | zero => simpa using h
  | succ count ih =>
      have hkeep := Path.keep (ih (fun i hi => hsame i (by omega))) (hsame count (by omega))
      rw [List.append_assoc, ← List.replicate_succ'] at hkeep
      have hx : x + (count : Int) + 1 = x + ((count + 1 : Nat) : Int) := by push_cast; omega
      have hy : y + (count : Int) + 1 = y + ((count + 1 : Nat) : Int) := by push_cast; omega
      rwa [hx, hy] at hkeep

theorem Path.slide (h : Path same n m d x y s) (fuel : Nat) :
    Path same n m d (EditScripts.slide same fuel x y) (EditScripts.slide same fuel x y - (x - y))
      (s ++ List.replicate (EditScripts.slide same fuel x y - x).toNat .keep) := by
  have hle := @le_slide same fuel x y
  have hkeeps := h.keeps (EditScripts.slide same fuel x y - x).toNat (by
    intro i hi
    have := @same_of_slide same fuel x y (x + i) (by omega) (by omega)
    rwa [show x + (i : Int) - (x - y) = y + i by omega] at this)
  have hx : x + ((EditScripts.slide same fuel x y - x).toNat : Int) =
      EditScripts.slide same fuel x y := by omega
  have hy : y + ((EditScripts.slide same fuel x y - x).toNat : Int) =
      EditScripts.slide same fuel x y - (x - y) := by omega
  rwa [hx, hy] at hkeeps

def lastSteps (same : Int → Int → Bool) (fuel d : Nat) (k : Int) : List Step :=
  (if fromAbove (d + 1 : Nat) k (furthest same fuel d) = true then .add else .drop) ::
    List.replicate (furthest same fuel (d + 1) k -
      start (d + 1 : Nat) k (furthest same fuel d)).toNat .keep

theorem exists_path_succ {k : Int} (h : OnRound (d + 1) k)
    (hx : furthest same fuel (d + 1) k ≤ n) (hy : furthest same fuel (d + 1) k - k ≤ m)
    (hpath : ∀ k', OnRound d k' →
      (k' = if fromAbove (d + 1 : Nat) k (furthest same fuel d) = true then k + 1 else k - 1) →
      Path same n m d (furthest same fuel d k') (furthest same fuel d k' - k') s) :
    Path same n m (d + 1) (furthest same fuel (d + 1) k) (furthest same fuel (d + 1) k - k)
      (s ++ lastSteps same fuel d k) := by
  have hslides := @furthest_slides same fuel _ _ h
  have hle := @le_slide same fuel (start (d + 1 : Nat) k (furthest same fuel d))
    (start (d + 1 : Nat) k (furthest same fuel d) - k)
  rw [← hslides] at hle
  have hstep : Path same n m (d + 1) (start (d + 1 : Nat) k (furthest same fuel d))
      (start (d + 1 : Nat) k (furthest same fuel d) - k)
      (s ++ [if fromAbove (d + 1 : Nat) k (furthest same fuel d) = true then .add
        else .drop]) := by
    rcases @start_cases same fuel _ _ h with
      ⟨habove, hon, hstart, -⟩ | ⟨habove, hon, hstart, -⟩
    · have hbefore := hpath (k + 1) hon (by rw [if_pos habove])
      have hadd := Path.add hbefore (by omega)
      rw [if_pos habove, hstart]
      rwa [show furthest same fuel d (k + 1) - (k + 1) + 1 = furthest same fuel d (k + 1) - k by
        omega] at hadd
    · have hbefore := hpath (k - 1) hon (by rw [if_neg (by rw [habove]; decide)])
      have hdrop := Path.drop hbefore (by omega)
      rw [if_neg (by rw [habove]; decide), hstart]
      rwa [show furthest same fuel d (k - 1) - (k - 1) = furthest same fuel d (k - 1) + 1 - k by
        omega] at hdrop
  have hslide := hstep.slide fuel
  rw [← hslides, Int.sub_sub_self, List.append_assoc, List.singleton_append] at hslide
  exact hslide

theorem path_zero : Path same n m 0 (furthest same fuel 0 0) (furthest same fuel 0 0 - 0)
    (List.replicate (furthest same fuel 0 0).toNat .keep) := by
  have hslide := (@Path.nil same n m).slide fuel
  rw [← furthest_zero, Int.sub_self, Int.sub_zero, List.nil_append] at hslide
  rwa [Int.sub_zero]

end Paths

section Lists

variable {α : Type} [DecidableEq α] {old new : List α}

def same (old new : List α) (x y : Int) : Bool :=
  if 0 ≤ x ∧ 0 ≤ y then
    match old[x.toNat]?, new[y.toNat]? with
    | some left, some right => decide (left = right)
    | _, _ => false
  else false

theorem same_eq_true {x y : Int} (h : same old new x y = true) :
    0 ≤ x ∧ 0 ≤ y ∧ ∃ a, old[x.toNat]? = some a ∧ new[y.toNat]? = some a := by
  rw [same] at h
  split_ifs at h with hpos
  cases hold : old[x.toNat]? with
  | none =>
      rw [hold] at h
      cases h
  | some left =>
      cases hnew : new[y.toNat]? with
      | none =>
          rw [hold, hnew] at h
          cases h
      | some right =>
          rw [hold, hnew] at h
          simp only [decide_eq_true_eq] at h
          exact ⟨hpos.1, hpos.2, left, rfl, by rw [h]⟩

theorem same_of_getElem? {x y : Nat} {a : α} (hold : old[x]? = some a) (hnew : new[y]? = some a) :
    same old new x y = true := by
  rw [same, if_pos ⟨Int.natCast_nonneg x, Int.natCast_nonneg y⟩, Int.toNat_natCast,
    Int.toNat_natCast, hold, hnew]
  simp

theorem inside_same (old new : List α) : Inside (same old new) old.length new.length := by
  intro x y h
  obtain ⟨hx, hy, a, hold, hnew⟩ := same_eq_true h
  obtain ⟨hxlt, -⟩ := List.getElem?_eq_some_iff.mp hold
  obtain ⟨hylt, -⟩ := List.getElem?_eq_some_iff.mp hnew
  omega

omit [DecidableEq α] in
theorem drop_eq_cons {l : List α} {i : Nat} {a : α} (h : l[i]? = some a) :
    l.drop i = a :: l.drop (i + 1) := by
  obtain ⟨hlt, rfl⟩ := List.getElem?_eq_some_iff.mp h
  exact List.drop_eq_getElem_cons hlt

omit [DecidableEq α] in
theorem of_drop_eq_cons {l back : List α} {i : Nat} {a : α} (h : l.drop i = a :: back) :
    l[i]? = some a ∧ i < l.length ∧ l.drop (i + 1) = back := by
  have hlt : i < l.length := by
    by_contra hge
    rw [List.drop_eq_nil_iff.mpr (by omega)] at h
    cases h
  rw [List.drop_eq_getElem_cons hlt] at h
  obtain ⟨rfl, rfl⟩ := List.cons.inj h
  exact ⟨List.getElem?_eq_getElem hlt, hlt, rfl⟩

theorem Path.runs {d : Nat} {x y : Int} {s : List Step}
    (h : Path (same old new) old.length new.length d x y s) {s' : List Step}
    (hrest : Runs s' (old.drop x.toNat) (new.drop y.toNat)) : Runs (s ++ s') old new := by
  induction h generalizing s' with
  | nil => simpa using hrest
  | keep h hsame ih =>
      rename_i d x y s
      obtain ⟨hx, hy, a, hold, hnew⟩ := same_eq_true hsame
      rw [List.append_assoc, List.singleton_append]
      refine ih ?_
      rw [show (x + 1).toNat = x.toNat + 1 by omega, show (y + 1).toNat = y.toNat + 1 by omega]
        at hrest
      rw [drop_eq_cons hold, drop_eq_cons hnew]
      exact Runs.keep a hrest
  | drop h hlt ih =>
      rename_i d x y s
      obtain ⟨hx, -⟩ := h.nonneg
      have hget := List.getElem?_eq_getElem (l := old) (i := x.toNat) (by omega)
      rw [List.append_assoc, List.singleton_append]
      refine ih ?_
      rw [show (x + 1).toNat = x.toNat + 1 by omega] at hrest
      rw [drop_eq_cons hget]
      exact Runs.drop _ hrest
  | add h hlt ih =>
      rename_i d x y s
      obtain ⟨-, hy⟩ := h.nonneg
      have hget := List.getElem?_eq_getElem (l := new) (i := y.toNat) (by omega)
      rw [List.append_assoc, List.singleton_append]
      refine ih ?_
      rw [show (y + 1).toNat = y.toNat + 1 by omega] at hrest
      rw [drop_eq_cons hget]
      exact Runs.add _ hrest

theorem Path.of_runs {d x y : Nat} {s s' : List Step}
    (h : Path (same old new) old.length new.length d x y s) (hx : x ≤ old.length)
    (hy : y ≤ new.length) (hrest : Runs s' (old.drop x) (new.drop y)) :
    Path (same old new) old.length new.length (d + EditScripts.changes s') old.length new.length
      (s ++ s') := by
  generalize hold : old.drop x = front at hrest
  generalize hnew : new.drop y = back at hrest
  induction hrest generalizing d x y s with
  | done =>
      have hlen := List.drop_eq_nil_iff.mp hold
      have hlen' := List.drop_eq_nil_iff.mp hnew
      obtain rfl : x = old.length := by omega
      obtain rfl : y = new.length := by omega
      simpa using h
  | keep a hrest ih =>
      obtain ⟨hget, hlt, hold'⟩ := of_drop_eq_cons hold
      obtain ⟨hget', hlt', hnew'⟩ := of_drop_eq_cons hnew
      have hnext := ih (x := x + 1) (y := y + 1)
        (by push_cast; exact Path.keep h (same_of_getElem? hget hget')) hlt hlt' hold' hnew'
      rwa [List.append_assoc, List.singleton_append, ← changes_keep] at hnext
  | drop a hrest ih =>
      obtain ⟨-, hlt, hold'⟩ := of_drop_eq_cons hold
      have hnext := ih (x := x + 1) (by push_cast; exact Path.drop h (by omega)) hlt hy hold' hnew
      rwa [List.append_assoc, List.singleton_append, Nat.add_assoc, Nat.add_comm 1,
        ← changes_drop] at hnext
  | add a hrest ih =>
      obtain ⟨-, hlt, hnew'⟩ := of_drop_eq_cons hnew
      have hnext := ih (y := y + 1) (by push_cast; exact Path.add h (by omega)) hx hlt hold hnew'
      rwa [List.append_assoc, List.singleton_append, Nat.add_assoc, Nat.add_comm 1,
        ← changes_add] at hnext

theorem Runs.found {s : List Step} (h : Runs s old new) {fuel : Nat} (hfuel : old.length ≤ fuel) :
    Done (same old new) old.length new.length fuel (changes s) := by
  have hpath := @Path.of_runs _ _ old new _ 0 0 _ s Path.nil (Nat.zero_le _) (Nat.zero_le _) h
  rw [Nat.zero_add] at hpath
  exact hpath.done (inside_same old new) hfuel

end Lists

end EditScripts
end Library
