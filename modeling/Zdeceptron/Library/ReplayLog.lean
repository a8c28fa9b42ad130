import Mathlib.Data.List.Basic
import Mathlib.Tactic.SplitIfs

/-!
# Numbered histories and the window kept of them

A history is a list whose entries carry consecutive positions, counted from a
starting position that is not itself an entry.  A bounded window keeps the last
entries of a growing history.  A reader who has seen everything up to a
position resumes from the window when the window reaches back far enough, and
otherwise some entry after that position is gone.
-/

namespace Library

universe u

section Consecutive

variable {α : Type u} (pos : α → Nat)

/-- The entries carry the positions `start + 1, start + 2, …` in order. -/
def Consecutive : Nat → List α → Prop
  | _, [] => True
  | start, x :: xs => pos x = start + 1 ∧ Consecutive (start + 1) xs

instance decidableConsecutive :
    ∀ (start : Nat) (xs : List α), Decidable (Consecutive pos start xs)
  | _, [] => inferInstanceAs (Decidable True)
  | start, x :: xs =>
      have := decidableConsecutive (start + 1) xs
      inferInstanceAs (Decidable (pos x = start + 1 ∧ Consecutive pos (start + 1) xs))

variable {pos}

@[simp] theorem consecutive_nil (start : Nat) : Consecutive pos start [] := trivial

variable {xs : List α} {start : Nat}

variable {x : α}

@[simp] theorem consecutive_cons :
    Consecutive pos start (x :: xs) ↔ pos x = start + 1 ∧ Consecutive pos (start + 1) xs := Iff.rfl

theorem consecutive_append {xs ys : List α} :
    Consecutive pos start (xs ++ ys) ↔
      Consecutive pos start xs ∧ Consecutive pos (start + xs.length) ys := by
  induction xs generalizing start with
  | nil => simp
  | cons x xs ih =>
      simp only [List.cons_append, consecutive_cons, ih, List.length_cons, and_assoc]
      rw [show start + 1 + xs.length = start + (xs.length + 1) by omega]

theorem Consecutive.bounds (h : Consecutive pos start xs)
    (hx : x ∈ xs) : start < pos x ∧ pos x ≤ start + xs.length := by
  induction xs generalizing start with
  | nil => simp at hx
  | cons y ys ih =>
      obtain ⟨hy, hys⟩ := h
      rcases List.mem_cons.mp hx with rfl | hx
      · simp only [List.length_cons]
        omega
      · have := ih hys hx
        simp only [List.length_cons]
        omega

theorem Consecutive.pairwise_lt
    (h : Consecutive pos start xs) : xs.Pairwise (fun x y => pos x < pos y) := by
  induction xs generalizing start with
  | nil => exact List.Pairwise.nil
  | cons x xs ih =>
      obtain ⟨hx, hxs⟩ := h
      refine List.Pairwise.cons ?_ (ih hxs)
      intro y hy
      have := (hxs.bounds hy).1
      omega

theorem Consecutive.filter_after_start {start s : Nat}
    (h : Consecutive pos start xs) (hs : s ≤ start) :
    xs.filter (fun x => decide (s < pos x)) = xs := by
  rw [List.filter_eq_self]
  intro x hx
  have := (h.bounds hx).1
  simp only [decide_eq_true_eq]
  omega

theorem Consecutive.filter_after_eq_drop {start s : Nat}
    (h : Consecutive pos start xs) (hs : start ≤ s) :
    xs.filter (fun x => decide (s < pos x)) = xs.drop (s - start) := by
  induction xs generalizing start with
  | nil => simp
  | cons x xs ih =>
      obtain ⟨hx, hxs⟩ := h
      by_cases heq : s = start
      · subst heq
        have hall : Consecutive pos s (x :: xs) := ⟨hx, hxs⟩
        rw [Nat.sub_self, List.drop_zero]
        exact hall.filter_after_start (Nat.le_refl s)
      · rw [List.filter_cons_of_neg (by simp only [decide_eq_true_eq]; omega),
          ih hxs (by omega),
          show s - start = (s - (start + 1)) + 1 by omega, List.drop_succ_cons]

theorem Consecutive.mem_take_iff {start n : Nat} (h : Consecutive pos start xs)
    : x ∈ xs.take n ↔ x ∈ xs ∧ pos x ≤ start + n := by
  have hsplit := h
  rw [← List.take_append_drop n xs] at hsplit
  obtain ⟨htake, hdrop⟩ := consecutive_append.mp hsplit
  constructor
  · intro hx
    have hle := (htake.bounds hx).2
    rw [List.length_take] at hle
    exact ⟨List.mem_of_mem_take hx, by omega⟩
  · rintro ⟨hx, hle⟩
    rw [← List.take_append_drop n xs] at hx
    rcases List.mem_append.mp hx with hx | hx
    · exact hx
    · have hlt := (hdrop.bounds hx).1
      have hlong : n < xs.length := by
        by_contra hshort
        rw [List.drop_eq_nil_of_le (Nat.not_lt.mp hshort)] at hx
        exact List.not_mem_nil hx
      rw [List.length_take, Nat.min_eq_left (Nat.le_of_lt hlong)] at hlt
      exact absurd hle (Nat.not_le.mpr hlt)

theorem Consecutive.mem_drop_iff {start n : Nat} (h : Consecutive pos start xs)
    : x ∈ xs.drop n ↔ x ∈ xs ∧ start + n < pos x := by
  have hdrop := h.filter_after_eq_drop (Nat.le_add_right start n)
  rw [Nat.add_sub_cancel_left] at hdrop
  rw [← hdrop, List.mem_filter, decide_eq_true_eq]

theorem filter_split (hpair : xs.Pairwise (fun x y => pos x < pos y))
    (p : α → Bool) {a b : Nat} (hab : a ≤ b) :
    xs.filter (fun x => decide (a < pos x) && decide (pos x ≤ b) && p x) ++
        xs.filter (fun x => decide (b < pos x) && p x) =
      xs.filter (fun x => decide (a < pos x) && p x) := by
  induction xs with
  | nil => rfl
  | cons x xs ih =>
      obtain ⟨hx, hxs⟩ := List.pairwise_cons.mp hpair
      by_cases hxb : pos x ≤ b
      · have hlate : (decide (b < pos x) && p x) = false := by
          simp only [Bool.and_eq_false_iff, decide_eq_false_iff_not]
          omega
        by_cases hkeep : (decide (a < pos x) && p x) = true
        · simp only [List.filter_cons, hxb, decide_true, Bool.and_true, hkeep, hlate,
            if_true, Bool.false_eq_true, if_false, List.cons_append, ih hxs]
        · simp only [List.filter_cons, hxb, decide_true, Bool.and_true, hkeep, hlate,
            Bool.false_eq_true, if_false, ih hxs]
      · have hnone : (x :: xs).filter
            (fun x => decide (a < pos x) && decide (pos x ≤ b) && p x) = [] := by
          rw [List.filter_eq_nil_iff]
          intro y hy
          have hby : b < pos y := by
            rcases List.mem_cons.mp hy with rfl | hy
            · omega
            · have := hx y hy
              omega
          simp only [Bool.and_eq_true, decide_eq_true_eq, not_and]
          omega
        rw [hnone, List.nil_append]
        refine List.filter_congr ?_
        intro y hy
        have hby : b < pos y := by
          rcases List.mem_cons.mp hy with rfl | hy
          · omega
          · have := hx y hy
            omega
        have hay : a < pos y := by omega
        simp [hby, hay]

end Consecutive

section Window

variable {α : Type u}

/-- Append to a window of at most `capacity` entries, dropping the oldest one
of a full window. -/
def pushBounded (capacity : Nat) (window : List α) (x : α) : List α :=
  (if window.length = capacity then window.tail else window) ++ [x]

/-- `window` holds the last `capacity` entries of `history`, or all of it. -/
def IsWindow (capacity : Nat) (window history : List α) : Prop :=
  window = history.drop (history.length - capacity)

theorem isWindow_nil (capacity : Nat) : IsWindow capacity ([] : List α) [] := by
  simp [IsWindow]

theorem IsWindow.length_le {capacity : Nat} {window history : List α}
    (h : IsWindow capacity window history) : window.length ≤ capacity := by
  rw [h, List.length_drop]
  omega

theorem isWindow_pushBounded {capacity : Nat} (hcap : 0 < capacity)
    {window history : List α} (h : IsWindow capacity window history) (x : α) :
    IsWindow capacity (pushBounded capacity window x) (history ++ [x]) := by
  have hlen : window.length = history.length - (history.length - capacity) := by
    rw [h, List.length_drop]
  have hgone : history.length + 1 - capacity ≤ history.length := by omega
  unfold IsWindow pushBounded
  rw [List.length_append, List.length_singleton, List.drop_append_of_le_length hgone]
  congr 1
  split_ifs with hfull
  · rw [h, List.tail_drop]
    congr 1
    omega
  · rw [h]
    congr 1
    omega

variable {pos : α → Nat} {capacity start s : Nat} {window history : List α}

theorem resume_from_window (hcons : Consecutive pos start history)
    (hwin : IsWindow capacity window history)
    {oldest : α} (hhead : window.head? = some oldest) (hold : pos oldest ≤ s + 1) :
    window.filter (fun x => decide (s < pos x)) = history.filter (fun x => decide (s < pos x)) := by
  set gone := history.length - capacity with hgone
  have hsplit : history = history.take gone ++ window := by
    rw [hwin, List.take_append_drop]
  have htake : (history.take gone).filter (fun x => decide (s < pos x)) = [] := by
    rw [List.filter_eq_nil_iff]
    intro x hx
    rw [hsplit] at hcons
    obtain ⟨hfirst, hrest⟩ := consecutive_append.mp hcons
    have hx' := (hfirst.bounds hx).2
    have ho := (hrest.bounds (List.mem_of_mem_head? hhead)).1
    simp only [decide_eq_true_eq]
    omega
  conv_rhs => rw [hsplit]
  rw [List.filter_append, htake, List.nil_append]

theorem exists_lost_position (hcons : Consecutive pos start history)
    (hwin : IsWindow capacity window history)
    (hgap : ∀ oldest, window.head? = some oldest → s + 1 < pos oldest) :
    ∀ x ∈ window, pos x ≠ s + 1 := by
  intro x hx
  have hsuffix : window <:+ history := by
    rw [hwin]
    exact List.drop_suffix _ _
  have hpair := hcons.pairwise_lt.sublist hsuffix.sublist
  cases hw : window with
  | nil => simp [hw] at hx
  | cons oldest rest =>
      have hlt := hgap oldest (by simp [hw])
      rw [hw] at hx hpair
      rcases List.mem_cons.mp hx with rfl | hx
      · omega
      · have := List.rel_of_pairwise_cons hpair hx
        omega

end Window

end Library
