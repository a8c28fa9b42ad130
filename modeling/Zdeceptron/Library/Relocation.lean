import Mathlib.Data.List.Nodup
import Mathlib.Data.List.Perm.Basic

/-!
# Moving an element in front of another

`insertBefore` on a list of distinct elements takes an element out of the list, if
it is there, and puts it in front of another one or at the end.  Whatever else the
list holds keeps its order, so what an element lands next to can be read off any
part of the list that contains its new neighbour.
-/

namespace Library

universe u

variable {α : Type u} [DecidableEq α]

section Insert

/-- Put `a` in front of `c`. -/
def putBefore (a c : α) : List α → List α
  | [] => []
  | x :: xs => if x = c then a :: x :: xs else x :: putBefore a c xs

/-- Take `a` out and put it in front of `ref`, or at the end.  Fails when `ref` is
not there. -/
def insertBefore (xs : List α) (a : α) : Option α → Option (List α)
  | none => some (xs.erase a ++ [a])
  | some c =>
      if c ∈ xs then
        if c = a then some xs else some (putBefore a c (xs.erase a))
      else none

/-- Put elements in front of `ref` one after another. -/
def insertAll (xs : List α) (ref : Option α) : List α → Option (List α)
  | [] => some xs
  | a :: as => (insertBefore xs a ref).bind (fun ys => insertAll ys ref as)

variable {a c : α} {xs ys : List α} {p : α → Bool}

theorem putBefore_append (X Y : List α) (h : c ∉ X) :
    putBefore a c (X ++ c :: Y) = X ++ a :: c :: Y := by
  induction X with
  | nil => simp [putBefore]
  | cons x X ih =>
      have hx : x ≠ c := fun e => h (by simp [e])
      rw [List.cons_append, putBefore, if_neg hx, ih (fun hc => h (List.mem_cons_of_mem _ hc))]
      rfl

theorem putBefore_perm (h : c ∈ xs) : (putBefore a c xs).Perm (a :: xs) := by
  induction xs with
  | nil => cases h
  | cons x xs ih =>
      rw [putBefore]
      by_cases hx : x = c
      · rw [if_pos hx]
      · rw [if_neg hx]
        have hc := ih ((List.mem_cons.mp h).resolve_left (Ne.symm hx))
        exact (hc.cons x).trans (List.Perm.swap a x xs)

theorem filter_putBefore_out (ha : p a = false) (xs : List α) :
    (putBefore a c xs).filter p = xs.filter p := by
  induction xs with
  | nil => rfl
  | cons x xs ih =>
      rw [putBefore]
      split
      · rw [List.filter_cons_of_neg (by simp [ha])]
      · rw [List.filter_cons, List.filter_cons, ih]

theorem filter_putBefore (hc : p c = true) (ha : a ∉ xs) (hca : c ≠ a) :
    (putBefore a c xs).filter (fun x => p x || x == a) = putBefore a c (xs.filter p) := by
  induction xs with
  | nil => rfl
  | cons x xs ih =>
      have hxa : (x == a) = false := by
        simpa using fun e : x = a => ha (by simp [e])
      have hrest : xs.filter (fun x => p x || x == a) = xs.filter p := by
        refine List.filter_congr ?_
        intro y hy
        have hya : (y == a) = false := by
          simpa using fun e : y = a => ha (by simp [← e, hy])
        rw [hya, Bool.or_false]
      have ih := ih (fun h => ha (List.mem_cons_of_mem _ h))
      rw [putBefore]
      by_cases hx : x = c
      · subst hx
        rw [if_pos rfl, List.filter_cons_of_pos (by simp), List.filter_cons_of_pos (by simp [hc]),
          List.filter_cons_of_pos hc, putBefore, if_pos rfl, hrest]
      · rw [if_neg hx, List.filter_cons, List.filter_cons, hxa, Bool.or_false, ih]
        split
        · rw [putBefore, if_neg hx]
        · rfl

theorem filter_erase_out (ha : p a = false) (xs : List α) :
    (xs.erase a).filter p = xs.filter p := by
  induction xs with
  | nil => rfl
  | cons x xs ih =>
      by_cases hx : x = a
      · subst hx
        rw [List.erase_cons_head, List.filter_cons_of_neg (by simp [ha])]
      · rw [List.erase_cons_tail (by simpa using hx), List.filter_cons, List.filter_cons, ih]

theorem insertBefore_filter {ref : Option α} (h : insertBefore xs a ref = some ys)
    (ha : p a = false) : ys.filter p = xs.filter p := by
  cases ref with
  | none =>
      cases h
      rw [List.filter_append, filter_erase_out ha, List.filter_cons_of_neg (by simp [ha])]
      exact List.append_nil _
  | some c =>
      rw [insertBefore] at h
      split at h
      · split at h
        · cases h
          rfl
        · cases h
          rw [filter_putBefore_out ha, filter_erase_out ha]
      · cases h

theorem insertBefore_spec (hnodup : xs.Nodup) (ha : p a = false) (hc : p c = true)
    {X Y : List α} (hfilter : xs.filter p = X ++ c :: Y) (hX : c ∉ X) :
    ∃ ys, insertBefore xs a (some c) = some ys ∧ ys.Nodup ∧
      ys.filter (fun x => p x || x == a) = X ++ a :: c :: Y := by
  have hca : c ≠ a := by
    rintro rfl
    rw [ha] at hc
    cases hc
  have hmem : c ∈ xs := by
    have hcfilter : c ∈ xs.filter p := by
      rw [hfilter]
      simp
    exact List.mem_of_mem_filter hcfilter
  have hout : a ∉ xs.erase a := fun h => (List.Nodup.mem_erase_iff hnodup).mp h |>.1 rfl
  have hcmem : c ∈ xs.erase a := (List.mem_erase_of_ne hca).mpr hmem
  refine ⟨putBefore a c (xs.erase a), ?_, ?_, ?_⟩
  · rw [insertBefore, if_pos hmem, if_neg hca]
  · exact (putBefore_perm hcmem).nodup_iff.mpr
      (List.nodup_cons.mpr ⟨hout, hnodup.erase a⟩)
  · rw [filter_putBefore hc hout hca, filter_erase_out ha, hfilter, putBefore_append X Y hX]

theorem insertAll_spec {as : List α} (hnodup : xs.Nodup) (has : as.Nodup)
    (ha : ∀ a ∈ as, p a = false) (hc : p c = true) {X Y : List α}
    (hfilter : xs.filter p = X ++ c :: Y) (hX : c ∉ X) :
    ∃ ys, insertAll xs (some c) as = some ys ∧ ys.Nodup ∧
      ys.filter (fun x => p x || as.contains x) = X ++ (as ++ c :: Y) := by
  induction as generalizing xs p X with
  | nil =>
      refine ⟨xs, rfl, hnodup, ?_⟩
      simpa using hfilter
  | cons a as ih =>
      obtain ⟨hnew, has⟩ := List.nodup_cons.mp has
      obtain ⟨ys, hys, hnodup', hfilter'⟩ :=
        insertBefore_spec hnodup (ha a (by simp)) hc hfilter hX
      have hca : c ≠ a := by
        rintro rfl
        rw [ha c (by simp)] at hc
        cases hc
      have hafter : ∀ b ∈ as, (p b || b == a) = false := by
        intro b hb
        have hba : (b == a) = false := by
          simpa using fun e : b = a => hnew (e ▸ hb)
        rw [ha b (List.mem_cons_of_mem _ hb), hba, Bool.or_false]
      have hX' : c ∉ X ++ [a] := by
        simpa using ⟨hX, hca⟩
      obtain ⟨zs, hzs, hnodup'', hfilter''⟩ := ih (X := X ++ [a]) hnodup' has hafter
        (by simp [hc]) (by simpa using hfilter') hX'
      refine ⟨zs, ?_, hnodup'', ?_⟩
      · rw [insertAll, hys]
        exact hzs
      · have hpred : (fun x => p x || (a :: as).contains x) =
            (fun x => (p x || x == a) || as.contains x) := by
          funext x
          rw [List.contains_cons, Bool.or_assoc]
        rw [hpred, hfilter'']
        simp

end Insert

section Moves

/-- A move of one element: in front of another or to the end, or out of the list. -/
inductive Move (α : Type u)
  | insert (a : α) (ref : Option α)
  | remove (a : α)

def Move.subject : Move α → α
  | .insert a _ => a
  | .remove a => a

def Move.apply (xs : List α) : Move α → Option (List α)
  | .insert a ref => insertBefore xs a ref
  | .remove a => some (xs.erase a)

def relocate (xs : List α) : List (Move α) → Option (List α)
  | [] => some xs
  | move :: moves => (move.apply xs).bind (fun ys => relocate ys moves)

variable {xs ys : List α} {p : α → Bool}

theorem relocate_filter {moves : List (Move α)} (h : relocate xs moves = some ys)
    (hp : ∀ move ∈ moves, p move.subject = false) : ys.filter p = xs.filter p := by
  induction moves generalizing xs with
  | nil =>
      cases h
      rfl
  | cons move moves ih =>
      obtain ⟨zs, hzs, hrest⟩ := Option.bind_eq_some_iff.mp h
      have hmove : p move.subject = false := hp move (by simp)
      have hstep : zs.filter p = xs.filter p := by
        cases move with
        | insert a ref => exact insertBefore_filter hzs hmove
        | remove a =>
            cases hzs
            exact filter_erase_out hmove xs
      rw [ih hrest (fun other hother => hp other (List.mem_cons_of_mem _ hother)), hstep]

theorem relocate_append (xs : List α) (before after : List (Move α)) :
    relocate xs (before ++ after) = (relocate xs before).bind (fun ys => relocate ys after) := by
  induction before generalizing xs with
  | nil => rfl
  | cons move before ih =>
      rw [List.cons_append, relocate, relocate, Option.bind_assoc]
      exact congrArg _ (funext ih)

theorem relocate_inserts (xs : List α) (ref : Option α) (as : List α) :
    relocate xs (as.map (fun a => .insert a ref)) = insertAll xs ref as := by
  induction as generalizing xs with
  | nil => rfl
  | cons a as ih =>
      rw [List.map_cons, relocate, insertAll]
      exact congrArg _ (funext ih)

theorem relocate_removes (xs as : List α) :
    relocate xs (as.map Move.remove) = some (as.foldl List.erase xs) := by
  induction as generalizing xs with
  | nil => rfl
  | cons a as ih =>
      rw [List.map_cons, relocate, List.foldl_cons]
      exact ih (xs.erase a)

end Moves

end Library
