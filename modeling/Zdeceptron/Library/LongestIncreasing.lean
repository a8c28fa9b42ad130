import Mathlib.Order.Lattice
import Mathlib.Data.List.Perm.Subperm
import Mathlib.Data.Nat.Basic
import Mathlib.Logic.Function.Basic

/-!
# Longest increasing subsequences by piles

Positions are dealt onto piles from left to right: a position goes on the first
pile whose top is at least its value, and remembers the top of the pile before.
Two positions of one pile never increase, so no increasing subsequence is longer
than there are piles; the remembered positions form one that is as long.
-/

namespace Library

universe u

section Assign

variable {α : Type u}

def assign (xs : List α) (place : Nat) (x : α) : List α :=
  if place < xs.length then xs.set place x else xs ++ [x]

theorem getElem?_assign {xs : List α} {place : Nat} (h : place ≤ xs.length) (x : α) (k : Nat) :
    (assign xs place x)[k]? = if k = place then some x else xs[k]? := by
  unfold assign
  by_cases hplace : place < xs.length
  · rw [if_pos hplace, List.getElem?_set]
    by_cases hk : place = k
    · subst hk
      simp [hplace]
    · rw [if_neg hk, if_neg (Ne.symm hk)]
  · have hlength : place = xs.length := by omega
    subst hlength
    rw [if_neg hplace, List.getElem?_append]
    by_cases hk : k = xs.length
    · subst hk
      simp
    · rw [if_neg hk]
      by_cases hlt : k < xs.length
      · rw [if_pos hlt]
      · rw [if_neg hlt, List.getElem?_eq_none (by simpa using by omega),
          List.getElem?_eq_none (by omega)]

theorem length_assign_ge (xs : List α) (place : Nat) (x : α) :
    xs.length ≤ (assign xs place x).length := by
  unfold assign
  split <;> simp

theorem lt_length_assign {xs : List α} {place : Nat} (h : place ≤ xs.length) (x : α) :
    place < (assign xs place x).length := by
  have hsome : (assign xs place x)[place]? = some x := by
    rw [getElem?_assign h, if_pos rfl]
  exact (List.getElem?_eq_some_iff.mp hsome).1

end Assign

section Piles

variable {α : Type u} [LinearOrder α]

/-- Positions from left to right, each with a value above the ones before. -/
def IncreasingAt (value : Nat → Option α) (positions : List Nat) : Prop :=
  (∀ i ∈ positions, ∃ v, value i = some v) ∧
    positions.Pairwise
      (fun i j => i < j ∧ ∀ v w, value i = some v → value j = some w → v < w)

theorem exists_increasingAt {β : Type u} {f : β → Option α} {xs ys : List β}
    (h : ys.Sublist xs) (hvalue : ∀ y ∈ ys, ∃ v, f y = some v)
    (hpairs : ys.Pairwise (fun a b => ∀ v w, f a = some v → f b = some w → v < w)) :
    ∃ positions, positions.map (fun i => (xs.map f).getD i none) = ys.map f ∧
      IncreasingAt (fun i => (xs.map f).getD i none) positions := by
  induction h with
  | slnil => exact ⟨[], rfl, by simp, List.Pairwise.nil⟩
  | @cons ys xs x _ ih =>
      obtain ⟨positions, hvalues, hsome, hincreasing⟩ := ih hvalue hpairs
      refine ⟨positions.map (· + 1), ?_, ?_, List.pairwise_map.mpr (hincreasing.imp ?_)⟩
      · rw [← hvalues, List.map_map]
        rfl
      · rintro i hi
        obtain ⟨j, hj, rfl⟩ := List.mem_map.mp hi
        exact hsome j hj
      · rintro i j ⟨hij, hlt⟩
        exact ⟨Nat.succ_lt_succ hij, hlt⟩
  | @cons_cons ys xs x _ ih =>
      obtain ⟨hhead, htail⟩ := List.pairwise_cons.mp hpairs
      obtain ⟨positions, hvalues, hsome, hincreasing⟩ :=
        ih (fun y hy => hvalue y (List.mem_cons_of_mem _ hy)) htail
      refine ⟨0 :: positions.map (· + 1), ?_, ?_, List.pairwise_cons.mpr
        ⟨?_, List.pairwise_map.mpr (hincreasing.imp ?_)⟩⟩
      · rw [List.map_cons, List.map_map, List.map_cons (l := ys), ← hvalues]
        rfl
      · rintro i hi
        rcases List.mem_cons.mp hi with rfl | hi
        · exact hvalue x (by simp)
        · obtain ⟨j, hj, rfl⟩ := List.mem_map.mp hi
          exact hsome j hj
      · rintro i hi
        obtain ⟨j, hj, rfl⟩ := List.mem_map.mp hi
        refine ⟨Nat.succ_pos j, ?_⟩
        intro v w hv hw
        have hmem : some w ∈ ys.map f := by
          rw [← hvalues]
          exact List.mem_map.mpr ⟨j, hj, hw⟩
        obtain ⟨y, hy, hfy⟩ := List.mem_map.mp hmem
        exact hhead y hy v w hv hfy
      · rintro i j ⟨hij, hlt⟩
        exact ⟨Nat.succ_lt_succ hij, hlt⟩

/-- The positions below `n` that have a value are dealt: `tops` are the positions on
top of the piles, `previous` is what a position remembers and `pile` is its pile. -/
structure Piled (value : Nat → Option α) (n : Nat) (tops : List Nat)
    (previous : Nat → Option Nat) (pile : Nat → Nat) : Prop where
  top : ∀ {k i : Nat}, tops[k]? = some i → i < n ∧ pile i = k ∧ ∃ v, value i = some v
  top_le : ∀ {k i j : Nat} {v w : α}, tops[k]? = some i → value i = some v → j < n →
    pile j = k → value j = some w → v ≤ w
  top_lt : ∀ {k l i j : Nat} {v w : α}, k < l → tops[k]? = some i → tops[l]? = some j →
    value i = some v → value j = some w → v < w
  pile_lt : ∀ {i : Nat} {v : α}, i < n → value i = some v → pile i < tops.length
  pile_le : ∀ {i j : Nat} {v w : α}, i < j → j < n → pile i = pile j → value i = some v →
    value j = some w → w ≤ v
  linked : ∀ {j : Nat} {w : α}, j < n → value j = some w →
    (pile j = 0 ∧ previous j = none) ∨
      ∃ i v, previous j = some i ∧ i < j ∧ value i = some v ∧ v < w ∧ pile j = pile i + 1

variable {value : Nat → Option α} {n : Nat} {tops : List Nat} {previous : Nat → Option Nat}
variable {pile : Nat → Nat}

theorem Piled.empty (value : Nat → Option α) (previous : Nat → Option Nat)
    (pile : Nat → Nat) : Piled value 0 [] previous pile where
  top h := by simp at h
  top_le h := by simp at h
  top_lt _ h := by simp at h
  pile_lt h := absurd h (Nat.not_lt_zero _)
  pile_le _ h := absurd h (Nat.not_lt_zero _)
  linked h := absurd h (Nat.not_lt_zero _)

theorem Piled.skip (h : Piled value n tops previous pile) (hvalue : value n = none) :
    Piled value (n + 1) tops previous pile := by
  have hlt : ∀ {i : Nat} {v : α}, i < n + 1 → value i = some v → i < n := by
    intro i v hi hv
    refine lt_of_le_of_ne (Nat.le_of_lt_succ hi) ?_
    rintro rfl
    rw [hvalue] at hv
    cases hv
  refine ⟨?_, ?_, h.top_lt, ?_, ?_, ?_⟩
  · intro k i hi
    obtain ⟨hin, hpile, hv⟩ := h.top hi
    exact ⟨Nat.lt_succ_of_lt hin, hpile, hv⟩
  · intro k i j v w hi hv hj hpile hw
    exact h.top_le hi hv (hlt hj hw) hpile hw
  · intro i v hi hv
    exact h.pile_lt (hlt hi hv) hv
  · intro i j v w hij hj hpile hv hw
    exact h.pile_le hij (hlt hj hw) hpile hv hw
  · intro j w hj hw
    exact h.linked (hlt hj hw) hw

theorem Piled.deal (h : Piled value n tops previous pile) {v : α} (hvalue : value n = some v)
    {place : Nat} (hplace : place ≤ tops.length)
    (hbefore : ∀ {k i : Nat} {u : α}, k < place → tops[k]? = some i → value i = some u → u < v)
    (hafter : ∀ {k i : Nat} {u : α}, place ≤ k → tops[k]? = some i → value i = some u → v ≤ u) :
    Piled value (n + 1) (assign tops place n)
      (Function.update previous n (if place = 0 then none else tops[place - 1]?))
      (Function.update pile n place) := by
  have hne : ∀ {i : Nat}, i < n → i ≠ n := fun hi => Nat.ne_of_lt hi
  have hpile : ∀ {i : Nat}, i < n → Function.update pile n place i = pile i :=
    fun hi => Function.update_of_ne (hne hi) _ _
  have hself : Function.update pile n place n = place := Function.update_self _ _ _
  refine ⟨?_, ?_, ?_, ?_, ?_, ?_⟩
  · intro k i hi
    rw [getElem?_assign hplace] at hi
    by_cases hk : k = place
    · rw [if_pos hk] at hi
      cases hi
      exact ⟨Nat.lt_succ_self n, by rw [hself, hk], v, hvalue⟩
    · rw [if_neg hk] at hi
      obtain ⟨hin, hk', hv⟩ := h.top hi
      exact ⟨Nat.lt_succ_of_lt hin, by rw [hpile hin, hk'], hv⟩
  · intro k i j u w hi hu hj hjk hw
    rw [getElem?_assign hplace] at hi
    rcases Nat.lt_succ_iff_lt_or_eq.mp hj with hj | rfl
    · rw [hpile hj] at hjk
      by_cases hk : k = place
      · rw [if_pos hk] at hi
        cases hi
        rw [hvalue] at hu
        cases hu
        have hlength := h.pile_lt hj hw
        rw [hjk, hk] at hlength
        obtain ⟨top, htop⟩ : ∃ top, tops[place]? = some top :=
          ⟨_, List.getElem?_eq_getElem hlength⟩
        obtain ⟨_, _, u, hu⟩ := h.top htop
        exact le_trans (hafter (Nat.le_refl _) htop hu)
          (h.top_le htop hu hj (hjk.trans hk) hw)
      · rw [if_neg hk] at hi
        exact h.top_le hi hu hj hjk hw
    · rw [hself] at hjk
      rw [if_pos hjk.symm] at hi
      cases hi
      rw [hu] at hw
      cases hw
      exact le_refl _
  · intro k l i j u w hkl hi hj hu hw
    rw [getElem?_assign hplace] at hi hj
    by_cases hk : k = place
    · rw [if_pos hk] at hi
      rw [if_neg (by omega)] at hj
      cases hi
      rw [hvalue] at hu
      cases hu
      have hl : l < tops.length := (List.getElem?_eq_some_iff.mp hj).1
      obtain ⟨top, htop⟩ : ∃ top, tops[k]? = some top :=
        ⟨_, List.getElem?_eq_getElem (by omega)⟩
      obtain ⟨_, _, t, ht⟩ := h.top htop
      exact lt_of_le_of_lt (hafter (by omega) htop ht) (h.top_lt hkl htop hj ht hw)
    · rw [if_neg hk] at hi
      by_cases hl : l = place
      · rw [if_pos hl] at hj
        cases hj
        rw [hvalue] at hw
        cases hw
        exact hbefore (by omega) hi hu
      · rw [if_neg hl] at hj
        exact h.top_lt hkl hi hj hu hw
  · intro i u hi hu
    rcases Nat.lt_succ_iff_lt_or_eq.mp hi with hi | rfl
    · rw [hpile hi]
      exact lt_of_lt_of_le (h.pile_lt hi hu) (length_assign_ge tops place n)
    · rw [hself]
      exact lt_length_assign hplace _
  · intro i j u w hij hj hij' hu hw
    rcases Nat.lt_succ_iff_lt_or_eq.mp hj with hj | rfl
    · rw [hpile hj, hpile (lt_trans hij hj)] at hij'
      exact h.pile_le hij hj hij' hu hw
    · rw [hpile hij, hself] at hij'
      rw [hvalue] at hw
      cases hw
      have hlength := h.pile_lt hij hu
      rw [hij'] at hlength
      obtain ⟨top, htop⟩ : ∃ top, tops[place]? = some top :=
        ⟨_, List.getElem?_eq_getElem hlength⟩
      obtain ⟨_, _, t, ht⟩ := h.top htop
      exact le_trans (hafter (Nat.le_refl _) htop ht) (h.top_le htop ht hij hij' hu)
  · intro j w hj hw
    rcases Nat.lt_succ_iff_lt_or_eq.mp hj with hj | rfl
    · rw [hpile hj, Function.update_of_ne (hne hj)]
      rcases h.linked hj hw with hlinked | ⟨i, u, hprev, hij, hu, huw, hpile'⟩
      · exact .inl hlinked
      · exact .inr ⟨i, u, hprev, hij, hu, huw, by rw [hpile (lt_trans hij hj), hpile']⟩
    · rw [hself, Function.update_self]
      rw [hvalue] at hw
      cases hw
      by_cases hzero : place = 0
      · exact .inl ⟨hzero, if_pos hzero⟩
      · rw [if_neg hzero]
        obtain ⟨i, hi⟩ : ∃ i, tops[place - 1]? = some i :=
          ⟨_, List.getElem?_eq_getElem (by omega)⟩
        obtain ⟨hin, hpile', u, hu⟩ := h.top hi
        exact .inr ⟨i, u, hi, hin, hu, hbefore (by omega) hi hu, by
          rw [hpile hin, hpile']
          omega⟩

def walkBack (previous : Nat → Option Nat) : Nat → Option Nat → List Nat
  | 0, _ => []
  | _, none => []
  | steps + 1, some i => i :: walkBack previous steps (previous i)

theorem Piled.walkBack_increasing (h : Piled value n tops previous pile) :
    ∀ {steps i : Nat} {v : α}, pile i < steps → i < n → value i = some v →
      (walkBack previous steps (some i)).length = pile i + 1 ∧
        (∀ j ∈ walkBack previous steps (some i), j ≤ i ∧ ∃ w, value j = some w ∧ w ≤ v) ∧
        IncreasingAt value (walkBack previous steps (some i)).reverse
  | steps + 1, i, v, hsteps, hi, hv => by
      rw [walkBack, List.reverse_cons]
      rcases h.linked hi hv with ⟨hpile, hprev⟩ | ⟨j, w, hprev, hji, hw, hwv, hpile⟩
      · have hend : walkBack previous steps (previous i) = [] := by
          rw [hprev]
          cases steps <;> rfl
        rw [hend]
        refine ⟨by rw [hpile]; rfl, ?_, ?_, List.pairwise_singleton _ _⟩
        · intro j hj
          rw [List.mem_singleton] at hj
          subst hj
          exact ⟨Nat.le_refl _, v, hv, le_refl _⟩
        · intro j hj
          rw [List.reverse_nil, List.nil_append, List.mem_singleton] at hj
          subst hj
          exact ⟨v, hv⟩
      · rw [hprev]
        obtain ⟨hlength, hbelow, hincreasing⟩ :=
          h.walkBack_increasing (by omega : pile j < steps) (lt_trans hji hi) hw
        refine ⟨by rw [List.length_cons, hlength, hpile], ?_, ?_, ?_⟩
        · intro k hk
          rcases List.mem_cons.mp hk with rfl | hk
          · exact ⟨Nat.le_refl _, v, hv, le_refl _⟩
          · obtain ⟨hkj, x, hx, hxw⟩ := hbelow k hk
            exact ⟨le_of_lt (lt_of_le_of_lt hkj hji), x, hx, le_of_lt (lt_of_le_of_lt hxw hwv)⟩
        · intro k hk
          rcases List.mem_append.mp hk with hk | hk
          · exact hincreasing.1 k hk
          · rw [List.mem_singleton] at hk
            subst hk
            exact ⟨v, hv⟩
        · refine List.pairwise_append.mpr ⟨hincreasing.2, List.pairwise_singleton _ _, ?_⟩
          intro k hk l hl
          rw [List.mem_singleton] at hl
          subst hl
          obtain ⟨hkj, x, hx, hxw⟩ := hbelow k (List.mem_reverse.mp hk)
          refine ⟨lt_of_le_of_lt hkj hji, ?_⟩
          intro a b ha hb
          rw [hx] at ha
          rw [hv] at hb
          cases ha
          cases hb
          exact lt_of_le_of_lt hxw hwv

theorem Piled.longest (h : Piled value n tops previous pile) {positions : List Nat}
    (hincreasing : IncreasingAt value positions) (hbelow : ∀ i ∈ positions, i < n) :
    positions.length ≤ tops.length := by
  obtain ⟨hvalue, hpairs⟩ := hincreasing
  have hnodup : (positions.map pile).Nodup := by
    refine List.nodup_iff_pairwise_ne.mpr (List.pairwise_map.mpr (hpairs.imp_of_mem ?_))
    intro i j hi hj hij hpile
    obtain ⟨v, hv⟩ := hvalue i hi
    obtain ⟨w, hw⟩ := hvalue j hj
    exact absurd (hij.2 v w hv hw) (not_lt_of_ge (h.pile_le hij.1 (hbelow j hj) hpile hv hw))
  have hsubset : positions.map pile ⊆ List.range tops.length := by
    intro k hk
    obtain ⟨i, hi, rfl⟩ := List.mem_map.mp hk
    obtain ⟨v, hv⟩ := hvalue i hi
    exact List.mem_range.mpr (h.pile_lt (hbelow i hi) hv)
  have hle := (List.subperm_of_subset hnodup hsubset).length_le
  rwa [List.length_map, List.length_range] at hle

end Piles

end Library
