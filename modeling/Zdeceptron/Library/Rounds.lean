import Mathlib.Algebra.Ring.Nat
import Mathlib.Algebra.Order.BigOperators.Group.List
import Mathlib.Algebra.Order.Group.Nat
import Mathlib.Logic.Function.Basic

/-!
# Rounds over a table

Each key of a table is computed again from the whole table, in place and in a given order,
in rounds until one changes nothing.  The values are compared through views; a view sees
some of the keys, and what it sees of the next table it can tell from what it sees of this
one.
-/

namespace Library

section Tables

variable {K V : Type} [DecidableEq K]

def refresh (f : (K → V) → K → V) (same : V → V → Bool) (at_ : (K → V) × Bool) (k : K) :
    (K → V) × Bool :=
  if same (at_.1 k) (f at_.1 k) then at_ else (Function.update at_.1 k (f at_.1 k), true)

def round (f : (K → V) → K → V) (same : V → V → Bool) (keys : List K) (σ : K → V) :
    (K → V) × Bool :=
  keys.foldl (refresh f same) (σ, false)

inductive Outcome (α : Type)
  /-- A round changed nothing. -/
  | settled (table : α)
  /-- There were no more rounds. -/
  | exhausted (table : α)

def rounds (f : (K → V) → K → V) (same : V → V → Bool) (keys : List K) :
    Nat → (K → V) → Outcome (K → V)
  | 0, σ => .exhausted σ
  | n + 1, σ =>
      if (round f same keys σ).2 then rounds f same keys n (round f same keys σ).1
      else .settled (round f same keys σ).1

end Tables

section Views

variable {K V ι : Type}

/-- Tables seen through views, and a function of tables that is monotone in each. -/
structure Viewed (f : (K → V) → K → V) (covers : ι → K → Bool) (le : ι → V → V → Prop)
    (size : ι → V → Nat) : Prop where
  refl : ∀ i v, le i v v
  trans : ∀ {i u v w}, le i u v → le i v w → le i u w
  mono : ∀ {i σ τ}, (∀ k, covers i k → le i (σ k) (τ k)) →
    ∀ k, covers i k → le i (f σ k) (f τ k)
  size_le : ∀ {i v w}, le i v w → size i v ≤ size i w
  le_of_size : ∀ {i v w}, le i v w → size i w ≤ size i v → le i w v

def total (covers : ι → K → Bool) (size : ι → V → Nat) (keys : List K) (i : ι) (σ : K → V) :
    Nat :=
  ((keys.filter (covers i)).map (fun k => size i (σ k))).sum

def Below (covers : ι → K → Bool) (le : ι → V → V → Prop) (i : ι) (σ τ : K → V) : Prop :=
  ∀ k, covers i k → le i (σ k) (τ k)

def Ascending (f : (K → V) → K → V) (covers : ι → K → Bool) (le : ι → V → V → Prop) (i : ι)
    (σ : K → V) : Prop :=
  Below covers le i σ (f σ)

def Closed (f : (K → V) → K → V) (covers : ι → K → Bool) (le : ι → V → V → Prop)
    (keys : List K) (i : ι) (σ : K → V) : Prop :=
  ∀ k ∈ keys, covers i k → le i (f σ k) (σ k)

variable {f : (K → V) → K → V} {covers : ι → K → Bool} {le : ι → V → V → Prop}
  {size : ι → V → Nat} {i : ι} {σ τ : K → V} {keys : List K}

theorem Viewed.total_le (h : Viewed f covers le size) (keys : List K)
    (hle : Below covers le i σ τ) : total covers size keys i σ ≤ total covers size keys i τ := by
  refine List.sum_le_sum (fun k hk => h.size_le (hle k ?_))
  exact (List.mem_filter.mp hk).2

theorem Viewed.le_of_total (h : Viewed f covers le size) (hle : Below covers le i σ τ)
    (htotal : total covers size keys i τ ≤ total covers size keys i σ) {k : K} (hk : k ∈ keys)
    (hcovers : covers i k) : le i (τ k) (σ k) := by
  by_contra hnot
  have hlt : size i (σ k) < size i (τ k) := by
    by_contra hge
    exact hnot (h.le_of_size (hle k hcovers) (not_lt.mp hge))
  refine absurd htotal (not_le.mpr (List.sum_lt_sum _ _ (fun j hj => ?_) ⟨k, ?_, hlt⟩))
  · exact h.size_le (hle j (List.mem_filter.mp hj).2)
  · exact List.mem_filter.mpr ⟨hk, hcovers⟩

end Views

section Steps

variable {K V ι : Type} [DecidableEq K] {f : (K → V) → K → V} {covers : ι → K → Bool}
  {le : ι → V → V → Prop} {size : ι → V → Nat} {same : V → V → Bool} {i : ι} {σ τ : K → V}
  {at_ : (K → V) × Bool} {keys l : List K} {k : K} {n : Nat}

theorem refresh_cases (f : (K → V) → K → V) (same : V → V → Bool) (at_ : (K → V) × Bool) (k : K) :
    (same (at_.1 k) (f at_.1 k) = true ∧ refresh f same at_ k = at_) ∨
      (same (at_.1 k) (f at_.1 k) = false ∧
        refresh f same at_ k = (Function.update at_.1 k (f at_.1 k), true)) := by
  unfold refresh
  cases hsame : same (at_.1 k) (f at_.1 k) with
  | false => exact .inr ⟨rfl, rfl⟩
  | true => exact .inl ⟨rfl, rfl⟩

theorem refresh_apply {P : V → Prop} {j : K} (hkeep : P (at_.1 j))
    (hnew : j = k → same (at_.1 k) (f at_.1 k) = false → P (f at_.1 k)) :
    P ((refresh f same at_ k).1 j) := by
  obtain ⟨-, heq⟩ | ⟨hdiffers, heq⟩ := refresh_cases f same at_ k
  · rw [heq]
    exact hkeep
  · rw [heq]
    by_cases hjk : j = k
    · subst hjk
      simpa only [Function.update_self] using hnew rfl hdiffers
    · simpa only [ne_eq, hjk, not_false_eq_true, Function.update_of_ne] using hkeep

theorem foldl_refresh_induction (f : (K → V) → K → V) (same : V → V → Bool)
    (l : List K) (P : (K → V) × Bool → Prop)
    (hstep : ∀ at_, ∀ k ∈ l, P at_ → P (refresh f same at_ k)) (h : P at_) :
    P (l.foldl (refresh f same) at_) := by
  induction l generalizing at_ with
  | nil => exact h
  | cons k l ih =>
      refine ih (fun at_ j hj => hstep at_ j (List.mem_cons_of_mem k hj)) ?_
      exact hstep at_ k List.mem_cons_self h

theorem foldl_refresh_unchanged (h : (l.foldl (refresh f same) at_).2 = false) :
    l.foldl (refresh f same) at_ = at_ ∧ ∀ k ∈ l, same (at_.1 k) (f at_.1 k) = true := by
  induction l generalizing at_ with
  | nil => exact ⟨rfl, fun _ hk => absurd hk List.not_mem_nil⟩
  | cons k l ih =>
      rw [List.foldl_cons] at h ⊢
      obtain ⟨hsame, heq⟩ | ⟨-, heq⟩ := refresh_cases f same at_ k
      · rw [heq] at h ⊢
        obtain ⟨hrest, hall⟩ := ih h
        exact ⟨hrest, List.forall_mem_cons.mpr ⟨hsame, hall⟩⟩
      · rw [heq] at h
        have hchanged := foldl_refresh_induction f same l
          (fun at_ => at_.2 = true) (fun at_ j _ hat => ?_)
          (rfl : (Function.update at_.1 k (f at_.1 k), true).2 = true)
        · rw [h] at hchanged
          cases hchanged
        · obtain ⟨-, heq⟩ | ⟨-, heq⟩ := refresh_cases f same at_ j
          · rw [heq]
            exact hat
          · rw [heq]

end Steps

section Runs

variable {K V ι : Type} [DecidableEq K] {f : (K → V) → K → V} {covers : ι → K → Bool}
  {le : ι → V → V → Prop} {size : ι → V → Nat} {same : V → V → Bool} {fit : K → V → Prop}
  {i : ι} {σ τ : K → V} {at_ : (K → V) × Bool} {keys l : List K} {k : K} {n : Nat}

/-- Values that stay `fit` for their key, and are compared by all their views. -/
structure Compared (f : (K → V) → K → V) (covers : ι → K → Bool) (le : ι → V → V → Prop)
    (same : V → V → Bool) (fit : K → V → Prop) : Prop where
  good : ∀ {σ}, (∀ k, fit k (σ k)) → ∀ k, fit k (f σ k)
  same : ∀ {k v w}, fit k v → fit k w →
    (same v w = true ↔ ∀ i, covers i k → le i v w ∧ le i w v)

structure Rising (f : (K → V) → K → V) (covers : ι → K → Bool) (le : ι → V → V → Prop)
    (fit : K → V → Prop) (σ : K → V) : Prop where
  good : ∀ k, fit k (σ k)
  ascending : ∀ i, Ascending f covers le i σ

variable (hf : Viewed f covers le size) (hs : Compared f covers le same fit)
include hf hs

omit hs in
theorem below_refresh (same : V → V → Bool) (h : Rising f covers le fit at_.1) (k : K) (i : ι) :
    Below covers le i at_.1 (refresh f same at_ k).1 := by
  intro j hj
  refine refresh_apply (hf.refl i _) ?_
  rintro rfl -
  exact h.ascending i j hj

theorem Rising.refresh (h : Rising f covers le fit at_.1) (k : K) :
    Rising f covers le fit (refresh f same at_ k).1 where
  good := by
    intro j
    refine refresh_apply (h.good j) ?_
    rintro rfl -
    exact hs.good h.good j
  ascending := by
    intro i j hj
    have hnext := hf.mono (below_refresh hf same h k i) j hj
    refine refresh_apply (P := fun v => le i v _) (hf.trans (h.ascending i j hj) hnext) ?_
    rintro rfl -
    exact hnext

theorem Rising.foldl (h : Rising f covers le fit at_.1) :
    Rising f covers le fit (l.foldl (Library.refresh f same) at_).1 :=
  foldl_refresh_induction f same l (fun at_ => Rising f covers le fit at_.1)
    (fun _ k _ hat => hat.refresh hf hs k) h

theorem below_foldl (h : Rising f covers le fit at_.1) (i : ι) :
    Below covers le i at_.1 (l.foldl (refresh f same) at_).1 := by
  have := foldl_refresh_induction f same l
    (fun next => Rising f covers le fit next.1 ∧ Below covers le i at_.1 next.1)
    (fun next k _ hnext => ⟨hnext.1.refresh hf hs k, fun j hj =>
      hf.trans (hnext.2 j hj) (below_refresh hf same hnext.1 k i j hj)⟩)
    ⟨h, fun j _ => hf.refl i _⟩
  exact this.2

omit hs in
theorem refresh_below (same : V → V → Bool) (hk : covers i k → le i (f at_.1 k) (at_.1 k)) :
    Below covers le i (refresh f same at_ k).1 at_.1 := by
  intro j hj
  refine refresh_apply (P := fun v => le i v _) (hf.refl i _) ?_
  rintro rfl -
  exact hk hj

omit hs in
theorem Closed.refresh (hclosed : Closed f covers le keys i at_.1)
    (h : Rising f covers le fit at_.1) (hk : k ∈ keys) :
    Closed f covers le keys i (Library.refresh f same at_ k).1 := by
  intro j hj hcovers
  have hbelow := refresh_below hf same (hclosed k hk)
  have hdown := hf.mono hbelow j hcovers
  exact hf.trans (hf.trans hdown (hclosed j hj hcovers)) (below_refresh hf same h k i j hcovers)

theorem Closed.foldl (hclosed : Closed f covers le keys i at_.1)
    (h : Rising f covers le fit at_.1) (hl : l ⊆ keys) :
    Closed f covers le keys i (l.foldl (Library.refresh f same) at_).1 := by
  have := foldl_refresh_induction f same l
    (fun next => Rising f covers le fit next.1 ∧ Closed f covers le keys i next.1)
    (fun next k hk hnext => ⟨hnext.1.refresh hf hs k, hnext.2.refresh hf hnext.1 (hl hk)⟩)
    ⟨h, hclosed⟩
  exact this.2

theorem closed_of_total (h : Rising f covers le fit at_.1) (hl : l ⊆ keys)
    (htotal : total covers size keys i (l.foldl (refresh f same) at_).1 ≤
      total covers size keys i at_.1) : Closed f covers le l i at_.1 := by
  induction l generalizing at_ with
  | nil => exact fun j hj => absurd hj List.not_mem_nil
  | cons k l ih =>
      rw [List.foldl_cons] at htotal
      have hk := hl List.mem_cons_self
      have hup := below_refresh hf same h k i
      have hnext := h.refresh hf hs k
      have hmiddle := hf.total_le keys (below_foldl hf hs (l := l) hnext i)
      have hback : covers i k → le i (f at_.1 k) (at_.1 k) := by
        intro hcovers
        obtain ⟨hsame, -⟩ | ⟨-, heq⟩ := refresh_cases f same at_ k
        · exact (((hs.same (h.good k) (hs.good h.good k)).mp hsame) i hcovers).2
        · have hdown := hf.le_of_total hup (hmiddle.trans htotal) hk hcovers
          rw [heq] at hdown
          simpa only [Function.update_self] using hdown
      have hrest := ih hnext (fun j hj => hl (List.mem_cons_of_mem k hj))
        (htotal.trans (hf.total_le keys hup))
      intro j hj hcovers
      obtain rfl | hj := List.mem_cons.mp hj
      · exact hback hcovers
      · refine hf.trans (hf.mono hup j hcovers) (hf.trans (hrest j hj hcovers) ?_)
        exact refresh_below hf same hback j hcovers

theorem exists_not_closed (h : Rising f covers le fit σ)
    (hchanged : (round f same keys σ).2 = true) : ∃ i, ¬ Closed f covers le keys i σ := by
  by_contra hnone
  have hclosed : ∀ i, Closed f covers le keys i σ := fun i => by
    by_contra hi
    exact hnone ⟨i, hi⟩
  have hinv := foldl_refresh_induction f same keys
    (fun next => next.2 = false ∧ Rising f covers le fit next.1 ∧
      ∀ i, Closed f covers le keys i next.1)
    (fun next k hk hnext => ?_) (⟨rfl, h, hclosed⟩ : (σ, false).2 = false ∧ _)
  · unfold round at hchanged
    rw [hinv.1] at hchanged
    cases hchanged
  · refine ⟨?_, hnext.2.1.refresh hf hs k,
      fun i => (hnext.2.2 i).refresh hf hnext.2.1 hk⟩
    have hsame : same (next.1 k) (f next.1 k) = true :=
      (hs.same (hnext.2.1.good k) (hs.good hnext.2.1.good k)).mpr
        (fun i hi => ⟨hnext.2.1.ascending i k hi, hnext.2.2 i k hk hi⟩)
    obtain ⟨-, heq⟩ | ⟨hnot, -⟩ := refresh_cases f same next k
    · rw [heq]
      exact hnext.1
    · rw [hsame] at hnot
      cases hnot

theorem rounds_settled {M : Nat} (hM : ∀ i τ, (∀ k, fit k (τ k)) → total covers size keys i τ ≤ M)
    (h : Rising f covers le fit σ) (hpos : 0 < n)
    (hn : ∀ i, ¬ Closed f covers le keys i σ → M < n + total covers size keys i σ) :
    ∃ τ, rounds f same keys n σ = .settled τ := by
  induction n generalizing σ with
  | zero => exact absurd hpos (Nat.lt_irrefl 0)
  | succ n ih =>
      rw [rounds]
      have hstart : Rising f covers le fit ((σ, false) : (K → V) × Bool).1 := h
      have hnext : Rising f covers le fit (round f same keys σ).1 := hstart.foldl hf hs
      have hrises : ∀ i, ¬ Closed f covers le keys i σ →
          total covers size keys i σ < total covers size keys i (round f same keys σ).1 := by
        intro i hi
        by_contra hnot
        exact hi (closed_of_total hf hs hstart (List.Subset.refl keys) (not_lt.mp hnot))
      cases hchanged : (round f same keys σ).2 with
      | false => exact ⟨(round f same keys σ).1, rfl⟩
      | true =>
          rw [if_pos rfl]
          refine ih hnext ?_ (fun i hi => ?_)
          · obtain ⟨i, hi⟩ := exists_not_closed hf hs h hchanged
            have hleft := hn i hi
            have hrise := hrises i hi
            have hcap := hM i _ hnext.good
            omega
          · have hbefore : ¬ Closed f covers le keys i ((σ, false) : (K → V) × Bool).1 :=
              fun hclosed => hi (hclosed.foldl hf hs hstart (List.Subset.refl keys))
            have hleft := hn i hbefore
            have hrise := hrises i hbefore
            omega

omit hf hs in
theorem rounds_induction (P : (K → V) → Prop)
    (hstep : ∀ at_, ∀ k ∈ keys, P at_.1 → P (refresh f same at_ k).1) (h : P σ)
    (hend : rounds f same keys n σ = .settled τ) :
    P τ ∧ ∀ k ∈ keys, same (τ k) (f τ k) = true := by
  induction n generalizing σ with
  | zero => cases hend
  | succ n ih =>
      rw [rounds] at hend
      have hnext : P (round f same keys σ).1 :=
        foldl_refresh_induction f same keys (fun at_ => P at_.1) hstep h
      cases hchanged : (round f same keys σ).2 with
      | true =>
          rw [hchanged, if_pos rfl] at hend
          exact ih hnext hend
      | false =>
          rw [hchanged, if_neg Bool.false_ne_true] at hend
          cases hend
          obtain ⟨heq, hall⟩ := foldl_refresh_unchanged hchanged
          refine ⟨hnext, ?_⟩
          have heq' : (round f same keys σ).1 = σ := congrArg Prod.fst heq
          rw [heq']
          exact hall

theorem rounds_fixed (h : Rising f covers le fit σ) (hend : rounds f same keys n σ = .settled τ) :
    Rising f covers le fit τ ∧ ∀ i, Closed f covers le keys i τ := by
  obtain ⟨hτ, hall⟩ := rounds_induction (Rising f covers le fit)
    (fun at_ k _ hat => hat.refresh hf hs k) h hend
  exact ⟨hτ, fun i k hk hcovers =>
    (((hs.same (hτ.good k) (hs.good hτ.good k)).mp (hall k hk)) i hcovers).2⟩

omit hs in
theorem rounds_le {υ : K → V} (hbelow : Below covers le i σ υ)
    (hclosed : Closed f covers le keys i υ)
    (hend : rounds f same keys n σ = .settled τ) : Below covers le i τ υ := by
  refine (rounds_induction (Below covers le i · υ) (fun at_ k hk hat => ?_) hbelow hend).1
  intro j hj
  refine refresh_apply (P := fun v => le i v _) (hat j hj) ?_
  rintro rfl -
  exact hf.trans (hf.mono hat j hj) (hclosed j hk hj)

end Runs

end Library
