import Mathlib.Tactic.SplitIfs

/-!
# Partition points by bisection

Many programs look for the place where a test over an index range turns from
true to false and find it by halving the range.  `partitionPoint` is that loop.
On a range where the test is downward closed it returns the turning point.

The loop is structural on a step budget, so that it computes in the kernel;
`high - low` steps are always enough.
-/

namespace Library

/-- The loop `while (low < high)` that halves `[low, high)` around the middle. -/
def bisect (test : Nat → Bool) : Nat → Nat → Nat → Nat
  | 0, low, _ => low
  | steps + 1, low, high =>
      if low < high then
        if test ((low + high) / 2) then
          bisect test steps ((low + high) / 2 + 1) high
        else
          bisect test steps low ((low + high) / 2)
      else low

/-- The place of `[low, high)` where `test` turns from true to false. -/
def partitionPoint (test : Nat → Bool) (low high : Nat) : Nat :=
  bisect test (high - low) low high

/-- The test holds up to some place of `[low, high)` and fails from there on. -/
def Partitioned (test : Nat → Bool) (low high : Nat) : Prop :=
  ∀ i j, low ≤ i → i ≤ j → j < high → test j = true → test i = true

theorem bisect_bounds (test : Nat → Bool) :
    ∀ steps low high, low ≤ high →
      low ≤ bisect test steps low high ∧ bisect test steps low high ≤ high
  | 0, low, high, h => ⟨Nat.le_refl _, h⟩
  | steps + 1, low, high, h => by
      unfold bisect
      split_ifs with hlt htest
      · have := bisect_bounds test steps ((low + high) / 2 + 1) high (by omega)
        omega
      · have := bisect_bounds test steps low ((low + high) / 2) (by omega)
        omega
      · omega

theorem bisect_before (test : Nat → Bool) {i : Nat} :
    ∀ steps low high, Partitioned test low high → low ≤ i →
      i < bisect test steps low high → test i = true
  | 0, low, high, _, hlow, hi => by
      unfold bisect at hi
      omega
  | steps + 1, low, high, hpart, hlow, hi => by
      unfold bisect at hi
      split_ifs at hi with hlt htest
      · by_cases hmid : i ≤ (low + high) / 2
        · exact hpart i ((low + high) / 2) hlow hmid (by omega) htest
        · exact bisect_before test steps _ high
            (fun a b ha hab hb ht => hpart a b (by omega) hab hb ht) (by omega) hi
      · exact bisect_before test steps low _
          (fun a b ha hab hb ht => hpart a b ha hab (by omega) ht) hlow hi
      · omega

theorem bisect_after (test : Nat → Bool) {i : Nat} :
    ∀ steps low high, high - low ≤ steps → Partitioned test low high →
      i < high → bisect test steps low high ≤ i → test i = false
  | 0, low, high, hsteps, _, hhigh, hi => by
      unfold bisect at hi
      omega
  | steps + 1, low, high, hsteps, hpart, hhigh, hi => by
      unfold bisect at hi
      split_ifs at hi with hlt htest
      · exact bisect_after test steps _ high (by omega)
          (fun a b ha hab hb ht => hpart a b (by omega) hab hb ht) hhigh hi
      · by_cases hmid : i < (low + high) / 2
        · exact bisect_after test steps low _ (by omega)
            (fun a b ha hab hb ht => hpart a b ha hab (by omega) ht) hmid hi
        · have hle := (bisect_bounds test steps low ((low + high) / 2) (by omega)).1
          cases ht : test i with
          | false => rfl
          | true =>
              exact absurd (hpart _ i (by omega) (by omega) hhigh ht) htest
      · omega

theorem partitionPoint_bounds (test : Nat → Bool) {low high : Nat} (h : low ≤ high) :
    low ≤ partitionPoint test low high ∧ partitionPoint test low high ≤ high :=
  bisect_bounds test (high - low) low high h

theorem partitionPoint_before {test : Nat → Bool} {low high i : Nat}
    (hpart : Partitioned test low high) (hlow : low ≤ i)
    (hi : i < partitionPoint test low high) : test i = true :=
  bisect_before test (high - low) low high hpart hlow hi

theorem partitionPoint_after {test : Nat → Bool} {low high i : Nat}
    (hpart : Partitioned test low high) (hhigh : i < high)
    (hi : partitionPoint test low high ≤ i) : test i = false :=
  bisect_after test (high - low) low high (Nat.le_refl _) hpart hhigh hi

end Library
