import Mathlib.Logic.Function.Basic
import Mathlib.Data.List.Nodup

/-!
# Pending writes over a map

A batch of writes is prepared in a working map laid over a base map, together
with the keys in the order of their first write, and flushed at the end.  A log of
writes is laid over a map entry by entry.
-/

namespace Library

universe u v w

structure Overlay (κ : Type u) (ν : Type v) where
  pending : κ → Option ν
  order : List κ

namespace Overlay

variable {κ : Type u} {ν : Type v}

def empty : Overlay κ ν := ⟨fun _ => none, []⟩

def look (base : κ → ν) (o : Overlay κ ν) (k : κ) : ν := (o.pending k).getD (base k)

structure WellOrdered (o : Overlay κ ν) : Prop where
  nodup : o.order.Nodup
  mem_order : ∀ k, k ∈ o.order ↔ (o.pending k).isSome

@[simp] theorem look_empty (base : κ → ν) : (empty : Overlay κ ν).look base = base := rfl

theorem wellOrdered_empty : (empty : Overlay κ ν).WellOrdered where
  nodup := List.nodup_nil
  mem_order := by
    intro k
    simp [empty]

variable [DecidableEq κ]

def put (o : Overlay κ ν) (k : κ) (v : ν) : Overlay κ ν where
  pending := Function.update o.pending k (some v)
  order := if (o.pending k).isSome then o.order else o.order ++ [k]

theorem look_put (base : κ → ν) (o : Overlay κ ν) (k : κ) (v : ν) :
    (o.put k v).look base = Function.update (o.look base) k v := by
  funext j
  by_cases hj : j = k
  · subst hj
    simp [look, put]
  · simp [look, put, hj]

theorem WellOrdered.put {o : Overlay κ ν} (h : o.WellOrdered) (k : κ) (v : ν) :
    (o.put k v).WellOrdered where
  nodup := by
    unfold Overlay.put
    by_cases hk : (o.pending k).isSome = true
    · simpa [hk] using h.nodup
    · simp only [hk, if_false, Bool.false_eq_true]
      refine List.Nodup.append h.nodup (List.nodup_singleton k) ?_
      intro j hj hjk
      rw [List.mem_singleton] at hjk
      subst hjk
      exact hk ((h.mem_order j).mp hj)
  mem_order := by
    intro j
    unfold Overlay.put
    by_cases hk : (o.pending k).isSome = true
    · by_cases hj : j = k
      · subst hj
        simpa [hk] using (h.mem_order j).mpr hk
      · simp [hk, hj, h.mem_order]
    · by_cases hj : j = k
      · subst hj
        simp [hk]
      · simp [hk, hj, h.mem_order]

/-- Writing listed keys one after the other, each at its pending value. -/
def flush (pending : κ → ν) : List κ → (κ → ν) → κ → ν
  | [], base => base
  | k :: ks, base => flush pending ks (Function.update base k (pending k))

variable {pending : κ → ν}

theorem flush_of_not_mem {ks : List κ} {base : κ → ν} {j : κ}
    (h : j ∉ ks) : flush pending ks base j = base j := by
  induction ks generalizing base with
  | nil => rfl
  | cons k ks ih =>
      rw [List.mem_cons, not_or] at h
      rw [flush, ih h.2, Function.update_of_ne h.1]

theorem flush_of_mem {ks : List κ} {base : κ → ν} {j : κ}
    (h : j ∈ ks) : flush pending ks base j = pending j := by
  induction ks generalizing base with
  | nil => cases h
  | cons k ks ih =>
      rw [flush]
      by_cases hj : j ∈ ks
      · exact ih hj
      · rw [flush_of_not_mem hj]
        rcases List.mem_cons.mp h with rfl | hmem
        · exact Function.update_self _ _ _
        · exact absurd hmem hj

theorem flush_eq_look {o : Overlay κ ν} (h : o.WellOrdered)
    (hpending : ∀ k v, o.pending k = some v → pending k = v) (base : κ → ν) :
    flush pending o.order base = o.look base := by
  funext j
  by_cases hj : j ∈ o.order
  · obtain ⟨v, hv⟩ := Option.isSome_iff_exists.mp ((h.mem_order j).mp hj)
    rw [flush_of_mem hj, hpending j v hv, look, hv, Option.getD_some]
  · have hnone : o.pending j = none := by
      rw [← Option.not_isSome_iff_eq_none]
      exact fun hsome => hj ((h.mem_order j).mpr hsome)
    rw [flush_of_not_mem hj, look, hnone, Option.getD_none]

end Overlay

section Rebuilt

variable {α : Type w} {κ : Type u} {ν : Type v} [DecidableEq κ] {key : α → κ} {value : α → ν}
  {base base' : κ → ν} {log : List α} {k : κ}

/-- The map a log leaves when each of its entries writes its key. -/
def rebuilt (key : α → κ) (value : α → ν) (base : κ → ν) (log : List α) : κ → ν :=
  log.foldl (fun map entry => Function.update map (key entry) (value entry)) base

theorem rebuilt_append (base : κ → ν) (before after : List α) :
    rebuilt key value base (before ++ after) =
      rebuilt key value (rebuilt key value base before) after :=
  List.foldl_append

/-- Entries that write another key may be left out. -/
theorem rebuilt_filter {p : α → Bool} (hbase : base k = base' k)
    (hp : ∀ entry ∈ log, key entry = k → p entry = true) :
    rebuilt key value base (log.filter p) k = rebuilt key value base' log k := by
  induction log generalizing base base' with
  | nil => exact hbase
  | cons entry log ih =>
      have hrest : ∀ e ∈ log, key e = k → p e = true :=
        fun e he => hp e (List.mem_cons_of_mem entry he)
      by_cases hentry : p entry = true
      · rw [List.filter_cons_of_pos hentry]
        refine ih ?_ hrest
        change Function.update base _ _ k = Function.update base' _ _ k
        rw [Function.update_apply, Function.update_apply, hbase]
      · rw [List.filter_cons_of_neg hentry]
        refine ih ?_ hrest
        have hne : k ≠ key entry :=
          fun heq => hentry (hp entry List.mem_cons_self heq.symm)
        rw [hbase]
        exact (Function.update_of_ne hne (value entry) base').symm

end Rebuilt

end Library
