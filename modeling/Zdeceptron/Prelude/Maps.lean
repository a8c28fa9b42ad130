import Zdeceptron.Wire.RoundTrip

/-!
# The map library of the prelude

A map is a `Map` of the host, or a chain of writes over one that is flattened when it is read.
The library walks it by the position of its keys, looks every key up again and rebuilds it by
further writes.
-/

namespace Zdeceptron
namespace Prelude

open Library

section Tables

inductive Key
  | text (units : Units)
  | number (value : Float)
  | truth (value : Bool)
  | object (reference : Nat)
  deriving DecidableEq

/-- The key a `Map` stores: `-0` becomes `0`. -/
def Key.stored : Key → Key
  | .number value => .number (unsignedZero value)
  | key => key

/-- The equality of a `Map`, which is SameValueZero. -/
def Key.same (a b : Key) : Bool := a.stored = b.stored

def Key.isNaN : Key → Bool
  | .number value => value.isNaN
  | _ => false

/-- `is`, which is `===`. -/
def Key.is (a b : Key) : Bool := a.same b && !a.isNaN

/-- The entries of a `Map`, in the order they were first set. -/
@[ext]
structure Entries (V : Type) where
  list : List (Key × V)
  stored : ∀ p ∈ list, p.1.stored = p.1
  distinct : (list.map Prod.fst).Nodup

variable {V : Type}

/-- `Map.prototype.set`. -/
def putEntry (entries : List (Key × V)) (key : Key) (value : V) : List (Key × V) :=
  if entries.any (fun p => p.1.same key) then
    entries.map fun p => if p.1.same key then (p.1, value) else p
  else entries ++ [(key.stored, value)]

theorem Key.stored_stored (key : Key) : key.stored.stored = key.stored := by
  cases key with
  | number value => rw [stored, stored, Wire.unsignedZero_idem]
  | _ => rfl

theorem keys_putEntry (entries : List (Key × V)) (key : Key) (value : V) :
    (putEntry entries key value).map Prod.fst =
      entries.map Prod.fst ++
        if entries.any (fun p => p.1.same key) then [] else [key.stored] := by
  rw [putEntry]
  split
  · rw [List.map_map, List.append_nil]
    refine List.map_congr_left fun p _ => ?_
    simp only [Function.comp_apply]
    split
    · rfl
    · rfl
  · rw [List.map_append]
    rfl

def Entries.set (entries : Entries V) (key : Key) (value : V) : Entries V where
  list := putEntry entries.list key value
  stored := by
    intro p hp
    have hmem : p.1 ∈ (putEntry entries.list key value).map Prod.fst := List.mem_map_of_mem hp
    rw [keys_putEntry, List.mem_append] at hmem
    rcases hmem with hmem | hmem
    · obtain ⟨q, hq, heq⟩ := List.mem_map.mp hmem
      rw [← heq, entries.stored q hq]
    · split at hmem
      · cases hmem
      · rw [List.mem_singleton.mp hmem, Key.stored_stored]
  distinct := by
    rw [keys_putEntry]
    split
    · rw [List.append_nil]
      exact entries.distinct
    · rename_i hany
      refine List.nodup_append.mpr ⟨entries.distinct, List.nodup_singleton _, ?_⟩
      intro a ha b hb hab
      obtain ⟨p, hp, rfl⟩ := List.mem_map.mp ha
      refine hany (List.any_eq_true.mpr ⟨p, hp, ?_⟩)
      rw [Key.same, hab, List.mem_singleton.mp hb, Key.stored_stored, decide_eq_true_eq]

/-- A `Map`, or a write that is not yet made over one. -/
inductive Table (V : Type)
  | map (entries : Entries V)
  | write (base : Table V) (key : Key) (value : V)

def mapForce : Table V → Entries V
  | .map entries => entries
  | .write base key value => (mapForce base).set key value

def mapAt (value : Table V) (key : Key) : Option V :=
  ((mapForce value).list.find? fun p => p.1.same key).map Prod.snd

def keyArray (value : Table V) : List Key := (mapForce value).list.map Prod.fst

def empty : Table V := .map ⟨[], fun _ h => absurd h List.not_mem_nil, List.nodup_nil⟩

end Tables

section Library

variable {α σ V W : Type}

/-- A function of the library that reads positions from `index` on. -/
def walk (items : List α) (step : α → σ → σ) (index : Nat) (taken : σ) : σ :=
  match hitem : items[index]? with
  | none => taken
  | some item => walk items step (index + 1) (step item taken)
termination_by items.length - index
decreasing_by
  obtain ⟨hlt, -⟩ := List.getElem?_eq_some_iff.mp hitem
  omega

def keys (table : Table V) : List Key :=
  walk (keyArray table) (fun key taken => taken ++ [key]) 0 []

def values (table : Table V) : List V :=
  walk (keyArray table) (fun key taken =>
    (mapAt table key).elim taken fun value => taken ++ [value]) 0 []

def mapContains (table : Table V) (key : Key) : Bool := (mapAt table key).isSome

def entries (table : Table V) : List (Key × V) :=
  walk (keyArray table) (fun key taken =>
    (mapAt table key).elim taken fun value => taken ++ [(key, value)]) 0 []

def mapOf (pairs : List (Key × V)) : Table V :=
  walk pairs (fun entry taken => .write taken entry.1 entry.2) 0 empty

def mapRemove (table : Table V) (key : Key) : Table V :=
  walk (keyArray table) (fun held taken =>
    if held.is key then taken
    else (mapAt table held).elim taken fun value => .write taken held value) 0 empty

def mapMerge (base extra : Table V) : Table V :=
  walk (keyArray extra) (fun key base =>
    (mapAt extra key).elim base fun value => .write base key value) 0 base

def zipFrom (left : List α) (right : List W) (index : Nat) (taken : List (α × W)) :
    List (α × W) :=
  match _hitem : left[index]? with
  | none => taken
  | some here =>
      match right[index]? with
      | none => taken
      | some there => zipFrom left right (index + 1) (taken ++ [(here, there)])
termination_by left.length - index
decreasing_by
  obtain ⟨hlt, -⟩ := List.getElem?_eq_some_iff.mp _hitem
  omega

def mapValues (table : Table V) (values : List W) : Table W :=
  mapOf (zipFrom (keys table) values 0 [])

end Library

section Walks

variable {α σ V W : Type}

theorem walk_eq (items : List α) (step : α → σ → σ) (index : Nat) (taken : σ) :
    walk items step index taken =
      (items.drop index).foldl (fun taken item => step item taken) taken := by
  fun_induction walk items step index taken with
  | case1 index taken hitem =>
      rw [List.drop_eq_nil_of_le (List.getElem?_eq_none_iff.mp hitem), List.foldl_nil]
  | case2 index taken item hitem ih =>
      obtain ⟨hlt, hat⟩ := List.getElem?_eq_some_iff.mp hitem
      rw [ih, List.drop_eq_getElem_cons hlt, List.foldl_cons, hat]

theorem zipFrom_eq (left : List α) (right : List W) (index : Nat) (taken : List (α × W)) :
    zipFrom left right index taken = taken ++ (left.drop index).zip (right.drop index) := by
  fun_induction zipFrom left right index taken with
  | case1 index taken hitem =>
      rw [List.drop_eq_nil_of_le (List.getElem?_eq_none_iff.mp hitem), List.zip_nil_left,
        List.append_nil]
  | case2 index taken here hitem hother =>
      rw [List.drop_eq_nil_of_le (List.getElem?_eq_none_iff.mp hother), List.zip_nil_right,
        List.append_nil]
  | case3 index taken here hitem there hother ih =>
      obtain ⟨hlt, hat⟩ := List.getElem?_eq_some_iff.mp hitem
      obtain ⟨hlt', hat'⟩ := List.getElem?_eq_some_iff.mp hother
      rw [ih, List.drop_eq_getElem_cons hlt, List.drop_eq_getElem_cons hlt', List.zip_cons_cons,
        hat, hat', List.append_assoc, List.singleton_append]

theorem mapAt_of_mem {table : Table V} {p : Key × V} (h : p ∈ (mapForce table).list) :
    mapAt table p.1 = some p.2 := by
  have hdistinct := (mapForce table).distinct
  have hstored := (mapForce table).stored
  rw [mapAt]
  generalize (mapForce table).list = list at h hdistinct hstored
  induction list with
  | nil => cases h
  | cons q list ih =>
      obtain ⟨hq, hstored⟩ := List.forall_mem_cons.mp hstored
      obtain ⟨hnew, hdistinct⟩ := List.nodup_cons.mp hdistinct
      rcases List.mem_cons.mp h with rfl | h
      · rw [List.find?_cons_of_pos (by simp [Key.same])]
        rfl
      · have hother : ¬ q.1.same p.1 = true := by
          rw [Key.same, decide_eq_true_eq, hq, hstored p h]
          exact fun heq => hnew (heq ▸ List.mem_map_of_mem h)
        rw [List.find?_cons_of_neg (by exact hother), ih h hdistinct hstored]

variable (table : Table V)

theorem walk_entries (step : Key → Option V → σ → σ) (taken : σ) :
    walk (keyArray table) (fun key taken => step key (mapAt table key) taken) 0 taken =
      (mapForce table).list.foldl (fun taken p => step p.1 (some p.2) taken) taken := by
  rw [walk_eq, List.drop_zero, keyArray, List.foldl_map]
  refine List.foldl_ext _ _ _ fun taken p hp => ?_
  rw [mapAt_of_mem hp]

theorem foldl_append_map (f : α → W) (list : List α) (taken : List W) :
    list.foldl (fun taken a => taken ++ [f a]) taken = taken ++ list.map f := by
  induction list generalizing taken with
  | nil => simp
  | cons a list ih => rw [List.foldl_cons, ih, List.map_cons, List.append_assoc]; rfl

theorem keys_eq : keys table = (mapForce table).list.map Prod.fst := by
  rw [keys, walk_entries table fun key _ taken => taken ++ [key], foldl_append_map]
  rfl

theorem values_eq : values table = (mapForce table).list.map Prod.snd := by
  rw [values, walk_entries table fun _ value taken =>
    value.elim taken fun value => taken ++ [value]]
  exact foldl_append_map _ _ _

theorem entries_eq : entries table = (mapForce table).list := by
  rw [entries, walk_entries table fun key value taken =>
    value.elim taken fun value => taken ++ [(key, value)]]
  exact (foldl_append_map _ _ _).trans (List.map_id _)

end Walks

section Writes

variable {V : Type}

def writes (table : Table V) (pairs : List (Key × V)) : Table V :=
  pairs.foldl (fun taken p => .write taken p.1 p.2) table

def Distinct (pairs : List (Key × V)) : Prop :=
  (∀ p ∈ pairs, p.1.stored = p.1) ∧ (pairs.map Prod.fst).Nodup

variable (table : Table V)

theorem distinct_entries : Distinct (mapForce table).list :=
  ⟨(mapForce table).stored, (mapForce table).distinct⟩

variable {pairs : List (Key × V)}

theorem Distinct.filter (h : Distinct pairs) (p : Key × V → Bool) :
    Distinct (pairs.filter p) :=
  ⟨fun q hq => h.1 q (List.mem_filter.mp hq).1, h.2.sublist (List.filter_sublist.map Prod.fst)⟩

theorem Key.same_iff {a b : Key} : a.same b = true ↔ a.stored = b.stored := decide_eq_true_iff

theorem mapContains_eq (key : Key) :
    mapContains table key = (mapForce table).list.any fun p => p.1.same key := by
  rw [mapContains, mapAt, Option.isSome_map, List.isSome_find?]

theorem force_write (key : Key) (value : V) :
    (mapForce (.write table key value)).list = putEntry (mapForce table).list key value := rfl

theorem mapAt_write (key other : Key) (value : V) :
    mapAt (.write table key value) other =
      if key.same other then some value else mapAt table other := by
  rw [mapAt, mapAt, force_write]
  generalize (mapForce table).list = list
  rw [putEntry]
  split
  · rename_i hany
    have hcomp : ((fun p : Key × V => p.1.same other) ∘
        fun p : Key × V => if p.1.same key then (p.1, value) else p) = fun p => p.1.same other := by
      funext p
      simp only [Function.comp_apply]
      split
      · rfl
      · rfl
    rw [List.find?_map, hcomp, Option.map_map]
    by_cases hsame : key.same other = true
    · obtain ⟨p, hp, hkey⟩ := List.any_eq_true.mp hany
      have hfound : (list.find? fun p => p.1.same other).isSome = true := List.find?_isSome.mpr
        ⟨p, hp, Key.same_iff.mpr ((Key.same_iff.mp hkey).trans (Key.same_iff.mp hsame))⟩
      obtain ⟨q, hq⟩ := Option.isSome_iff_exists.mp hfound
      have hqother : q.1.same other = true := by simpa using List.find?_some hq
      have hqsame : q.1.same key = true := Key.same_iff.mpr
        ((Key.same_iff.mp hqother).trans (Key.same_iff.mp hsame).symm)
      rw [hq, if_pos hsame, Option.map_some, Function.comp_apply, if_pos hqsame]
    · rw [if_neg hsame]
      refine Option.map_congr fun q hq => ?_
      have hqother : q.1.same other = true := by simpa using List.find?_some hq
      rw [Function.comp_apply, if_neg]
      exact fun hqsame => hsame (Key.same_iff.mpr
        ((Key.same_iff.mp hqsame).symm.trans (Key.same_iff.mp hqother)))
  · rename_i hany
    rw [List.find?_append]
    by_cases hsame : key.same other = true
    · have hnone : list.find? (fun p => p.1.same other) = none :=
        List.find?_eq_none.mpr fun p hp hpsame => hany (List.any_eq_true.mpr ⟨p, hp,
          Key.same_iff.mpr ((Key.same_iff.mp hpsame).trans (Key.same_iff.mp hsame).symm)⟩)
      have hstored : key.stored.same other = true := Key.same_iff.mpr
        (key.stored_stored.trans (Key.same_iff.mp hsame))
      rw [hnone, if_pos hsame, List.find?_cons_of_pos (by exact hstored)]
      rfl
    · have hstored : ¬ key.stored.same other = true := fun h => hsame (Key.same_iff.mpr
        (key.stored_stored.symm.trans (Key.same_iff.mp h)))
      rw [if_neg hsame, List.find?_cons_of_neg (by exact hstored), List.find?_nil, Option.or_none]

theorem mapAt_writes (h : Distinct pairs) (table : Table V) (key : Key) :
    mapAt (writes table pairs) key =
      ((pairs.find? fun p => p.1.same key).map Prod.snd).or (mapAt table key) := by
  induction pairs generalizing table with
  | nil => rfl
  | cons p pairs ih =>
      obtain ⟨hfirst, hstored⟩ := List.forall_mem_cons.mp h.1
      obtain ⟨hnew, hnodup⟩ := List.nodup_cons.mp h.2
      rw [writes, List.foldl_cons, ← writes, ih ⟨hstored, hnodup⟩, mapAt_write]
      by_cases hsame : p.1.same key = true
      · have hnone : pairs.find? (fun q => q.1.same key) = none := by
          refine List.find?_eq_none.mpr fun q hq hqsame => hnew ?_
          simp only [Key.same_iff, hfirst, hstored q hq] at hsame hqsame
          rw [hsame, ← hqsame]
          exact List.mem_map_of_mem hq
        rw [hnone, if_pos hsame, List.find?_cons_of_pos (by exact hsame)]
        rfl
      · rw [if_neg hsame, List.find?_cons_of_neg (by exact hsame)]

theorem keys_writes (h : Distinct pairs) (table : Table V) :
    keys (writes table pairs) =
      keys table ++ (pairs.map Prod.fst).filter fun key => !mapContains table key := by
  induction pairs generalizing table with
  | nil => simp [writes]
  | cons p pairs ih =>
      obtain ⟨hfirst, hstored⟩ := List.forall_mem_cons.mp h.1
      obtain ⟨hnew, hnodup⟩ := List.nodup_cons.mp h.2
      have hkeys : keys (.write table p.1 p.2) =
          keys table ++ if mapContains table p.1 then [] else [p.1] := by
        rw [keys_eq, force_write, keys_putEntry, keys_eq, hfirst, mapContains_eq]
      have hrest : (pairs.map Prod.fst).filter
          (fun key => !mapContains (.write table p.1 p.2) key) =
            (pairs.map Prod.fst).filter fun key => !mapContains table key := by
        refine List.filter_congr fun key hkey => ?_
        obtain ⟨q, hq, rfl⟩ := List.mem_map.mp hkey
        rw [mapContains, mapAt_write, if_neg, mapContains]
        rw [Key.same_iff, hfirst, hstored q hq]
        exact fun heq => hnew (heq ▸ hkey)
      rw [writes, List.foldl_cons, ← writes, ih ⟨hstored, hnodup⟩, hkeys, hrest,
        List.append_assoc, List.map_cons, List.filter_cons]
      cases mapContains table p.1 with
      | true => rfl
      | false => rfl

theorem force_writes (h : Distinct pairs) (table : Table V)
    (hnew : ∀ p ∈ pairs, mapContains table p.1 = false) :
    (mapForce (writes table pairs)).list = (mapForce table).list ++ pairs := by
  induction pairs generalizing table with
  | nil => simp [writes]
  | cons p pairs ih =>
      obtain ⟨hfirst, hstored⟩ := List.forall_mem_cons.mp h.1
      obtain ⟨hfresh, hnodup⟩ := List.nodup_cons.mp h.2
      obtain ⟨habsent, hlater⟩ := List.forall_mem_cons.mp hnew
      rw [mapContains_eq] at habsent
      have hput : (mapForce (.write table p.1 p.2)).list = (mapForce table).list ++ [p] := by
        rw [force_write, putEntry, habsent, hfirst]
        rfl
      rw [writes, List.foldl_cons, ← writes, ih ⟨hstored, hnodup⟩, hput, List.append_assoc]
      · rfl
      · intro q hq
        rw [mapContains, mapAt_write, if_neg]
        · exact hlater q hq
        · rw [Key.same_iff, hfirst, hstored q hq]
          exact fun heq => hfresh (heq ▸ List.mem_map_of_mem hq)

theorem force_written (h : Distinct pairs) :
    (mapForce (writes empty pairs)).list = pairs :=
  force_writes h empty fun _ _ => rfl

end Writes

section Laws

variable {V : Type}

theorem mapOf_eq (pairs : List (Key × V)) : mapOf pairs = writes empty pairs := by
  rw [mapOf, walk_eq, List.drop_zero]
  rfl

variable (table : Table V)

theorem mapOf_entries : mapForce (mapOf (entries table)) = mapForce table := by
  rw [mapOf_eq, entries_eq]
  exact Entries.ext (force_written (distinct_entries table))

theorem mapValues_values :
    mapForce (mapValues table (values table)) = mapForce table := by
  have hzip : ((mapForce table).list.map Prod.fst).zip ((mapForce table).list.map Prod.snd) =
      (mapForce table).list := (List.zip_of_prod rfl rfl).symm
  rw [mapValues, zipFrom_eq, keys_eq, values_eq, List.drop_zero, List.drop_zero,
    List.nil_append, hzip, ← entries_eq, mapOf_entries]

theorem mapRemove_entries (key : Key) :
    entries (mapRemove table key) = (entries table).filter fun p => !p.1.is key := by
  have hfold : mapRemove table key =
      writes empty ((mapForce table).list.filter fun p => !p.1.is key) := by
    refine (walk_entries table (fun held value taken =>
      if held.is key then taken else value.elim taken fun value => Table.write taken held value)
      empty).trans ?_
    rw [writes, List.foldl_filter]
    refine List.foldl_ext _ _ _ fun taken p _ => ?_
    cases p.1.is key with
    | true => rfl
    | false => rfl
  rw [entries_eq, entries_eq, hfold, force_written ((distinct_entries table).filter _)]

theorem mapMerge_eq (base extra : Table V) :
    mapMerge base extra = writes base (entries extra) := by
  rw [entries_eq]
  exact walk_entries extra (fun key value base =>
    value.elim base fun value => Table.write base key value) base

theorem isNaN_unsignedZero (x : Float) : (unsignedZero x).isNaN = x.isNaN := by
  rw [unsignedZero]
  cases hx : x.toModel.unpack with
  | zero sign =>
      have hmodel : x.toModel.unpack.isNaN = false := by rw [hx]; rfl
      have hzero : (ofDecimal ⟨0, 0⟩).isNaN = false := by decide +kernel
      rw [hzero]
      exact hmodel.symm
  | _ => rfl

theorem Key.isNaN_stored (key : Key) : key.stored.isNaN = key.isNaN := by
  cases key with
  | number value => exact isNaN_unsignedZero value
  | _ => rfl

theorem Key.is_eq (held key : Key) : held.is key = (held.same key && !key.isNaN) := by
  rw [Key.is]
  cases hsame : held.same key with
  | false => rfl
  | true => rw [← Key.isNaN_stored held, Key.same_iff.mp hsame, Key.isNaN_stored]

structure Lawful (table base extra : Table V) (key : Key) : Prop where
  mapOf : mapForce (mapOf (entries table)) = mapForce table
  keys : (entries table).map Prod.fst = keys table
  values : (entries table).map Prod.snd = values table
  found : ∀ p ∈ entries table, mapAt table p.1 = some p.2
  removed : mapContains (mapRemove table key) key = false
  kept : entries (mapRemove table key) = (entries table).filter fun p => !p.1.same key
  merged : ∀ other, mapAt (mapMerge base extra) other = (mapAt extra other).or (mapAt base other)
  order : Prelude.keys (mapMerge base extra) =
    Prelude.keys base ++ (Prelude.keys extra).filter fun other => !mapContains base other
  mapValues : mapForce (mapValues table (Prelude.values table)) = mapForce table

theorem mapMerge_spec (base extra : Table V) :
    (∀ other, mapAt (mapMerge base extra) other = (mapAt extra other).or (mapAt base other)) ∧
      keys (mapMerge base extra) =
        keys base ++ (keys extra).filter fun other => !mapContains base other := by
  have hdistinct := distinct_entries extra
  rw [mapMerge_eq, entries_eq]
  refine ⟨fun other => ?_, ?_⟩
  · rw [mapAt_writes hdistinct]
    rfl
  · rw [keys_writes hdistinct, keys_eq extra]

theorem removed_iff (key : Key) :
    (mapContains (mapRemove table key) key = false ∧
        entries (mapRemove table key) = (entries table).filter fun p => !p.1.same key) ↔
      ¬ (key.isNaN = true ∧ mapContains table key = true) := by
  have hcontains : mapContains (mapRemove table key) key =
      ((entries table).filter fun p => !p.1.is key).any fun p => p.1.same key := by
    rw [mapContains_eq, ← entries_eq, mapRemove_entries]
  rw [hcontains, mapRemove_entries, mapContains_eq, ← entries_eq]
  simp only [Key.is_eq]
  cases key.isNaN with
  | false => simp
  | true =>
      simp only [Bool.not_true, Bool.and_false, Bool.not_false, List.filter_true, true_and]
      constructor
      · rintro ⟨habsent, -⟩ hpresent
        rw [habsent] at hpresent
        cases hpresent
      · intro h
        refine ⟨Bool.eq_false_iff.mpr h, (List.filter_eq_self.mpr fun p hp => ?_).symm⟩
        rw [Bool.not_eq_true']
        exact Bool.eq_false_iff.mpr fun hsame => h (List.any_eq_true.mpr ⟨p, hp, hsame⟩)

/-- The library keeps its promises unless a `NaN` is to be removed that the map has. -/
theorem lawful_iff (table base extra : Table V) (key : Key) :
    Lawful table base extra key ↔ ¬ (key.isNaN = true ∧ mapContains table key = true) := by
  constructor
  · exact fun h => (removed_iff table key).mp ⟨h.removed, h.kept⟩
  · intro h
    obtain ⟨hremoved, hkept⟩ := (removed_iff table key).mpr h
    obtain ⟨hmerged, horder⟩ := mapMerge_spec base extra
    exact ⟨mapOf_entries table, by rw [entries_eq, keys_eq], by rw [entries_eq, values_eq],
      fun p hp => mapAt_of_mem (entries_eq table ▸ hp), hremoved, hkept, hmerged, horder,
      mapValues_values table⟩

theorem not_lawful_nan :
    ¬ Lawful (.write empty (.number (Float.ofNat 0 / Float.ofNat 0)) true) empty empty
      (.number (Float.ofNat 0 / Float.ofNat 0)) := by
  have hnan : (Float.ofNat 0 / Float.ofNat 0).isNaN = true := by decide +kernel
  intro h
  refine (removed_iff _ _).mp ⟨h.removed, h.kept⟩ ⟨hnan, ?_⟩
  rw [mapContains, mapAt_write, if_pos (Key.same_iff.mpr rfl)]
  rfl

end Laws

end Prelude
end Zdeceptron
