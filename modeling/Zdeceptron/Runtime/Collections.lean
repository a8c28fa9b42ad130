import Mathlib.Data.List.Nodup
import Zdeceptron.Library.Chains

/-!
# Lists and maps that share what they are built from

An appended list and a written map are links, `$Ap` and `$MapSet`, which are forced when they
are read; a read of a map's keys by position is cached by the map that was forced.  Beside them
stand the plain collections of the language.
-/

namespace Zdeceptron
namespace Runtime

open Library

section Tables

variable {K V : Type} [DecidableEq K]

/-- The entries of a map after a write: a key that is there keeps its place. -/
def setEntry (key : K) (value : V) : List (K × V) → List (K × V)
  | [] => [(key, value)]
  | entry :: entries =>
      if entry.1 = key then (entry.1, value) :: entries else entry :: setEntry key value entries

theorem setEntry_keys (key : K) (value : V) (entries : List (K × V)) :
    (setEntry key value entries).map Prod.fst =
      if key ∈ entries.map Prod.fst then entries.map Prod.fst
      else entries.map Prod.fst ++ [key] := by
  induction entries with
  | nil => rfl
  | cons entry entries ih =>
      rw [setEntry]
      by_cases hkey : entry.1 = key
      · simp [hkey]
      · rw [if_neg hkey, List.map_cons, ih]
        simp only [List.map_cons, List.mem_cons, Ne.symm hkey, false_or]
        split_ifs <;> rfl

/-- A map: its entries, in the order in which their keys were first written. -/
structure Table (K V : Type) where
  entries : List (K × V)
  nodup : (entries.map Prod.fst).Nodup

namespace Table

omit [DecidableEq K] in
@[ext] theorem ext {m m' : Table K V} (h : m.entries = m'.entries) : m = m' := by
  cases m
  cases m'
  congr

def empty : Table K V := ⟨[], List.nodup_nil⟩

/-- `Map.prototype.set`. -/
def set (m : Table K V) (key : K) (value : V) : Table K V where
  entries := setEntry key value m.entries
  nodup := by
    rw [setEntry_keys]
    split_ifs with hkey
    · exact m.nodup
    · exact m.nodup.append (List.nodup_singleton key) (List.disjoint_singleton.mpr hkey)

/-- `Map.prototype.get`, where the key is there. -/
def get (m : Table K V) (key : K) : Option V := m.entries.lookup key

def keys (m : Table K V) : List K := m.entries.map Prod.fst

/-- `new Map` of entries. -/
def ofEntries (entries : List (K × V)) : Table K V :=
  entries.foldl (fun m entry => m.set entry.1 entry.2) empty

def remove (m : Table K V) (is : K → K → Bool) (key : K) : Table K V where
  entries := m.entries.filter (fun entry => !is entry.1 key)
  nodup := m.nodup.sublist ((List.filter_sublist).map Prod.fst)

theorem set_of_not_mem {m : Table K V} {key : K} (h : key ∉ m.keys) (value : V) :
    (m.set key value).entries = m.entries ++ [(key, value)] := by
  unfold set keys at *
  dsimp only
  generalize m.entries = entries at h
  induction entries with
  | nil => rfl
  | cons entry entries ih =>
      rw [List.map_cons, List.mem_cons, not_or] at h
      rw [setEntry, if_neg (Ne.symm h.1), ih h.2, List.cons_append]

theorem foldl_set (entries : List (K × V)) (m : Table K V)
    (h : (m.keys ++ entries.map Prod.fst).Nodup) :
    (entries.foldl (fun m entry => m.set entry.1 entry.2) m).entries = m.entries ++ entries := by
  induction entries generalizing m with
  | nil => rw [List.foldl_nil, List.append_nil]
  | cons entry entries ih =>
      have hkey : entry.1 ∉ m.keys := fun hmem =>
        List.disjoint_of_nodup_append h hmem (List.mem_map_of_mem List.mem_cons_self)
      have hset := set_of_not_mem hkey entry.2
      have hkeys : (m.set entry.1 entry.2).keys = m.keys ++ [entry.1] := by
        rw [keys, hset, List.map_append]
        rfl
      rw [List.foldl_cons, ih, hset, List.append_assoc]
      · rfl
      · rw [hkeys, List.append_assoc]
        exact h

theorem ofEntries_entries (m : Table K V) : ofEntries m.entries = m :=
  ext (foldl_set m.entries empty m.nodup)

end Table

end Tables

section Operations

variable (K V : Type)

/-- What a program does with its lists and maps, which it refers to by number.  An index is
`none` where it is not an integer. -/
inductive Operation
  | list (items : List V)
  | map (entries : List (K × V))
  | append (x : Nat) (item : V)
  | mapSet (x : Nat) (key : K) (value : V)
  /-- `remove key from table`. -/
  | remove (x : Nat) (key : K)
  /-- `$force` or `$mapForce`, whose answer is a value of the program. -/
  | force (x : Nat)
  | listAt (x : Nat) (index : Option Int)
  /-- The iterator, the length and `toJSON` of a list. -/
  | elements (x : Nat)
  | mapAt (x : Nat) (key : K)
  | mapKeyAt (x : Nat) (index : Option Int)
  /-- The iterator, the size and `toJSON` of a map. -/
  | entries (x : Nat)

inductive Answer
  | made (x : Nat)
  | element (found : Option V)
  | key (found : Option K)
  | elements (items : List V)
  | entries (entries : List (K × V))

/-- A program over its lists and maps; what it does next may depend on what it has read. -/
inductive Client
  | stop
  | perform (op : Operation K V) (next : Answer K V → Client)

inductive Kind (α β : Type)
  | list (a : α)
  | map (b : β)

variable {K V}

/-- The element at a position: `Number.isInteger(i) && i >= 0 && i < xs.length`. -/
def elementAt {α : Type} (items : List α) : Option Int → Option α
  | none => none
  | some i => if 0 ≤ i then items[i.toNat]? else none

def Client.run {σ : Type} (step : σ → Operation K V → Option (Answer K V × σ)) :
    Client K V → σ → List (Answer K V) × σ
  | .stop, s => ([], s)
  | .perform op next, s =>
      match step s op with
      | none => ([], s)
      | some (answer, s') =>
          (answer :: (run step (next answer) s').1, (run step (next answer) s').2)

end Operations

section Script

variable {K V : Type} [DecidableEq K] (is : K → K → Bool)

def setItem (m : Table K V) (entry : K × V) : Table K V := m.set entry.1 entry.2

def pushItem (items : List V) (item : V) : List V := items ++ [item]

/-- The objects of the script: arrays and `$Ap`s, maps and `$MapSet`s, the keys cached for a
map, and what the program's numbers refer to. -/
structure Js (K V : Type) where
  lists : Heap (List V) V
  maps : Heap (Table K V) (K × V)
  mapKeys : Nat → Option (List K)
  vars : List (Kind Nat Nat)

namespace Js

def start : Js K V := ⟨[], [], fun _ => none, []⟩

def listOf (js : Js K V) (x : Nat) : Option Nat :=
  match js.vars[x]? with
  | some (.list a) => some a
  | _ => none

def mapOf (js : Js K V) (x : Nat) : Option Nat :=
  match js.vars[x]? with
  | some (.map a) => some a
  | _ => none

def makeList (js : Js K V) (node : Node (List V) V) : Answer K V × Js K V :=
  (.made js.vars.length,
    { js with
      lists := (js.lists.alloc node).2
      vars := js.vars ++ [.list (js.lists.alloc node).1] })

def makeMap (js : Js K V) (node : Node (Table K V) (K × V)) : Answer K V × Js K V :=
  (.made js.vars.length,
    { js with
      maps := (js.maps.alloc node).2
      vars := js.vars ++ [.map (js.maps.alloc node).1] })

/-- `$force`, with the elements of the array it finds. -/
def forceList (js : Js K V) (x : Nat) : Option (Nat × List V × Js K V) := do
  let a ← js.listOf x
  let (f, lists) ← js.lists.force pushItem false a
  let items ← lists.content f
  return (f, items, { js with lists := lists })

/-- `$mapForce`, with the map it finds. -/
def forceMap (js : Js K V) (x : Nat) : Option (Nat × Table K V × Js K V) := do
  let a ← js.mapOf x
  let (f, maps) ← js.maps.force setItem true a
  let m ← maps.content f
  return (f, m, { js with maps := maps })

/-- The keys of a map that has been forced: those cached for it, or its own. -/
def keysOf (js : Js K V) (f : Nat) (m : Table K V) : List K × Js K V :=
  match js.mapKeys f with
  | some keys => (keys, js)
  | none => (m.keys, { js with mapKeys := Function.update js.mapKeys f (some m.keys) })

def named (js : Js K V) (var : Kind Nat Nat) : Answer K V × Js K V :=
  (.made js.vars.length, { js with vars := js.vars ++ [var] })

def step (js : Js K V) : Operation K V → Option (Answer K V × Js K V)
  | .list items => some (js.makeList (.plain items))
  | .map entries => some (js.makeMap (.plain (Table.ofEntries entries)))
  | .append x item => do
      let a ← js.listOf x
      return js.makeList (.link (some a) item none)
  | .mapSet x key value => do
      let a ← js.mapOf x
      return js.makeMap (.link (some a) (key, value) none)
  | .remove x key => do
      let (_, m, js) ← js.forceMap x
      return js.makeMap (.plain (.ofEntries (m.remove is key).entries))
  | .force x =>
      match js.vars[x]? with
      | some (.list _) => do
          let (f, _, js) ← js.forceList x
          return js.named (.list f)
      | some (.map _) => do
          let (f, _, js) ← js.forceMap x
          return js.named (.map f)
      | none => none
  | .listAt x index => do
      let (_, items, js) ← js.forceList x
      return (.element (elementAt items index), js)
  | .elements x => do
      let (_, items, js) ← js.forceList x
      return (.elements items, js)
  | .mapAt x key => do
      let (_, m, js) ← js.forceMap x
      return (.element (m.get key), js)
  | .mapKeyAt x index => do
      let (f, m, js) ← js.forceMap x
      let (keys, js) := js.keysOf f m
      return (.key (elementAt keys index), js)
  | .entries x => do
      let (_, m, js) ← js.forceMap x
      return (.entries m.entries, js)

end Js

end Script

section Values

variable {K V : Type} [DecidableEq K] (is : K → K → Bool)

abbrev Plain (K V : Type) := List (Kind (List V) (Table K V))

namespace Plain

def listOf (vals : Plain K V) (x : Nat) : Option (List V) :=
  match vals[x]? with
  | some (.list items) => some items
  | _ => none

def mapOf (vals : Plain K V) (x : Nat) : Option (Table K V) :=
  match vals[x]? with
  | some (.map m) => some m
  | _ => none

def make (vals : Plain K V) (val : Kind (List V) (Table K V)) : Answer K V × Plain K V :=
  (.made vals.length, vals ++ [val])

def step (vals : Plain K V) : Operation K V → Option (Answer K V × Plain K V)
  | .list items => some (vals.make (.list items))
  | .map entries => some (vals.make (.map (Table.ofEntries entries)))
  | .append x item => do return vals.make (.list ((← vals.listOf x) ++ [item]))
  | .mapSet x key value => do return vals.make (.map ((← vals.mapOf x).set key value))
  | .remove x key => do return vals.make (.map ((← vals.mapOf x).remove is key))
  | .force x => do return vals.make (← vals[x]?)
  | .listAt x index => do return (.element (elementAt (← vals.listOf x) index), vals)
  | .elements x => do return (.elements (← vals.listOf x), vals)
  | .mapAt x key => do return (.element ((← vals.mapOf x).get key), vals)
  | .mapKeyAt x index => do return (.key (elementAt (← vals.mapOf x).keys index), vals)
  | .entries x => do return (.entries (← vals.mapOf x).entries, vals)

end Plain

end Values

end Runtime
end Zdeceptron
