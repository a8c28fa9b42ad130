import Zdeceptron.Wire.RoundTrip

/-!
# What a served program's JavaScript does with values

The values an endpoint and the stores handle, and the operations of the language
their code uses on them.
-/

namespace Zdeceptron
namespace Serve

open Library
open Library.EcmaJson (Data)
open Wire (Value units encode decode)

section Raw

mutual

/-- The value `JSON.parse` gives, markers and all. -/
def raw : Data → Value
  | .null => .null
  | .bool value => .bool value
  | .num value => .num value
  | .str units => .str units
  | .arr items => .list (rawItems items)
  | .obj fields => .record (rawFields fields)

def rawItems : List Data → List Value
  | [] => []
  | d :: ds => raw d :: rawItems ds

def rawFields : List (Units × Data) → List (Units × Value)
  | [] => []
  | (name, d) :: fields => (name, raw d) :: rawFields fields

end

theorem rawItems_eq_map (items : List Data) : rawItems items = items.map raw := by
  induction items with
  | nil => rfl
  | cons d ds ih => rw [rawItems, ih, List.map_cons]

theorem rawFields_eq_map (fields : List (Units × Data)) :
    rawFields fields = fields.map (fun field => (field.1, raw field.2)) := by
  induction fields with
  | nil => rfl
  | cons field fields ih => rw [rawFields, ih, List.map_cons]

end Raw

section Operations

/-- `??` takes its right side. -/
def isNullish : Value → Bool
  | .undefined => true
  | .null => true
  | _ => false

mutual

/-- `String(value)`. -/
def toText : Value → Units
  | .undefined => units "undefined"
  | .null => units "null"
  | .bool true => units "true"
  | .bool false => units "false"
  | .num value => numberToString value
  | .str units => units
  | .list items => joinItems items
  | .map _ => units "[object Map]"
  | .record _ => units "[object Object]"
  | .append _ _ => units "[object Object]"

def joinItems : List Value → Units
  | [] => []
  | [item] => if isNullish item then [] else toText item
  | item :: items => (if isNullish item then [] else toText item) ++ 44 :: joinItems items

end

def notANumber : Float := Float.ofNat 0 / Float.ofNat 0

/-- `Number(value)`, given what it is of a text. -/
def toNumber (number : Units → Float) : Value → Float
  | .undefined => notANumber
  | .null => Float.ofNat 0
  | .bool value => Float.ofNat value.toNat
  | .num value => value
  | value => number (toText value)

/-- `===`. -/
def strictEqual : Value → Value → Bool
  | .num x, .num y => !x.isNaN && decide (unsignedZero x = unsignedZero y)
  | a, b => Wire.sameKey a b

/-- A number `+` a value. -/
def plus (number : Units → Float) (x : Float) : Value → Value
  | .str units => .str (numberToString x ++ units)
  | .list items => .str (numberToString x ++ toText (.list items))
  | .map entries => .str (numberToString x ++ toText (.map entries))
  | .record fields => .str (numberToString x ++ toText (.record fields))
  | .append base item => .str (numberToString x ++ toText (.append base item))
  | value => .num (x + toNumber number value)

def indexed {β : Type} (items : List β) : List (Units × β) :=
  items.zipIdx.map (fun p => (digitCodes p.2, p.1))

/-- The fields `{ ...value }` has. -/
def spread : Value → List (Units × Value)
  | .record fields => fields
  | .list items => indexed items
  | .str units => indexed (units.map (fun c => .str [c]))
  | _ => []

def fieldOf {β : Type} (fields : List (Units × β)) (name : Units) : Option β :=
  (fields.find? (fun field => field.1 == name)).map Prod.snd

def protoName : Units := units "__proto__"

/-- `fields[name] = value`. -/
def assignField {β : Type} (fields : List (Units × β)) (name : Units) (value : β) :
    List (Units × β) :=
  if name = protoName then fields else EcmaJson.defineField fields name value

/-- The entry of a `Map`. -/
def entryOf (entries : List (Value × Value)) (key : Value) : Value :=
  ((entries.find? (fun p => Wire.sameKey p.1 key)).map Prod.snd).getD .undefined

def position (at' : Value) : Option Nat :=
  if EcmaJson.isIndex (toText at') then some (digitsValue (toText at')) else none

def itemOf (items : List Value) (at' : Value) : Value :=
  ((position at').bind (fun i => items[i]?)).getD .undefined

def assignItem (items : List Value) (at' value : Value) : List Value :=
  match position at' with
  | none => items
  | some i =>
      (items ++ List.replicate (i + 1 - items.length) Value.undefined).set i value

end Operations

section Fields

variable {β γ : Type}

theorem fieldOf_map (f : β → γ) (fields : List (Units × β)) (name : Units) :
    fieldOf (fields.map (fun field => (field.1, f field.2))) name =
      (fieldOf fields name).map f := by
  unfold fieldOf
  rw [List.find?_map, Option.map_map, Option.map_map]
  rfl

variable {fields : List (Units × β)} {name : Units}

theorem mem_of_fieldOf {x : β} (h : fieldOf fields name = some x) : (name, x) ∈ fields := by
  obtain ⟨field, hfind, rfl⟩ := Option.map_eq_some_iff.mp h
  have hname := List.find?_some hfind
  rw [beq_iff_eq] at hname
  subst hname
  exact List.mem_of_find?_eq_some hfind

theorem mem_insertIndex {x : β}
    {field : Units × β} (h : field ∈ EcmaJson.insertIndex name x fields) :
    field ∈ fields ∨ field = (name, x) := by
  induction fields with
  | nil => exact .inr (List.mem_singleton.mp h)
  | cons other fields ih =>
      rw [EcmaJson.insertIndex] at h
      split at h
      · rcases List.mem_cons.mp h with rfl | h
        · exact .inl (List.mem_cons_self ..)
        · exact (ih h).imp (List.mem_cons_of_mem _) id
      · rcases List.mem_cons.mp h with rfl | h
        · exact .inr rfl
        · exact .inl h

theorem mem_defineField {x : β}
    {field : Units × β} (h : field ∈ EcmaJson.defineField fields name x) :
    field ∈ fields ∨ field = (name, x) := by
  unfold EcmaJson.defineField at h
  split_ifs at h with hany hindex
  · obtain ⟨other, hother, rfl⟩ := List.mem_map.mp h
    split_ifs
    · exact .inr rfl
    · exact .inl hother
  · exact mem_insertIndex h
  · rcases List.mem_append.mp h with h | h
    · exact .inl h
    · exact .inr (List.mem_singleton.mp h)

end Fields

end Serve
end Zdeceptron
