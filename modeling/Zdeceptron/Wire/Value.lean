import Zdeceptron.Library.EcmaJson

/-!
# The wire format

`encode` turns a value into data JSON can represent, a `Map` behind a marker and
whatever has a `toJSON` in the form it declares; `decode` is strict about the
marker.  `stringify` and `parse` add the JSON text.
-/

namespace Zdeceptron
namespace Wire

open Library
open Library.EcmaJson (Data)

/-- A value of a running program.  A record lists its fields and a map its
entries in their own order; `append` is a link of a list built by appending. -/
inductive Value
  | undefined
  | null
  | bool (value : Bool)
  | num (value : Float)
  | str (units : Units)
  | list (items : List Value)
  | map (entries : List (Value × Value))
  | record (fields : List (Units × Value))
  | append (base item : Value)

def units (text : String) : Units := text.toList.map Char.toNat

def variant (tag : Units) (fields : List Value) : Value :=
  .record [(units "tag", .str tag), (units "fields", .list fields)]

/-- The items of a chain of links, which is what its `toJSON` declares. -/
def force : Value → List Value
  | .append base item => force base ++ [item]
  | .list items => items
  | _ => []

section Encode

def marker : Units := units "$map"

mutual

def encode : Value → Data
  | .undefined => .null
  | .null => .null
  | .bool value => .bool value
  | .num value => .num value
  | .str units => .str units
  | .list items => .arr (encodeList items)
  | .map entries => .obj [(marker, .arr (encodeEntries entries))]
  | .record fields => .obj (encodeFields fields)
  | .append base item => .arr (encodeChain base ++ [encode item])

def encodeList : List Value → List Data
  | [] => []
  | item :: items => encode item :: encodeList items

def encodeEntries : List (Value × Value) → List Data
  | [] => []
  | (key, item) :: entries => .arr [encode key, encode item] :: encodeEntries entries

def encodeFields : List (Units × Value) → List (Units × Data)
  | [] => []
  | (name, value) :: fields => (name, encode value) :: encodeFields fields

/-- The items `force` gives, each of them encoded. -/
def encodeChain : Value → List Data
  | .append base item => encodeChain base ++ [encode item]
  | .list items => encodeList items
  | _ => []

end

theorem encodeList_eq_map (items : List Value) : encodeList items = items.map encode := by
  induction items with
  | nil => rfl
  | cons item items ih => rw [encodeList, ih, List.map_cons]

theorem encodeEntries_eq_map (entries : List (Value × Value)) :
    encodeEntries entries = entries.map (fun p => .arr [encode p.1, encode p.2]) := by
  induction entries with
  | nil => rfl
  | cons p entries ih => rw [encodeEntries, ih, List.map_cons]

theorem encodeFields_eq_map (fields : List (Units × Value)) :
    encodeFields fields = fields.map (fun field => (field.1, encode field.2)) := by
  induction fields with
  | nil => rfl
  | cons field fields ih => rw [encodeFields, ih, List.map_cons]

end Encode

section Decode

/-- What makes `decode` throw. -/
inductive DecodeError
  | siblings (names : List Units)
  | notArray
  | notPair

def DecodeError.message : DecodeError → Units
  | .siblings names =>
      units "A map on the wire carries only \"$map\"; this one also carried " ++
        EcmaJson.stringify (.arr (names.map Data.str)) ++ units "."
  | .notArray => units "A map on the wire is an array of [key, value] pairs."
  | .notPair => units "A map entry on the wire is a [key, value] pair."

/-- The keys a `Map` takes for the same one: equal primitives, but no two
objects. -/
def sameKey : Value → Value → Bool
  | .undefined, .undefined => true
  | .null, .null => true
  | .bool a, .bool b => a == b
  | .num x, .num y => decide (unsignedZero x = unsignedZero y)
  | .str s, .str t => s == t
  | _, _ => false

/-- The key a `Map` stores: `-0` becomes `0`. -/
def storedKey : Value → Value
  | .num x => .num (unsignedZero x)
  | key => key

/-- Set a key of a `Map`. -/
def setEntry (entries : List (Value × Value)) (key item : Value) : List (Value × Value) :=
  if entries.any (fun p => sameKey p.1 key) then
    entries.map (fun p => if sameKey p.1 key then (p.1, item) else p)
  else entries ++ [(storedKey key, item)]

def hasMarker (fields : List (Units × Data)) : Bool :=
  fields.any (fun field => field.1 == marker)

mutual

def decode : Data → Except DecodeError Value
  | .null => .ok .null
  | .bool value => .ok (.bool value)
  | .num value => .ok (.num value)
  | .str units => .ok (.str units)
  | .arr items =>
      match decodeList items with
      | .ok items => .ok (.list items)
      | .error error => .error error
  | .obj fields =>
      if hasMarker fields then decodeMap fields
      else
        match decodeFields fields with
        | .ok fields => .ok (.record fields)
        | .error error => .error error

def decodeList : List Data → Except DecodeError (List Value)
  | [] => .ok []
  | item :: items =>
      match decode item with
      | .error error => .error error
      | .ok value =>
          match decodeList items with
          | .error error => .error error
          | .ok values => .ok (value :: values)

def decodeFields : List (Units × Data) → Except DecodeError (List (Units × Value))
  | [] => .ok []
  | (name, item) :: fields =>
      match decode item with
      | .error error => .error error
      | .ok value =>
          match decodeFields fields with
          | .error error => .error error
          | .ok values => .ok ((name, value) :: values)

def decodeMap : List (Units × Data) → Except DecodeError Value
  | [(_, .arr entries)] =>
      match decodeEntries [] entries with
      | .ok entries => .ok (.map entries)
      | .error error => .error error
  | [_] => .error .notArray
  | fields =>
      .error (.siblings ((fields.map Prod.fst).filter (fun name => name != marker)))

def decodeEntries : List (Value × Value) → List Data →
    Except DecodeError (List (Value × Value))
  | rebuilt, [] => .ok rebuilt
  | rebuilt, .arr [key, item] :: entries =>
      match decode key with
      | .error error => .error error
      | .ok key =>
          match decode item with
          | .error error => .error error
          | .ok item => decodeEntries (setEntry rebuilt key item) entries
  | _, _ :: _ => .error .notPair

end

end Decode

section Text

inductive ParseError
  | syntaxError
  | decode (error : DecodeError)

def stringify (value : Value) : Units := EcmaJson.stringify (encode value)

def parse (text : Units) : Except ParseError Value :=
  match EcmaJson.parse text with
  | none => .error .syntaxError
  | some data =>
      match decode data with
      | .ok value => .ok value
      | .error error => .error (.decode error)

end Text

end Wire
end Zdeceptron
