import Zdeceptron.Library.EcmaLiterals

/-!
# Data as expressions of ECMAScript

The expressions that rebuild data: the scalars, the brackets of arrays and objects, and
`new Map` and `new Set` around an array.  They are printed without spaces and read in the
grammar of expressions; what is read is evaluated.
-/

namespace Library
namespace EcmaValues

open EcmaJson (quote parseString isSpace skipSpace skipSpace_cons stops_cons isSpace_of_head
  parseString_quoteUnits)

section Expressions

inductive Expression
  | null
  | bool (value : Bool)
  | num (value : Float)
  | str (units : Units)
  | arr (items : List Expression)
  | obj (members : List (Units × Expression))
  | map (entries : Expression)
  | set (items : Expression)

/-- `new Map(` -/
def newMap : Units := [110, 101, 119, 32, 77, 97, 112, 40]

/-- `new Set(` -/
def newSet : Units := [110, 101, 119, 32, 83, 101, 116, 40]

mutual

def print : Expression → Units
  | .null => [110, 117, 108, 108]
  | .bool true => [116, 114, 117, 101]
  | .bool false => [102, 97, 108, 115, 101]
  | .num value => if value.isFinite then numberToString value else [110, 117, 108, 108]
  | .str units => quote units
  | .arr items => 91 :: printItems true items
  | .obj members => 123 :: printMembers true members
  | .map entries => newMap ++ (print entries ++ [41])
  | .set items => newSet ++ (print items ++ [41])

def printItems : Bool → List Expression → Units
  | _, [] => [93]
  | first, e :: es => (if first then [] else [44]) ++ (print e ++ printItems false es)

def printMembers : Bool → List (Units × Expression) → Units
  | _, [] => [125]
  | first, (name, e) :: members =>
      (if first then [] else [44]) ++
        (quote name ++ 58 :: (print e ++ printMembers false members))

end

def after : Units → Units → Option Units
  | [], text => some text
  | _ :: _, [] => none
  | c :: cs, d :: text => if c = d then after cs text else none

mutual

def readValue : Nat → Units → Option (Expression × Units)
  | 0, _ => none
  | fuel + 1, text =>
      match skipSpace text with
      | 110 :: 117 :: 108 :: 108 :: rest => some (.null, rest)
      | 116 :: 114 :: 117 :: 101 :: rest => some (.bool true, rest)
      | 102 :: 97 :: 108 :: 115 :: 101 :: rest => some (.bool false, rest)
      | 34 :: rest => (parseString rest).map (fun p => (.str p.1, p.2))
      | 91 :: rest =>
          match skipSpace rest with
          | 93 :: rest => some (.arr [], rest)
          | rest => (readItems fuel rest).map (fun p => (.arr p.1, p.2))
      | 123 :: rest =>
          match skipSpace rest with
          | 125 :: rest => some (.obj [], rest)
          | rest => (readMembers fuel rest).map (fun p => (.obj p.1, p.2))
      | text =>
          match after newMap text, after newSet text with
          | some rest, _ => (readArgument fuel rest).map (fun p => (.map p.1, p.2))
          | none, some rest => (readArgument fuel rest).map (fun p => (.set p.1, p.2))
          | none, none => (numberEnd text).map (fun rest => (.num (readNumeral text).1, rest))

def readArgument : Nat → Units → Option (Expression × Units)
  | 0, _ => none
  | fuel + 1, text =>
      match readValue fuel text with
      | none => none
      | some (e, rest) =>
          match skipSpace rest with
          | 41 :: rest => some (e, rest)
          | _ => none

def readItems : Nat → Units → Option (List Expression × Units)
  | 0, _ => none
  | fuel + 1, text =>
      match readValue fuel text with
      | none => none
      | some (e, rest) =>
          match skipSpace rest with
          | 44 :: rest => (readItems fuel rest).map (fun p => (e :: p.1, p.2))
          | 93 :: rest => some ([e], rest)
          | _ => none

def readMembers : Nat → Units → Option (List (Units × Expression) × Units)
  | 0, _ => none
  | fuel + 1, text =>
      match skipSpace text with
      | 34 :: rest =>
          match parseString rest with
          | none => none
          | some (name, rest) =>
              match skipSpace rest with
              | 58 :: rest =>
                  match readValue fuel rest with
                  | none => none
                  | some (e, rest) =>
                      match skipSpace rest with
                      | 44 :: rest => (readMembers fuel rest).map (fun p => ((name, e) :: p.1, p.2))
                      | 125 :: rest => some ([(name, e)], rest)
                      | _ => none
              | _ => none
      | _ => none

end

def read (text : Units) : Option Expression :=
  match readValue (text.length + 1) text with
  | some (e, rest) => if skipSpace rest = [] then some e else none
  | none => none

end Expressions

section RoundTrip

mutual

def Expression.reread : Expression → Expression
  | .null => .null
  | .bool value => .bool value
  | .num value => if value.isFinite then .num (unsignedZero value) else .null
  | .str units => .str units
  | .arr items => .arr (rereadItems items)
  | .obj members => .obj (rereadMembers members)
  | .map entries => .map entries.reread
  | .set items => .set items.reread

def rereadItems : List Expression → List Expression
  | [] => []
  | e :: es => e.reread :: rereadItems es

def rereadMembers : List (Units × Expression) → List (Units × Expression)
  | [] => []
  | (name, e) :: members => (name, e.reread) :: rereadMembers members

end

theorem rereadItems_eq_map (items : List Expression) :
    rereadItems items = items.map Expression.reread := by
  induction items with
  | nil => rfl
  | cons e es ih => rw [rereadItems, ih, List.map_cons]

theorem rereadMembers_eq_map (members : List (Units × Expression)) :
    rereadMembers members = members.map (fun member => (member.1, member.2.reread)) := by
  induction members with
  | nil => rfl
  | cons member members ih => rw [rereadMembers, ih, List.map_cons]

def Reads (e : Expression) : Prop :=
  ∀ fuel rest, (print e).length < fuel → Stops rest →
    readValue fuel (print e ++ rest) = some (e.reread, rest)

theorem Expression.induction {P : Expression → Prop} (null : P .null)
    (bool : ∀ value, P (.bool value)) (num : ∀ value, P (.num value))
    (str : ∀ units, P (.str units)) (arr : ∀ items, (∀ e ∈ items, P e) → P (.arr items))
    (obj : ∀ members : List (Units × Expression), (∀ m ∈ members, P m.2) → P (.obj members))
    (map : ∀ e, P e → P (.map e)) (set : ∀ e, P e → P (.set e)) : ∀ e, P e
  | .null => null
  | .bool value => bool value
  | .num value => num value
  | .str units => str units
  | .arr items => arr items fun e _ => Expression.induction null bool num str arr obj map set e
  | .obj members => obj members fun m _ =>
      Expression.induction null bool num str arr obj map set m.2
  | .map e => map e (Expression.induction null bool num str arr obj map set e)
  | .set e => set e (Expression.induction null bool num str arr obj map set e)
termination_by e => sizeOf e
decreasing_by
  · rename_i hmem
    have := List.sizeOf_lt_of_mem hmem
    simp only [Expression.arr.sizeOf_spec]
    omega
  · rename_i hmem
    have hlt := List.sizeOf_lt_of_mem hmem
    have hsnd : sizeOf m = 1 + sizeOf m.1 + sizeOf m.2 := by
      obtain ⟨name, e⟩ := m
      rfl
    simp only [Expression.obj.sizeOf_spec]
    omega
  · simp only [Expression.map.sizeOf_spec]
    omega
  · simp only [Expression.set.sizeOf_spec]
    omega

theorem after_ne {c d : Nat} (h : c ≠ d) (word text : Units) :
    after (c :: word) (d :: text) = none := by
  rw [after, if_neg h]

theorem print_head (e : Expression) :
    ∃ c text, print e = c :: text ∧ isSpace c = false ∧ c ≠ 93 := by
  cases e with
  | null | map _ | set _ => exact ⟨110, _, rfl, by decide, by decide⟩
  | bool value => cases value <;> exact ⟨_, _, rfl, by decide, by decide⟩
  | num value =>
      by_cases hfinite : value.isFinite = true
      · obtain ⟨c, text, hcons, hc⟩ := head_numberToString hfinite
        rw [print, if_pos hfinite]
        refine ⟨c, text, hcons, isSpace_of_head hc, ?_⟩
        rintro rfl
        rcases hc with hc | hc <;> exact absurd hc (by decide)
      · rw [print, if_neg hfinite]
        exact ⟨110, _, rfl, by decide, by decide⟩
  | str units => exact ⟨34, _, rfl, by decide, by decide⟩
  | arr items => exact ⟨91, _, rfl, by decide, by decide⟩
  | obj members => exact ⟨123, _, rfl, by decide, by decide⟩

theorem printItems_stops (items : List Expression) (rest : Units) :
    Stops (printItems false items ++ rest) := by
  cases items <;> exact stops_cons (by decide) (by decide) (by decide) (by decide) _

theorem printMembers_stops (members : List (Units × Expression)) (rest : Units) :
    Stops (printMembers false members ++ rest) := by
  cases members <;> exact stops_cons (by decide) (by decide) (by decide) (by decide) _

variable {e : Expression} {fuel : Nat}

theorem readItems_comma {text rest : Units} (h : readValue fuel text = some (e, 44 :: rest)) :
    readItems (fuel + 1) text = (readItems fuel rest).map (fun p => (e :: p.1, p.2)) := by
  rw [readItems, h]
  rfl

theorem readItems_close {text rest : Units} (h : readValue fuel text = some (e, 93 :: rest)) :
    readItems (fuel + 1) text = some ([e], rest) := by
  rw [readItems, h]
  rfl

theorem readItems_print {items : List Expression} (h : ∀ e ∈ items, Reads e)
    (he : Reads e) (fuel : Nat)
    (hfuel : (print e).length + (printItems false items).length < fuel) (rest : Units) :
    readItems fuel (print e ++ (printItems false items ++ rest)) =
      some (e.reread :: items.map Expression.reread, rest) := by
  obtain ⟨fuel, rfl⟩ := Nat.exists_eq_succ_of_ne_zero (Nat.ne_of_gt (Nat.zero_lt_of_lt hfuel))
  induction items generalizing e fuel with
  | nil =>
      simp only [printItems, List.length_singleton] at hfuel
      exact readItems_close (he fuel _ (by omega) (printItems_stops [] rest))
  | cons d ds ih =>
      have htext : printItems false (d :: ds) ++ rest =
          44 :: (print d ++ (printItems false ds ++ rest)) := by
        simp [printItems]
      simp only [printItems, List.length_append, Bool.false_eq_true, if_false,
        List.length_cons] at hfuel
      have hread := he fuel _ (by omega) (printItems_stops (d :: ds) rest)
      obtain ⟨fuel, rfl⟩ := Nat.exists_eq_succ_of_ne_zero (by omega : fuel ≠ 0)
      have hnext := ih (fun d' hd' => h d' (List.mem_cons_of_mem _ hd'))
        (h d List.mem_cons_self) fuel (by simp only [Nat.succ_eq_add_one] at hfuel ⊢; omega)
      rw [htext] at hread ⊢
      rw [readItems_comma hread, hnext]
      rfl

theorem readMembers_name (fuel : Nat) (name text : Units) :
    readMembers (fuel + 1) (quote name ++ 58 :: text) =
      match readValue fuel text with
      | none => none
      | some (e, rest) =>
          match skipSpace rest with
          | 44 :: rest => (readMembers fuel rest).map (fun p => ((name, e) :: p.1, p.2))
          | 125 :: rest => some ([(name, e)], rest)
          | _ => none := by
  rw [readMembers, quote, List.cons_append, skipSpace_cons (by decide)]
  simp only [parseString_quoteUnits]
  rfl

theorem readMembers_print {members : List (Units × Expression)}
    (h : ∀ m ∈ members, Reads m.2) {name : Units} {e : Expression} (he : Reads e) (fuel : Nat)
    (hfuel : (print e).length + (printMembers false members).length < fuel) (rest : Units) :
    readMembers fuel (quote name ++ 58 :: (print e ++ (printMembers false members ++ rest))) =
      some ((name, e.reread) :: members.map (fun m => (m.1, m.2.reread)), rest) := by
  obtain ⟨fuel, rfl⟩ := Nat.exists_eq_succ_of_ne_zero (Nat.ne_of_gt (Nat.zero_lt_of_lt hfuel))
  induction members generalizing name e fuel with
  | nil =>
      simp only [printMembers, List.length_singleton] at hfuel
      rw [readMembers_name, he fuel _ (by omega) (printMembers_stops [] rest)]
      rfl
  | cons member members ih =>
      obtain ⟨other, d⟩ := member
      have htext : printMembers false ((other, d) :: members) ++ rest =
          44 :: (quote other ++
            58 :: (print d ++ (printMembers false members ++ rest))) := by
        simp [printMembers]
      simp only [printMembers, List.length_append, Bool.false_eq_true, if_false,
        List.length_cons] at hfuel
      have hread := he fuel _ (by omega) (printMembers_stops ((other, d) :: members) rest)
      obtain ⟨fuel, rfl⟩ := Nat.exists_eq_succ_of_ne_zero (by omega : fuel ≠ 0)
      have hnext := @ih (fun m hm => h m (List.mem_cons_of_mem _ hm)) other d
        (h (other, d) List.mem_cons_self) fuel (by simp only [Nat.succ_eq_add_one] at hfuel ⊢; omega)
      rw [htext] at hread ⊢
      rw [readMembers_name, hread]
      simp only
      rw [skipSpace_cons (by decide)]
      simp only [hnext]
      rfl

theorem readValue_new {word : Units} (h : word = newMap ∨ word = newSet) (fuel : Nat)
    (text : Units) :
    readValue (fuel + 1) (word ++ text) =
      (readArgument fuel text).map
        (fun p => (if word = newMap then .map p.1 else .set p.1, p.2)) := by
  rcases h with rfl | rfl
  · rfl
  · rfl

theorem readValue_number {c : Nat} {text : Units} (h : c = 45 ∨ isDigit c = true) (fuel : Nat) :
    readValue (fuel + 1) (c :: text) =
      (numberEnd (c :: text)).map (fun rest => (.num (readNumeral (c :: text)).1, rest)) := by
  have hbounds : c = 45 ∨ 48 ≤ c ∧ c ≤ 57 := by
    simpa [isDigit] using h
  have hmap : after newMap (c :: text) = none := after_ne (by omega) _ _
  have hset : after newSet (c :: text) = none := after_ne (by omega) _ _
  rw [readValue, skipSpace_cons (isSpace_of_head h)]
  split
  all_goals first
    | (rename_i heq; cases heq; omega)
    | (rw [hmap, hset])

theorem readValue_items {c : Nat} {text : Units} (hspace : isSpace c = false) (hclose : c ≠ 93) :
    readValue (fuel + 1) (91 :: c :: text) =
      (readItems fuel (c :: text)).map (fun p => (.arr p.1, p.2)) := by
  rw [readValue, skipSpace_cons (by decide)]
  simp only [skipSpace_cons hspace]
  split
  · rename_i heq
    cases heq
    exact absurd rfl hclose
  · rfl

theorem readValue_members (name text : Units) :
    readValue (fuel + 1) (123 :: (quote name ++ text)) =
      (readMembers fuel (quote name ++ text)).map (fun p => (.obj p.1, p.2)) := by
  rw [readValue, skipSpace_cons (by decide)]
  simp only [quote, List.cons_append, skipSpace_cons (show isSpace 34 = false by decide)]

theorem Reads.argument (h : Reads e) (fuel : Nat)
    (hfuel : (print e).length + 1 < fuel) (rest : Units) :
    readArgument fuel (print e ++ 41 :: rest) = some (e.reread, rest) := by
  obtain ⟨fuel, rfl⟩ := Nat.exists_eq_succ_of_ne_zero (by omega : fuel ≠ 0)
  rw [readArgument, h fuel (41 :: rest) (by omega)
    (stops_cons (by decide) (by decide) (by decide) (by decide) _)]
  rfl

theorem reads (e : Expression) : Reads e := by
  induction e using Expression.induction with
  | null =>
      intro fuel rest hfuel _
      obtain ⟨fuel, rfl⟩ := Nat.exists_eq_succ_of_ne_zero (by omega : fuel ≠ 0)
      rfl
  | bool value =>
      intro fuel rest hfuel _
      obtain ⟨fuel, rfl⟩ := Nat.exists_eq_succ_of_ne_zero (by omega : fuel ≠ 0)
      cases value <;> rfl
  | num value =>
      intro fuel rest hfuel hrest
      obtain ⟨fuel, rfl⟩ := Nat.exists_eq_succ_of_ne_zero (by omega : fuel ≠ 0)
      by_cases hfinite : value.isFinite = true
      · obtain ⟨c, text, hcons, hc⟩ := head_numberToString hfinite
        have hend := numberEnd_numberToString hfinite hrest
        have hread := readNumeral_numberToString hfinite hrest
        rw [hcons, List.cons_append] at hend hread
        rw [print, if_pos hfinite, hcons, List.cons_append, readValue_number hc, hend,
          hread, Expression.reread, if_pos hfinite]
        rfl
      · rw [print, if_neg hfinite, Expression.reread, if_neg hfinite]
        rfl
  | str units =>
      intro fuel rest hfuel _
      obtain ⟨fuel, rfl⟩ := Nat.exists_eq_succ_of_ne_zero (by omega : fuel ≠ 0)
      rw [print, quote, List.cons_append, readValue, skipSpace_cons (by decide)]
      simp only [parseString_quoteUnits]
      rfl
  | arr items ih =>
      intro fuel rest hfuel _
      obtain ⟨fuel, rfl⟩ := Nat.exists_eq_succ_of_ne_zero (by omega : fuel ≠ 0)
      cases items with
      | nil => rfl
      | cons e es =>
          obtain ⟨c, text, hcons, hspace, hclose⟩ := print_head e
          simp only [print, printItems, if_true, List.nil_append, List.length_cons,
            List.length_append] at hfuel
          have hread := readItems_print (fun d hd => ih d (List.mem_cons_of_mem _ hd))
            (ih e List.mem_cons_self) fuel (by omega) rest
          rw [print, printItems, if_pos rfl, List.nil_append, List.cons_append,
            List.append_assoc]
          rw [hcons, List.cons_append] at hread ⊢
          rw [readValue_items hspace hclose, hread, Expression.reread, rereadItems_eq_map]
          rfl
  | obj members ih =>
      intro fuel rest hfuel _
      obtain ⟨fuel, rfl⟩ := Nat.exists_eq_succ_of_ne_zero (by omega : fuel ≠ 0)
      cases members with
      | nil => rfl
      | cons member members =>
          obtain ⟨name, e⟩ := member
          simp only [print, printMembers, if_true, List.nil_append, List.length_cons,
            List.length_append] at hfuel
          have hread := @readMembers_print members (fun m hm => ih m (List.mem_cons_of_mem _ hm))
            name e (ih (name, e) List.mem_cons_self) fuel (by omega) rest
          rw [print, printMembers, if_pos rfl, List.nil_append, List.cons_append,
            List.append_assoc, List.cons_append, List.append_assoc, readValue_members, hread,
            Expression.reread, rereadMembers_eq_map]
          rfl
  | map e ih =>
      intro fuel rest hfuel _
      obtain ⟨fuel, rfl⟩ := Nat.exists_eq_succ_of_ne_zero (by omega : fuel ≠ 0)
      simp only [print, newMap, List.length_append, List.length_cons] at hfuel
      rw [print, List.append_assoc, List.append_assoc, List.singleton_append,
        readValue_new (.inl rfl), ih.argument fuel (by omega) rest]
      rfl
  | set e ih =>
      intro fuel rest hfuel _
      obtain ⟨fuel, rfl⟩ := Nat.exists_eq_succ_of_ne_zero (by omega : fuel ≠ 0)
      simp only [print, newSet, List.length_append, List.length_cons] at hfuel
      rw [print, List.append_assoc, List.append_assoc, List.singleton_append,
        readValue_new (.inr rfl), ih.argument fuel (by omega) rest]
      rfl

theorem read_print (e : Expression) : read (print e) = some e.reread := by
  have hstops : Stops [] := by
    rintro c hc
    cases hc
  have hread := reads e ((print e).length + 1) [] (Nat.lt_succ_self _) hstops
  rw [List.append_nil] at hread
  rw [read, hread]
  rfl

end RoundTrip

section Values

/-- A value: the scalars, arrays, maps, sets, and objects whose prototype is that of all
objects.  Of an object with a `toJSON` of its own, what that gives. -/
inductive Value
  | undefined
  | function
  | null
  | bool (value : Bool)
  | num (value : Float)
  | str (units : Units)
  | arr (items : List Value)
  | map (entries : List (Value × Value))
  | set (items : List Value)
  | obj (fields : List (Units × Value))
  | jsonArr (items : List Value)
  | jsonMap (entries : List (Value × Value))

/-- What can be set as a prototype: an object or `null`. -/
def Value.isPrototype : Value → Bool
  | .undefined => false
  | .bool _ => false
  | .num _ => false
  | .str _ => false
  | _ => true

/-- Whether two keys are one key of a map.  Objects of two places are two objects. -/
def sameValueZero : Value → Value → Bool
  | .undefined, .undefined => true
  | .null, .null => true
  | .bool a, .bool b => a == b
  | .num a, .num b => a == b || (a.isNaN && b.isNaN)
  | .str a, .str b => a == b
  | _, _ => false

/-- Set a key of a map: the value of a known key is replaced, a new key goes last.  No key that
was read from a text is `-0`, which a map would keep as `0`. -/
def insertKey (key value : Value) : List (Value × Value) → List (Value × Value)
  | [] => [(key, value)]
  | (other, x) :: entries =>
      if sameValueZero other key then (other, value) :: entries
      else (other, x) :: insertKey key value entries

def insertAll (entries : List (Value × Value)) : List (Value × Value) → List (Value × Value)
  | [] => entries
  | (key, value) :: more => insertAll (insertKey key value entries) more

def entryOf : Value → Option (Value × Value)
  | .arr [key, value] => some (key, value)
  | _ => none

def entriesOf : List Value → Option (List (Value × Value))
  | [] => some []
  | item :: items => (entryOf item).bind fun e => (entriesOf items).map (e :: ·)

/-- `new Map` of an array of entries. -/
def toMap : Value → Option Value
  | .arr items => (entriesOf items).map fun entries => .map (insertAll [] entries)
  | _ => none

/-- `new Set` of an array. -/
def toSet : Value → Option Value
  | .arr items => some (.set ((insertAll [] (items.map fun item => (item, item))).map Prod.fst))
  | _ => none

mutual

/-- The value of an expression.  A member named `__proto__` defines no property; where it sets
a prototype, the object has not that of all objects and is no value here.  A second one is an
early error. -/
def evaluate : Expression → Option Value
  | .null => some .null
  | .bool value => some (.bool value)
  | .num value => some (.num value)
  | .str units => some (.str units)
  | .arr items => (evaluateItems items).map .arr
  | .obj members =>
      if members.countP (fun m => decide (m.1 = EcmaLiterals.protoName)) ≤ 1 then
        (evaluateMembers [] members).map .obj
      else none
  | .map entries => (evaluate entries).bind toMap
  | .set items => (evaluate items).bind toSet

def evaluateItems : List Expression → Option (List Value)
  | [] => some []
  | e :: es => (evaluate e).bind fun v => (evaluateItems es).map (v :: ·)

def evaluateMembers (fields : List (Units × Value)) :
    List (Units × Expression) → Option (List (Units × Value))
  | [] => some fields
  | (name, e) :: members =>
      (evaluate e).bind fun v =>
        if name = EcmaLiterals.protoName then
          if v.isPrototype then none else evaluateMembers fields members
        else evaluateMembers (EcmaJson.defineField fields name v) members

end

theorem Value.induction {P : Value → Prop} (undefined : P .undefined) (function : P .function)
    (null : P .null) (bool : ∀ value, P (.bool value)) (num : ∀ value, P (.num value))
    (str : ∀ units, P (.str units)) (arr : ∀ items, (∀ v ∈ items, P v) → P (.arr items))
    (map : ∀ entries : List (Value × Value), (∀ e ∈ entries, P e.1 ∧ P e.2) → P (.map entries))
    (set : ∀ items, (∀ v ∈ items, P v) → P (.set items))
    (obj : ∀ fields : List (Units × Value), (∀ f ∈ fields, P f.2) → P (.obj fields))
    (jsonArr : ∀ items, (∀ v ∈ items, P v) → P (.jsonArr items))
    (jsonMap : ∀ entries : List (Value × Value), (∀ e ∈ entries, P e.1 ∧ P e.2) →
      P (.jsonMap entries)) : ∀ v, P v := by
  intro v
  refine @Value.rec P (fun items => ∀ v ∈ items, P v)
    (fun entries => ∀ e ∈ entries, P e.1 ∧ P e.2) (fun fields => ∀ f ∈ fields, P f.2)
    (fun e => P e.1 ∧ P e.2) (fun f => P f.2) undefined function null bool num str
    arr map set obj jsonArr jsonMap ?_ ?_ ?_ ?_ ?_ ?_ ?_ ?_ v
  · exact fun _ h => absurd h List.not_mem_nil
  · exact fun v items hv hitems => List.forall_mem_cons.mpr ⟨hv, hitems⟩
  · exact fun _ h => absurd h List.not_mem_nil
  · exact fun e entries he hentries => List.forall_mem_cons.mpr ⟨he, hentries⟩
  · exact fun _ h => absurd h List.not_mem_nil
  · exact fun f fields hf hfields => List.forall_mem_cons.mpr ⟨hf, hfields⟩
  · exact fun _ _ hk hv => ⟨hk, hv⟩
  · exact fun _ _ hv => hv

end Values

section Filling

theorem insertKey_cases (key value : Value) (entries : List (Value × Value)) :
    insertKey key value entries = entries ++ [(key, value)] ∨
      (insertKey key value entries).length = entries.length := by
  induction entries with
  | nil => exact .inl rfl
  | cons entry entries ih =>
      obtain ⟨other, x⟩ := entry
      rw [insertKey]
      by_cases hsame : sameValueZero other key = true
      · rw [if_pos hsame]
        exact .inr rfl
      · rw [if_neg hsame]
        rcases ih with happend | hlength
        · exact .inl (by rw [happend, List.cons_append])
        · exact .inr (by rw [List.length_cons, List.length_cons, hlength])

theorem insertKey_new {key value : Value} {entries : List (Value × Value)}
    (h : ∀ e ∈ entries, sameValueZero e.1 key = false) :
    insertKey key value entries = entries ++ [(key, value)] := by
  induction entries with
  | nil => rfl
  | cons entry entries ih =>
      obtain ⟨other, x⟩ := entry
      have hother : sameValueZero other key = false := h (other, x) List.mem_cons_self
      rw [insertKey, hother, if_neg Bool.false_ne_true,
        ih fun e he => h e (List.mem_cons_of_mem _ he), List.cons_append]

theorem length_insertAll_le (entries more : List (Value × Value)) :
    (insertAll entries more).length ≤ entries.length + more.length := by
  induction more generalizing entries with
  | nil => exact Nat.le_refl _
  | cons entry more ih =>
      obtain ⟨key, value⟩ := entry
      have hle := ih (insertKey key value entries)
      rw [insertAll, List.length_cons]
      rcases insertKey_cases key value entries with happend | hlength
      · rw [happend, List.length_append, List.length_singleton] at hle
        rw [happend]
        omega
      · omega

theorem insertAll_eq {entries more : List (Value × Value)}
    (h : (insertAll entries more).length = entries.length + more.length) :
    insertAll entries more = entries ++ more := by
  induction more generalizing entries with
  | nil => exact (List.append_nil entries).symm
  | cons entry more ih =>
      obtain ⟨key, value⟩ := entry
      rw [insertAll] at h ⊢
      rw [List.length_cons] at h
      rcases insertKey_cases key value entries with happend | hlength
      · rw [happend] at h ⊢
        rw [ih (by rw [h, List.length_append, List.length_singleton]; omega), List.append_assoc,
          List.singleton_append]
      · have hle := length_insertAll_le (insertKey key value entries) more
        omega

theorem insertAll_nil_eq {more : List (Value × Value)}
    (h : (insertAll [] more).length = more.length) : insertAll [] more = more :=
  (insertAll_eq (h.trans (Nat.zero_add _).symm)).trans (List.nil_append more)

theorem insertAll_of_distinct {entries more : List (Value × Value)}
    (h : (entries ++ more).Pairwise fun a b => sameValueZero a.1 b.1 = false) :
    insertAll entries more = entries ++ more := by
  induction more generalizing entries with
  | nil => exact (List.append_nil entries).symm
  | cons entry more ih =>
      obtain ⟨key, value⟩ := entry
      have hnew : ∀ e ∈ entries, sameValueZero e.1 key = false := fun e he =>
        (List.pairwise_append.mp h).2.2 e he (key, value) List.mem_cons_self
      rw [insertAll, insertKey_new hnew, ih (by rwa [List.append_assoc, List.singleton_append]),
        List.append_assoc, List.singleton_append]

end Filling

end EcmaValues
end Library
