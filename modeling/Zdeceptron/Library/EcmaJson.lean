import Zdeceptron.Library.Numeral

/-!
# The JSON object of ECMAScript

Texts and strings are lists of UTF-16 code units.  `stringify` writes data as
JSON text and `parse` reads JSON text; an object lists its fields in the order of
its own keys.
-/

namespace Library

abbrev Units := List Nat

namespace EcmaJson

inductive Data
  | null
  | bool (value : Bool)
  | num (value : Float)
  | str (units : Units)
  | arr (items : List Data)
  | obj (fields : List (Units × Data))

section Strings

def isHigh (c : Nat) : Bool := decide (0xD800 ≤ c) && decide (c ≤ 0xDBFF)

def isLow (c : Nat) : Bool := decide (0xDC00 ≤ c) && decide (c ≤ 0xDFFF)

def hexDigit (n : Nat) : Nat := if n < 10 then 48 + n else 87 + n

def unicodeEscape (c : Nat) : Units :=
  [92, 117, hexDigit (c / 4096 % 16), hexDigit (c / 256 % 16), hexDigit (c / 16 % 16),
    hexDigit (c % 16)]

/-- One code unit that is no part of a surrogate pair, as it stands in quotes. -/
def quoteUnit (c : Nat) : Units :=
  if c = 34 ∨ c = 92 then [92, c]
  else if c = 8 then [92, 98]
  else if c = 9 then [92, 116]
  else if c = 10 then [92, 110]
  else if c = 12 then [92, 102]
  else if c = 13 then [92, 114]
  else if c < 32 ∨ isHigh c = true ∨ isLow c = true then unicodeEscape c
  else [c]

def quoteUnits : Units → Units
  | [] => [34]
  | [c] => quoteUnit c ++ [34]
  | c :: d :: rest =>
      if isHigh c = true ∧ isLow d = true then c :: d :: quoteUnits rest
      else quoteUnit c ++ quoteUnits (d :: rest)

def quote (units : Units) : Units := 34 :: quoteUnits units

def hexValue (c : Nat) : Option Nat :=
  if 48 ≤ c ∧ c ≤ 57 then some (c - 48)
  else if 97 ≤ c ∧ c ≤ 102 then some (c - 87)
  else if 65 ≤ c ∧ c ≤ 70 then some (c - 55)
  else none

def hexUnit (a b c d : Nat) : Option Nat :=
  (hexValue a).bind (fun a => (hexValue b).bind (fun b => (hexValue c).bind (fun c =>
    (hexValue d).map (fun d => ((a * 16 + b) * 16 + c) * 16 + d))))

def escaped (c : Nat) : Option Nat :=
  if c = 34 ∨ c = 92 ∨ c = 47 then some c
  else if c = 98 then some 8
  else if c = 116 then some 9
  else if c = 110 then some 10
  else if c = 102 then some 12
  else if c = 114 then some 13
  else none

def parseString : Units → Option (Units × Units)
  | [] => none
  | 34 :: rest => some ([], rest)
  | 92 :: 117 :: a :: b :: c :: d :: rest =>
      (hexUnit a b c d).bind (fun unit =>
        (parseString rest).map (fun p => (unit :: p.1, p.2)))
  | 92 :: c :: rest =>
      (escaped c).bind (fun unit => (parseString rest).map (fun p => (unit :: p.1, p.2)))
  | c :: rest =>
      if c < 32 then none else (parseString rest).map (fun p => (c :: p.1, p.2))

end Strings

section Stringify

mutual

def stringify : Data → Units
  | .null => [110, 117, 108, 108]
  | .bool true => [116, 114, 117, 101]
  | .bool false => [102, 97, 108, 115, 101]
  | .num value => if value.isFinite then numberToString value else [110, 117, 108, 108]
  | .str units => quote units
  | .arr items => 91 :: stringifyItems true items
  | .obj fields => 123 :: stringifyFields true fields

def stringifyItems : Bool → List Data → Units
  | _, [] => [93]
  | first, d :: ds => (if first then [] else [44]) ++ (stringify d ++ stringifyItems false ds)

def stringifyFields : Bool → List (Units × Data) → Units
  | _, [] => [125]
  | first, (name, d) :: fields =>
      (if first then [] else [44]) ++
        (quote name ++ 58 :: (stringify d ++ stringifyFields false fields))

end

end Stringify

section Parse

def isSpace (c : Nat) : Bool := c == 32 || c == 9 || c == 10 || c == 13

def skipSpace (text : Units) : Units := text.dropWhile isSpace

/-- The name is that of an array index, whose keys come first and ascending. -/
def isIndex (name : Units) : Bool :=
  name == [48] ||
    (name.all isDigit && name.head?.any (· != 48) && decide (digitsValue name < 4294967295))

def insertIndex {β : Type} (name : Units) (d : β) : List (Units × β) → List (Units × β)
  | [] => [(name, d)]
  | (other, x) :: rest =>
      if isIndex other && decide (digitsValue other < digitsValue name) then
        (other, x) :: insertIndex name d rest
      else (name, d) :: (other, x) :: rest

/-- Define a field of an object: the value of a known name is replaced, a new
name takes its place among the own keys. -/
def defineField {β : Type} (fields : List (Units × β)) (name : Units) (d : β) :
    List (Units × β) :=
  if fields.any (fun field => field.1 == name) then
    fields.map (fun field => if field.1 = name then (name, d) else field)
  else if isIndex name then insertIndex name d fields
  else fields ++ [(name, d)]

variable {β γ : Type}

theorem insertIndex_map (f : β → γ) (name : Units) (x : β) (fields : List (Units × β)) :
    insertIndex name (f x) (fields.map (fun m => (m.1, f m.2))) =
      (insertIndex name x fields).map (fun m => (m.1, f m.2)) := by
  induction fields with
  | nil => rfl
  | cons m fields ih =>
      obtain ⟨other, y⟩ := m
      rw [List.map_cons, insertIndex, insertIndex, ih]
      split_ifs <;> rfl

theorem defineField_map (f : β → γ) (fields : List (Units × β)) (name : Units) (x : β) :
    defineField (fields.map (fun m => (m.1, f m.2))) name (f x) =
      (defineField fields name x).map (fun m => (m.1, f m.2)) := by
  have hany : (fields.map (fun m => (m.1, f m.2))).any (fun field => field.1 == name) =
      fields.any (fun field => field.1 == name) := by
    rw [List.any_map]
    rfl
  unfold defineField
  rw [hany]
  split_ifs
  · rw [List.map_map, List.map_map]
    refine List.map_congr_left (fun m _ => ?_)
    simp only [Function.comp_apply]
    split_ifs <;> rfl
  · exact insertIndex_map f name x fields
  · rw [List.map_append]
    rfl

mutual

def parseValue : Nat → Units → Option (Data × Units)
  | 0, _ => none
  | fuel + 1, text =>
      match skipSpace text with
      | 110 :: 117 :: 108 :: 108 :: rest => some (.null, rest)
      | 116 :: 114 :: 117 :: 101 :: rest => some (.bool true, rest)
      | 102 :: 97 :: 108 :: 115 :: 101 :: rest => some (.bool false, rest)
      | 34 :: rest => (parseString rest).map (fun p => (.str p.1, p.2))
      | 91 :: rest =>
          match skipSpace rest with
          | 93 :: rest => some (.arr [], rest)
          | rest => (parseItems fuel rest).map (fun p => (.arr p.1, p.2))
      | 123 :: rest =>
          match skipSpace rest with
          | 125 :: rest => some (.obj [], rest)
          | rest => (parseFields fuel [] rest).map (fun p => (.obj p.1, p.2))
      | text => (numberEnd text).map (fun rest => (.num (readNumeral text).1, rest))

def parseItems : Nat → Units → Option (List Data × Units)
  | 0, _ => none
  | fuel + 1, text =>
      match parseValue fuel text with
      | none => none
      | some (d, rest) =>
          match skipSpace rest with
          | 44 :: rest => (parseItems fuel rest).map (fun p => (d :: p.1, p.2))
          | 93 :: rest => some ([d], rest)
          | _ => none

def parseFields : Nat → List (Units × Data) → Units → Option (List (Units × Data) × Units)
  | 0, _, _ => none
  | fuel + 1, fields, text =>
      match skipSpace text with
      | 34 :: rest =>
          match parseString rest with
          | none => none
          | some (name, rest) =>
              match skipSpace rest with
              | 58 :: rest =>
                  match parseValue fuel rest with
                  | none => none
                  | some (d, rest) =>
                      match skipSpace rest with
                      | 44 :: rest => parseFields fuel (defineField fields name d) rest
                      | 125 :: rest => some (defineField fields name d, rest)
                      | _ => none
              | _ => none
      | _ => none

end

def parse (text : Units) : Option Data :=
  match parseValue (text.length + 1) text with
  | some (d, rest) => if skipSpace rest = [] then some d else none
  | none => none

end Parse

section StringRoundTrip

theorem hexValue_hexDigit {n : Nat} (h : n < 16) : hexValue (hexDigit n) = some n := by
  interval_cases n <;> rfl

theorem hexUnit_unicodeEscape {c : Nat} (h : c < 65536) :
    hexUnit (hexDigit (c / 4096 % 16)) (hexDigit (c / 256 % 16)) (hexDigit (c / 16 % 16))
      (hexDigit (c % 16)) = some c := by
  have hmod : ∀ n, n % 16 < 16 := fun n => Nat.mod_lt n (by decide)
  simp only [hexUnit, hexValue_hexDigit (hmod _), Option.bind_some, Option.map_some,
    Option.some.injEq]
  omega

theorem parseString_raw {c : Nat} (hquote : c ≠ 34) (hslash : c ≠ 92) (hlow : 32 ≤ c)
    (rest : Units) :
    parseString (c :: rest) = (parseString rest).map (fun p => (c :: p.1, p.2)) := by
  rw [parseString]
  · rw [if_neg (by omega)]
  · exact hquote
  · rintro a b d e rest' h -
    exact hslash h
  · rintro d rest' h -
    exact hslash h

theorem parseString_escaped {c unit : Nat} (hu : c ≠ 117) (h : escaped c = some unit)
    (rest : Units) :
    parseString (92 :: c :: rest) = (parseString rest).map (fun p => (unit :: p.1, p.2)) := by
  rw [parseString]
  · rw [h, Option.bind_some]
  · rintro a b d e rest' h' -
    exact hu h'

theorem parseString_quoteUnit (c : Nat) (rest : Units) :
    parseString (quoteUnit c ++ rest) = (parseString rest).map (fun p => (c :: p.1, p.2)) := by
  unfold quoteUnit
  by_cases h₁ : c = 34 ∨ c = 92
  · rw [if_pos h₁]
    refine parseString_escaped (by omega) ?_ rest
    rw [escaped, if_pos (by omega)]
  rw [if_neg h₁]
  by_cases h₂ : c = 8
  · rw [if_pos h₂, h₂]
    exact parseString_escaped (by decide) rfl rest
  rw [if_neg h₂]
  by_cases h₃ : c = 9
  · rw [if_pos h₃, h₃]
    exact parseString_escaped (by decide) rfl rest
  rw [if_neg h₃]
  by_cases h₄ : c = 10
  · rw [if_pos h₄, h₄]
    exact parseString_escaped (by decide) rfl rest
  rw [if_neg h₄]
  by_cases h₅ : c = 12
  · rw [if_pos h₅, h₅]
    exact parseString_escaped (by decide) rfl rest
  rw [if_neg h₅]
  by_cases h₆ : c = 13
  · rw [if_pos h₆, h₆]
    exact parseString_escaped (by decide) rfl rest
  rw [if_neg h₆]
  by_cases h₇ : c < 32 ∨ isHigh c = true ∨ isLow c = true
  · rw [if_pos h₇]
    have hsmall : c < 65536 := by
      simp only [isHigh, isLow, Bool.and_eq_true, decide_eq_true_eq] at h₇
      omega
    simp only [unicodeEscape, List.cons_append, List.nil_append]
    rw [parseString, hexUnit_unicodeEscape hsmall, Option.bind_some]
  · rw [if_neg h₇]
    exact parseString_raw (by omega) (by omega) (by omega) rest

theorem parseString_quoteUnits (units rest : Units) :
    parseString (quoteUnits units ++ rest) = some (units, rest) := by
  induction units using quoteUnits.induct with
  | case1 => rfl
  | case2 c =>
      rw [quoteUnits, List.append_assoc, parseString_quoteUnit]
      rfl
  | case3 c d units hpair ih =>
      obtain ⟨hhigh, hlow⟩ := hpair
      rw [quoteUnits, if_pos ⟨hhigh, hlow⟩]
      simp only [isHigh, isLow, Bool.and_eq_true, decide_eq_true_eq] at hhigh hlow
      rw [List.cons_append, parseString_raw (by omega) (by omega) (by omega),
        List.cons_append, parseString_raw (by omega) (by omega) (by omega), ih]
      rfl
  | case4 c d units hpair ih =>
      rw [quoteUnits, if_neg hpair, List.append_assoc, parseString_quoteUnit, ih]
      rfl

end StringRoundTrip

section RoundTrip

mutual

/-- Data as it is read again: `-0` as `0`, and what is no finite number as
`null`. -/
def Data.reread : Data → Data
  | .num value => if value.isFinite then .num (unsignedZero value) else .null
  | .arr items => .arr (rereadItems items)
  | .obj fields => .obj (rereadFields fields)
  | d => d

def rereadItems : List Data → List Data
  | [] => []
  | d :: ds => d.reread :: rereadItems ds

def rereadFields : List (Units × Data) → List (Units × Data)
  | [] => []
  | (name, d) :: fields => (name, d.reread) :: rereadFields fields

end

theorem rereadItems_eq_map (items : List Data) :
    rereadItems items = items.map Data.reread := by
  induction items with
  | nil => rfl
  | cons d ds ih => rw [rereadItems, ih, List.map_cons]

theorem rereadFields_eq_map (fields : List (Units × Data)) :
    rereadFields fields = fields.map (fun field => (field.1, field.2.reread)) := by
  induction fields with
  | nil => rfl
  | cons field fields ih => rw [rereadFields, ih, List.map_cons]

/-- The order of own keys: they differ, the array indices come first, and these
ascend. -/
def OwnKeys (names : List Units) : Prop :=
  names.Pairwise (fun a b =>
    a ≠ b ∧ (isIndex b = true → isIndex a = true ∧ digitsValue a < digitsValue b))

inductive WellFormed : Data → Prop
  | null : WellFormed .null
  | bool (value : Bool) : WellFormed (.bool value)
  | num (value : Float) : WellFormed (.num value)
  | str (units : Units) : WellFormed (.str units)
  | arr {items : List Data} : (∀ d ∈ items, WellFormed d) → WellFormed (.arr items)
  | obj {fields : List (Units × Data)} : (∀ field ∈ fields, WellFormed field.2) →
      OwnKeys (fields.map Prod.fst) → WellFormed (.obj fields)

def Reads (d : Data) : Prop :=
  ∀ fuel rest, (stringify d).length < fuel → Stops rest →
    parseValue fuel (stringify d ++ rest) = some (d.reread, rest)

variable {c : Nat}

theorem stops_cons (hdigit : isDigit c = false) (hpoint : c ≠ 46) (he : c ≠ 101)
    (hE : c ≠ 69) (rest : Units) : Stops (c :: rest) := by
  rintro c' hc
  cases hc
  exact ⟨hdigit, hpoint, he, hE⟩

theorem skipSpace_cons (h : isSpace c = false) (rest : Units) :
    skipSpace (c :: rest) = c :: rest := by
  simp [skipSpace, h]

theorem stringifyItems_stops (items : List Data) (rest : Units) :
    Stops (stringifyItems false items ++ rest) := by
  cases items with
  | nil | cons _ _ => exact stops_cons (by decide) (by decide) (by decide) (by decide) _

theorem stringifyFields_stops (fields : List (Units × Data)) (rest : Units) :
    Stops (stringifyFields false fields ++ rest) := by
  cases fields with
  | nil | cons _ _ => exact stops_cons (by decide) (by decide) (by decide) (by decide) _

variable {d : Data} {fuel : Nat}

theorem parseItems_comma {text rest : Units} (h : parseValue fuel text = some (d, 44 :: rest)) :
    parseItems (fuel + 1) text = (parseItems fuel rest).map (fun p => (d :: p.1, p.2)) := by
  rw [parseItems, h]
  rfl

theorem parseItems_close {text rest : Units} (h : parseValue fuel text = some (d, 93 :: rest)) :
    parseItems (fuel + 1) text = some ([d], rest) := by
  rw [parseItems, h]
  rfl

theorem parseItems_stringify {items : List Data} (h : ∀ d ∈ items, Reads d)
    (hd : Reads d) (fuel : Nat)
    (hfuel : (stringify d).length + (stringifyItems false items).length < fuel) (rest : Units) :
    parseItems fuel (stringify d ++ (stringifyItems false items ++ rest)) =
      some (d.reread :: items.map Data.reread, rest) := by
  obtain ⟨fuel, rfl⟩ := Nat.exists_eq_succ_of_ne_zero (Nat.ne_of_gt (Nat.zero_lt_of_lt hfuel))
  induction items generalizing d fuel with
  | nil =>
      simp only [stringifyItems, List.length_singleton] at hfuel
      exact parseItems_close (hd fuel _ (by omega) (stringifyItems_stops [] rest))
  | cons e es ih =>
      have htext : stringifyItems false (e :: es) ++ rest =
          44 :: (stringify e ++ (stringifyItems false es ++ rest)) := by
        simp [stringifyItems]
      simp only [stringifyItems, List.length_append, Bool.false_eq_true, if_false,
        List.length_singleton] at hfuel
      have hread := hd fuel _ (by omega) (stringifyItems_stops (e :: es) rest)
      obtain ⟨fuel, rfl⟩ := Nat.exists_eq_succ_of_ne_zero (by omega : fuel ≠ 0)
      have hnext := ih (fun d' hd' => h d' (List.mem_cons_of_mem _ hd')) (h e (by simp)) fuel
        (by omega)
      rw [htext] at hread ⊢
      rw [parseItems_comma hread, hnext]
      rfl

variable {name : Units}

theorem insertIndex_last {β : Type} (d : β) {fields : List (Units × β)}
    (h : ∀ field ∈ fields, isIndex field.1 = true ∧ digitsValue field.1 < digitsValue name) :
    insertIndex name d fields = fields ++ [(name, d)] := by
  induction fields with
  | nil => rfl
  | cons field fields ih =>
      obtain ⟨hindex, hlt⟩ := h field (by simp)
      rw [insertIndex, hindex, ih (fun f hf => h f (List.mem_cons_of_mem _ hf))]
      simp [hlt]

theorem defineField_last {β : Type} {fields : List (Units × β)} {d : β}
    (h : ∀ field ∈ fields, field.1 ≠ name ∧ (isIndex name = true →
      isIndex field.1 = true ∧ digitsValue field.1 < digitsValue name)) :
    defineField fields name d = fields ++ [(name, d)] := by
  have hany : fields.any (fun field => field.1 == name) = false := by
    rw [List.any_eq_false]
    rintro field hfield
    simpa using (h field hfield).1
  unfold defineField
  rw [hany]
  by_cases hindex : isIndex name = true
  · rw [hindex]
    exact insertIndex_last d (fun field hfield => (h field hfield).2 hindex)
  · rw [Bool.not_eq_true] at hindex
    rw [hindex]
    rfl

theorem parseFields_name (fuel : Nat) (fields : List (Units × Data)) (name text : Units) :
    parseFields (fuel + 1) fields (quote name ++ 58 :: text) =
      match parseValue fuel text with
      | none => none
      | some (d, rest) =>
          match skipSpace rest with
          | 44 :: rest => parseFields fuel (defineField fields name d) rest
          | 125 :: rest => some (defineField fields name d, rest)
          | _ => none := by
  rw [parseFields, quote, List.cons_append, skipSpace_cons (by decide)]
  simp only [parseString_quoteUnits]
  rfl

theorem parseFields_stringify {fields : List (Units × Data)}
    (h : ∀ field ∈ fields, Reads field.2) (hd : Reads d) (read : List (Units × Data))
    (hkeys : OwnKeys (read.map Prod.fst ++ name :: fields.map Prod.fst)) (fuel : Nat)
    (hfuel : (stringify d).length + (stringifyFields false fields).length < fuel) (rest : Units) :
    parseFields fuel read
        (quote name ++ 58 :: (stringify d ++ (stringifyFields false fields ++ rest))) =
      some (read ++ (name, d.reread) ::
        fields.map (fun field => (field.1, field.2.reread)), rest) := by
  obtain ⟨fuel, rfl⟩ := Nat.exists_eq_succ_of_ne_zero (Nat.ne_of_gt (Nat.zero_lt_of_lt hfuel))
  have hdefine : defineField read name d.reread = read ++ [(name, d.reread)] := by
    refine defineField_last ?_
    intro field hfield
    exact (List.pairwise_append.mp hkeys).2.2 _ (List.mem_map_of_mem hfield) _ (by simp)
  induction fields generalizing name d read fuel with
  | nil =>
      simp only [stringifyFields, List.length_singleton] at hfuel
      rw [parseFields_name, hd fuel _ (by omega) (stringifyFields_stops [] rest),
        List.map_nil, ← hdefine]
      rfl
  | cons field fields ih =>
      obtain ⟨other, e⟩ := field
      have htext : stringifyFields false ((other, e) :: fields) ++ rest =
          44 :: (quote other ++
            58 :: (stringify e ++ (stringifyFields false fields ++ rest))) := by
        simp [stringifyFields]
      simp only [stringifyFields, List.length_append, Bool.false_eq_true, if_false,
        List.length_cons] at hfuel
      have hread := hd fuel _ (by omega) (stringifyFields_stops ((other, e) :: fields) rest)
      obtain ⟨fuel, rfl⟩ := Nat.exists_eq_succ_of_ne_zero (by omega : fuel ≠ 0)
      have hkeys' : OwnKeys ((read ++ [(name, d.reread)]).map Prod.fst ++
          other :: fields.map Prod.fst) := by
        simpa using hkeys
      have hlast : defineField (read ++ [(name, d.reread)]) other e.reread =
          (read ++ [(name, d.reread)]) ++ [(other, e.reread)] := by
        refine defineField_last ?_
        intro field hfield
        exact (List.pairwise_append.mp hkeys').2.2 _ (List.mem_map_of_mem hfield) _ (by simp)
      have hnext := ih (fun f hf => h f (List.mem_cons_of_mem _ hf)) (h (other, e) (by simp))
        (read ++ [(name, d.reread)]) hkeys' fuel (by simp only; omega) hlast
      rw [htext] at hread ⊢
      rw [parseFields_name, hread]
      simp only
      rw [skipSpace_cons (by decide)]
      simp only [hdefine, hnext, List.append_assoc, List.singleton_append, List.map_cons]

theorem isSpace_of_head (h : c = 45 ∨ isDigit c = true) : isSpace c = false := by
  rcases h with rfl | h
  · decide
  · simp only [isDigit, Bool.and_eq_true, decide_eq_true_eq] at h
    simp only [isSpace, Bool.or_eq_false_iff, beq_eq_false_iff_ne]
    omega

theorem parseValue_number {text : Units} (h : c = 45 ∨ isDigit c = true) (fuel : Nat) :
    parseValue (fuel + 1) (c :: text) =
      (numberEnd (c :: text)).map (fun rest => (.num (readNumeral (c :: text)).1, rest)) := by
  have hbounds : c = 45 ∨ 48 ≤ c ∧ c ≤ 57 := by
    simpa [isDigit] using h
  rw [parseValue, skipSpace_cons (isSpace_of_head h)]
  split
  all_goals first
    | rfl
    | (rename_i heq; cases heq; omega)

theorem WellFormed.head {d : Data} (h : WellFormed d) :
    ∃ c text, stringify d = c :: text ∧ isSpace c = false ∧ c ≠ 93 := by
  cases h with
  | null => exact ⟨110, _, rfl, by decide, by decide⟩
  | bool value => cases value <;> exact ⟨_, _, rfl, by decide, by decide⟩
  | num value =>
      by_cases hfinite : value.isFinite = true
      · obtain ⟨c, text, hcons, hc⟩ := head_numberToString hfinite
        rw [stringify, if_pos hfinite]
        refine ⟨c, text, hcons, isSpace_of_head hc, ?_⟩
        rintro rfl
        rcases hc with hc | hc <;> exact absurd hc (by decide)
      · rw [stringify, if_neg hfinite]
        exact ⟨110, _, rfl, by decide, by decide⟩
  | str units => exact ⟨34, _, rfl, by decide, by decide⟩
  | arr _ => exact ⟨91, _, rfl, by decide, by decide⟩
  | obj _ _ => exact ⟨123, _, rfl, by decide, by decide⟩

theorem parseValue_items {text : Units} (hspace : isSpace c = false) (hclose : c ≠ 93) :
    parseValue (fuel + 1) (91 :: c :: text) =
      (parseItems fuel (c :: text)).map (fun p => (.arr p.1, p.2)) := by
  rw [parseValue, skipSpace_cons (by decide)]
  simp only [skipSpace_cons hspace]
  split
  · rename_i heq
    cases heq
    exact absurd rfl hclose
  · rfl

theorem parseValue_fields (name text : Units) :
    parseValue (fuel + 1) (123 :: (quote name ++ text)) =
      (parseFields fuel [] (quote name ++ text)).map (fun p => (.obj p.1, p.2)) := by
  rw [parseValue, skipSpace_cons (by decide)]
  simp only [quote, List.cons_append, skipSpace_cons (show isSpace 34 = false by decide)]

theorem WellFormed.reads (h : WellFormed d) : Reads d := by
  induction h with
  | null =>
      intro fuel rest hfuel _
      obtain ⟨fuel, rfl⟩ := Nat.exists_eq_succ_of_ne_zero (by omega : fuel ≠ 0)
      rfl
  | bool value =>
      intro fuel rest hfuel _
      obtain ⟨fuel, rfl⟩ := Nat.exists_eq_succ_of_ne_zero (by omega : fuel ≠ 0)
      cases value <;> rfl
  | num value =>
      intro fuel rest hfuel hrest
      obtain ⟨fuel, rfl⟩ := Nat.exists_eq_succ_of_ne_zero (by omega : fuel ≠ 0)
      by_cases hfinite : value.isFinite = true
      · obtain ⟨c, text, hcons, hc⟩ := head_numberToString hfinite
        have hend := numberEnd_numberToString hfinite hrest
        have hread := readNumeral_numberToString hfinite hrest
        rw [hcons, List.cons_append] at hend hread
        rw [stringify, if_pos hfinite, hcons, List.cons_append, parseValue_number hc, hend,
          hread, Data.reread, if_pos hfinite]
        rfl
      · rw [stringify, if_neg hfinite, Data.reread, if_neg hfinite]
        rfl
  | str units =>
      intro fuel rest hfuel _
      obtain ⟨fuel, rfl⟩ := Nat.exists_eq_succ_of_ne_zero (by omega : fuel ≠ 0)
      rw [stringify, quote, List.cons_append, parseValue, skipSpace_cons (by decide)]
      simp only [parseString_quoteUnits]
      rfl
  | @arr items hitems ih =>
      intro fuel rest hfuel _
      obtain ⟨fuel, rfl⟩ := Nat.exists_eq_succ_of_ne_zero (by omega : fuel ≠ 0)
      cases items with
      | nil => rfl
      | cons d ds =>
          obtain ⟨c, text, hcons, hspace, hclose⟩ := (hitems d (by simp)).head
          simp only [stringify, stringifyItems, if_true, List.nil_append, List.length_cons,
            List.length_append] at hfuel
          have hread := parseItems_stringify (fun e he => ih e (List.mem_cons_of_mem _ he))
            (ih d (by simp)) fuel (by omega) rest
          rw [stringify, stringifyItems, if_pos rfl, List.nil_append, List.cons_append,
            List.append_assoc]
          rw [hcons, List.cons_append] at hread ⊢
          rw [parseValue_items hspace hclose, hread, Data.reread, rereadItems_eq_map]
          rfl
  | @obj fields hfields hkeys ih =>
      intro fuel rest hfuel _
      obtain ⟨fuel, rfl⟩ := Nat.exists_eq_succ_of_ne_zero (by omega : fuel ≠ 0)
      cases fields with
      | nil => rfl
      | cons field fields =>
          obtain ⟨name, d⟩ := field
          simp only [stringify, stringifyFields, if_true, List.nil_append, List.length_cons,
            List.length_append] at hfuel
          have hread := parseFields_stringify (fun f hf => ih f (List.mem_cons_of_mem _ hf))
            (ih (name, d) (by simp)) [] (by simpa using hkeys) fuel (by simp only; omega) rest
          rw [stringify, stringifyFields, if_pos rfl, List.nil_append, List.cons_append,
            List.append_assoc, List.cons_append, List.append_assoc, parseValue_fields, hread,
            Data.reread, rereadFields_eq_map]
          rfl

theorem reread_written (h : WellFormed d) :
    parse (stringify d) = some d.reread := by
  have hstops : Stops [] := by
    rintro c hc
    cases hc
  have hread := h.reads ((stringify d).length + 1) [] (Nat.lt_succ_self _) hstops
  rw [List.append_nil] at hread
  rw [parse, hread]
  rfl

end RoundTrip

end EcmaJson
end Library
