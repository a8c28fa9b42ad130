import Zdeceptron.Library.EcmaStrings

/-!
# Literals as JSON and as an expression

The syntax of a JSON text is a tree.  JSON reads the tree as data.  ECMAScript reads it as an
expression, of which every object has a prototype: a member named `__proto__` sets it and
defines no property, and an object may have one such member only.
-/

namespace Library
namespace EcmaLiterals

open EcmaJson (Data defineField skipSpace)

section Trees

/-- The syntax of a JSON text, each object with its members as they are written. -/
inductive Tree
  | null
  | bool (value : Bool)
  | num (value : Float)
  | str (units : Units)
  | arr (items : List Tree)
  | obj (members : List (Units × Tree))

/-- A value of ECMAScript; an object whose prototype is not given has that of all objects. -/
inductive Value
  | null
  | bool (value : Bool)
  | num (value : Float)
  | str (units : Units)
  | arr (items : List Value)
  | obj (prototype : Option Value) (fields : List (Units × Value))

/-- The name `__proto__`. -/
def protoName : Units := [95, 95, 112, 114, 111, 116, 111, 95, 95]

/-- What a value is as a prototype: an object or `null`, and nothing else. -/
def Value.asPrototype : Value → Option Value
  | .null => some .null
  | .arr items => some (.arr items)
  | .obj prototype fields => some (.obj prototype fields)
  | _ => none

mutual

def Tree.data : Tree → Data
  | .null => .null
  | .bool value => .bool value
  | .num value => .num value
  | .str units => .str units
  | .arr items => .arr (dataItems items)
  | .obj members => .obj (dataFields [] members)

def dataItems : List Tree → List Data
  | [] => []
  | t :: ts => t.data :: dataItems ts

def dataFields (fields : List (Units × Data)) : List (Units × Tree) → List (Units × Data)
  | [] => fields
  | (name, t) :: members => dataFields (defineField fields name t.data) members

end

mutual

def Tree.value : Tree → Value
  | .null => .null
  | .bool value => .bool value
  | .num value => .num value
  | .str units => .str units
  | .arr items => .arr (valueItems items)
  | .obj members => .obj (prototypeOf members) (valueFields [] members)

def valueItems : List Tree → List Value
  | [] => []
  | t :: ts => t.value :: valueItems ts

def valueFields (fields : List (Units × Value)) : List (Units × Tree) → List (Units × Value)
  | [] => fields
  | (name, t) :: members =>
      if name = protoName then valueFields fields members
      else valueFields (defineField fields name t.value) members

def prototypeOf : List (Units × Tree) → Option Value
  | [] => none
  | (name, t) :: members =>
      match prototypeOf members with
      | some prototype => some prototype
      | none => if name = protoName then t.value.asPrototype else none

end

mutual

/-- No object has two members named `__proto__`, which is an early error. -/
def Tree.once : Tree → Bool
  | .arr items => onceItems items
  | .obj members =>
      decide (members.countP (fun m => decide (m.1 = protoName)) ≤ 1) && onceMembers members
  | _ => true

def onceItems : List Tree → Bool
  | [] => true
  | t :: ts => t.once && onceItems ts

def onceMembers : List (Units × Tree) → Bool
  | [] => true
  | (_, t) :: members => t.once && onceMembers members

end

def Tree.evaluate (t : Tree) : Option Value := if t.once then some t.value else none

mutual

def ofData : Data → Value
  | .null => .null
  | .bool value => .bool value
  | .num value => .num value
  | .str units => .str units
  | .arr items => .arr (ofItems items)
  | .obj fields => .obj none (ofFields fields)

def ofItems : List Data → List Value
  | [] => []
  | d :: ds => ofData d :: ofItems ds

def ofFields : List (Units × Data) → List (Units × Value)
  | [] => []
  | (name, d) :: fields => (name, ofData d) :: ofFields fields

end

mutual

/-- No object has a property named `__proto__`. -/
def plain : Data → Bool
  | .arr items => plainItems items
  | .obj fields => plainFields fields
  | _ => true

def plainItems : List Data → Bool
  | [] => true
  | d :: ds => plain d && plainItems ds

def plainFields : List (Units × Data) → Bool
  | [] => true
  | (name, d) :: fields => decide (name ≠ protoName) && plain d && plainFields fields

end

end Trees

section Readings

theorem Tree.induction {P : Tree → Prop} (null : P .null) (bool : ∀ value, P (.bool value))
    (num : ∀ value, P (.num value)) (str : ∀ units, P (.str units))
    (arr : ∀ items, (∀ t ∈ items, P t) → P (.arr items))
    (obj : ∀ members, (∀ m ∈ members, P m.2) → P (.obj members)) : ∀ t, P t
  | .null => null
  | .bool value => bool value
  | .num value => num value
  | .str units => str units
  | .arr items => arr items (fun t _ => Tree.induction null bool num str arr obj t)
  | .obj members => obj members (fun m _ => Tree.induction null bool num str arr obj m.2)
termination_by t => sizeOf t
decreasing_by
  · rename_i hmem
    have := List.sizeOf_lt_of_mem hmem
    simp only [Tree.arr.sizeOf_spec]
    omega
  · rename_i hmem
    have hlt := List.sizeOf_lt_of_mem hmem
    have hsnd : sizeOf m = 1 + sizeOf m.1 + sizeOf m.2 := by
      obtain ⟨name, t⟩ := m
      rfl
    simp only [Tree.obj.sizeOf_spec]
    omega

theorem dataItems_eq (items : List Tree) : dataItems items = items.map Tree.data := by
  induction items with
  | nil => rfl
  | cons t items ih => rw [dataItems, ih, List.map_cons]

theorem valueItems_eq (items : List Tree) : valueItems items = items.map Tree.value := by
  induction items with
  | nil => rfl
  | cons t items ih => rw [valueItems, ih, List.map_cons]

theorem ofItems_eq (items : List Data) : ofItems items = items.map ofData := by
  induction items with
  | nil => rfl
  | cons d items ih => rw [ofItems, ih, List.map_cons]

theorem ofFields_eq (fields : List (Units × Data)) :
    ofFields fields = fields.map (fun field => (field.1, ofData field.2)) := by
  induction fields with
  | nil => rfl
  | cons field fields ih =>
      obtain ⟨name, d⟩ := field
      rw [ofFields, ih, List.map_cons]

theorem plainItems_eq (items : List Data) : plainItems items = items.all plain := by
  induction items with
  | nil => rfl
  | cons d items ih => rw [plainItems, ih, List.all_cons]

theorem plainFields_eq (fields : List (Units × Data)) :
    plainFields fields =
      fields.all (fun field => decide (field.1 ≠ protoName) && plain field.2) := by
  induction fields with
  | nil => rfl
  | cons field fields ih =>
      obtain ⟨name, d⟩ := field
      rw [plainFields, ih, List.all_cons]

def kept {β : Type} (fields members : List (Units × β)) : List (Units × β) :=
  members.foldl (fun fields m => defineField fields m.1 m.2) fields

variable {β γ : Type}

theorem kept_map (f : β → γ) (fields members : List (Units × β)) :
    kept (fields.map (fun m => (m.1, f m.2))) (members.map (fun m => (m.1, f m.2))) =
      (kept fields members).map (fun m => (m.1, f m.2)) := by
  induction members generalizing fields with
  | nil => rfl
  | cons m members ih =>
      unfold kept at ih ⊢
      rw [List.map_cons, List.foldl_cons, List.foldl_cons, EcmaJson.defineField_map, ih]

variable {fields : List (Units × β)} {m : Units × β}

theorem mem_insertIndex {name : Units} {x : β} :
    m ∈ EcmaJson.insertIndex name x fields ↔ m = (name, x) ∨ m ∈ fields := by
  induction fields with
  | nil => simp [EcmaJson.insertIndex]
  | cons other fields ih =>
      rw [EcmaJson.insertIndex]
      split_ifs
      · rw [List.mem_cons, ih, List.mem_cons]
        tauto
      · simp only [List.mem_cons]

theorem mem_of_defineField {name : Units} {x : β}
    (h : m ∈ defineField fields name x) : m = (name, x) ∨ m ∈ fields := by
  unfold defineField at h
  split_ifs at h
  · obtain ⟨other, hother, heq⟩ := List.mem_map.mp h
    split_ifs at heq with hname
    · exact .inl heq.symm
    · rw [← heq]
      exact .inr hother
  · exact mem_insertIndex.mp h
  · rcases List.mem_append.mp h with h | h
    · exact .inr h
    · exact .inl (List.mem_singleton.mp h)

theorem name_mem_defineField {name other : Units} {x : β} :
    (∃ y, (other, y) ∈ defineField fields name x) ↔ other = name ∨ ∃ y, (other, y) ∈ fields := by
  constructor
  · rintro ⟨y, hy⟩
    rcases mem_of_defineField hy with heq | hy
    · exact .inl (Prod.mk.inj heq).1
    · exact .inr ⟨y, hy⟩
  · intro h
    unfold defineField
    split_ifs with hany
    · obtain ⟨m, hm, hname⟩ := List.any_eq_true.mp hany
      by_cases hother : other = name
      · exact ⟨x, List.mem_map.mpr ⟨m, hm, by rw [if_pos (beq_iff_eq.mp hname), hother]⟩⟩
      · obtain ⟨y, hy⟩ := h.resolve_left hother
        exact ⟨y, List.mem_map.mpr ⟨(other, y), hy, if_neg hother⟩⟩
    · rcases h with rfl | ⟨y, hy⟩
      · exact ⟨x, mem_insertIndex.mpr (.inl rfl)⟩
      · exact ⟨y, mem_insertIndex.mpr (.inr hy)⟩
    · rcases h with rfl | ⟨y, hy⟩
      · exact ⟨x, List.mem_append_right _ List.mem_cons_self⟩
      · exact ⟨y, List.mem_append_left _ hy⟩

theorem mem_of_kept {fields members : List (Units × β)}
    (h : m ∈ kept fields members) : m ∈ fields ∨ m ∈ members := by
  induction members generalizing fields with
  | nil => exact .inl h
  | cons other members ih =>
      rcases ih h with h | h
      · rcases mem_of_defineField h with rfl | h
        · exact .inr List.mem_cons_self
        · exact .inl h
      · exact .inr (List.mem_cons_of_mem _ h)

theorem name_mem_kept {fields members : List (Units × β)} {name : Units} :
    (∃ y, (name, y) ∈ kept fields members) ↔
      (∃ y, (name, y) ∈ fields) ∨ ∃ y, (name, y) ∈ members := by
  induction members generalizing fields with
  | nil => simp [kept]
  | cons m members ih =>
      obtain ⟨other, x⟩ := m
      rw [show kept fields ((other, x) :: members) = kept (defineField fields other x) members
        from rfl, ih, name_mem_defineField]
      constructor
      · rintro ((rfl | h) | ⟨y, hy⟩)
        · exact .inr ⟨x, List.mem_cons_self⟩
        · exact .inl h
        · exact .inr ⟨y, List.mem_cons_of_mem _ hy⟩
      · rintro (h | ⟨y, hy⟩)
        · exact .inl (.inr h)
        · rcases List.mem_cons.mp hy with heq | hy
          · exact .inl (.inl (Prod.mk.inj heq).1)
          · exact .inr ⟨y, hy⟩

end Readings

section Agreement

def defining (members : List (Units × Tree)) : List (Units × Tree) :=
  members.filter (fun m => decide (m.1 ≠ protoName))

theorem dataFields_eq (fields : List (Units × Data)) (members : List (Units × Tree)) :
    dataFields fields members = kept fields (members.map (fun m => (m.1, m.2.data))) := by
  induction members generalizing fields with
  | nil => rfl
  | cons m members ih =>
      obtain ⟨name, t⟩ := m
      rw [dataFields, ih]
      rfl

theorem valueFields_eq (fields : List (Units × Value)) (members : List (Units × Tree)) :
    valueFields fields members =
      kept fields ((defining members).map (fun m => (m.1, m.2.value))) := by
  induction members generalizing fields with
  | nil => rfl
  | cons m members ih =>
      obtain ⟨name, t⟩ := m
      rw [valueFields, defining, List.filter_cons]
      split_ifs with hname hkeep
      · simp [hname] at hkeep
      · exact ih fields
      · exact ih _
      · simp [hname] at *

theorem prototypeOf_eq_none {members : List (Units × Tree)}
    (h : ∀ m ∈ members, m.1 ≠ protoName) : prototypeOf members = none := by
  induction members with
  | nil => rfl
  | cons m members ih =>
      obtain ⟨name, t⟩ := m
      rw [prototypeOf, ih (fun m hm => h m (List.mem_cons_of_mem _ hm))]
      exact if_neg (h _ List.mem_cons_self)

theorem obj_data (members : List (Units × Tree)) :
    (Tree.obj members).data = .obj ((kept [] members).map (fun m => (m.1, m.2.data))) := by
  rw [Tree.data, dataFields_eq, ← kept_map]
  rfl

theorem obj_value (members : List (Units × Tree)) :
    (Tree.obj members).value = .obj (prototypeOf members)
      ((kept [] (defining members)).map (fun m => (m.1, m.2.value))) := by
  rw [Tree.value, valueFields_eq, ← kept_map]
  rfl

theorem Tree.value_eq_iff (t : Tree) : t.value = ofData t.data ↔ plain t.data = true := by
  induction t using Tree.induction with
  | null | bool _ | num _ | str _ => exact iff_of_true rfl rfl
  | arr items ih =>
      rw [Tree.value, Tree.data, ofData, plain, Value.arr.injEq, valueItems_eq, dataItems_eq,
        ofItems_eq, plainItems_eq, List.map_map, List.map_inj_left, List.all_map,
        List.all_eq_true]
      exact forall₂_congr ih
  | obj members ih =>
      have hkept : ∀ m ∈ kept [] members, (m.2.value = ofData m.2.data ↔ plain m.2.data = true) :=
        fun m hm => ih m ((mem_of_kept hm).resolve_left List.not_mem_nil)
      rw [obj_data, obj_value, ofData, plain, ofFields_eq, plainFields_eq, List.map_map,
        List.all_map, Value.obj.injEq]
      by_cases hproto : ∀ m ∈ members, m.1 ≠ protoName
      · have hdefining : defining members = members :=
          List.filter_eq_self.mpr (fun m hm => decide_eq_true (hproto m hm))
        rw [prototypeOf_eq_none hproto, hdefining, List.map_inj_left, List.all_eq_true,
          and_iff_right rfl]
        refine forall₂_congr (fun m hm => ?_)
        have hname : m.1 ≠ protoName :=
          hproto m ((mem_of_kept hm).resolve_left List.not_mem_nil)
        simp [hname, hkept m hm]
      · push Not at hproto
        obtain ⟨⟨name, t⟩, hm, rfl⟩ := hproto
        obtain ⟨u, hu⟩ := (@name_mem_kept _ [] _ _).mpr (.inr ⟨t, hm⟩)
        refine iff_of_false ?_ ?_
        · rintro ⟨-, heq⟩
          have himage := List.mem_map_of_mem
            (f := (fun field : Units × Data => (field.1, ofData field.2)) ∘
              fun m : Units × Tree => (m.1, m.2.data)) hu
          rw [← heq] at himage
          obtain ⟨m, hm, hname⟩ := List.mem_map.mp himage
          have hdefines := List.mem_filter.mp ((mem_of_kept hm).resolve_left List.not_mem_nil)
          exact of_decide_eq_true hdefines.2 (congrArg Prod.fst hname)
        · intro hall
          have := List.all_eq_true.mp hall _ hu
          simp at this

end Agreement

section Readers

/-- How a grammar reads a string behind its opening quote, and what may follow a word or a
number. -/
structure Grammar where
  string : Units → Option (Units × Units)
  ends : Units → Bool

def json : Grammar := ⟨EcmaJson.parseString, fun _ => true⟩

def isPart (c : Nat) : Bool :=
  isDigit c || decide (65 ≤ c ∧ c ≤ 90) || decide (97 ≤ c ∧ c ≤ 122) || c == 36 || c == 95 ||
    c == 92 || decide (128 ≤ c)

/-- Expressions that are literals, objects and arrays, with the white space JSON has and
with a minus sign in front of a number only. -/
def ecma : Grammar :=
  ⟨fun text => EcmaStrings.readString 34 (text.length + 1) text,
    fun rest => !rest.head?.any isPart⟩

variable (grammar : Grammar)

def ended (t : Tree) (rest : Units) : Option (Tree × Units) :=
  if grammar.ends rest then some (t, rest) else none

mutual

def readTree : Nat → Units → Option (Tree × Units)
  | 0, _ => none
  | fuel + 1, text =>
      match skipSpace text with
      | 110 :: 117 :: 108 :: 108 :: rest => ended grammar .null rest
      | 116 :: 114 :: 117 :: 101 :: rest => ended grammar (.bool true) rest
      | 102 :: 97 :: 108 :: 115 :: 101 :: rest => ended grammar (.bool false) rest
      | 34 :: rest => (grammar.string rest).map (fun p => (.str p.1, p.2))
      | 91 :: rest =>
          match skipSpace rest with
          | 93 :: rest => some (.arr [], rest)
          | rest => (readItems fuel rest).map (fun p => (.arr p.1, p.2))
      | 123 :: rest =>
          match skipSpace rest with
          | 125 :: rest => some (.obj [], rest)
          | rest => (readMembers fuel rest).map (fun p => (.obj p.1, p.2))
      | text => (numberEnd text).bind (ended grammar (.num (readNumeral text).1))

def readItems : Nat → Units → Option (List Tree × Units)
  | 0, _ => none
  | fuel + 1, text =>
      match readTree fuel text with
      | none => none
      | some (t, rest) =>
          match skipSpace rest with
          | 44 :: rest => (readItems fuel rest).map (fun p => (t :: p.1, p.2))
          | 93 :: rest => some ([t], rest)
          | _ => none

def readMembers : Nat → Units → Option (List (Units × Tree) × Units)
  | 0, _ => none
  | fuel + 1, text =>
      match skipSpace text with
      | 34 :: rest =>
          match grammar.string rest with
          | none => none
          | some (name, rest) =>
              match skipSpace rest with
              | 58 :: rest =>
                  match readTree fuel rest with
                  | none => none
                  | some (t, rest) =>
                      match skipSpace rest with
                      | 44 :: rest =>
                          (readMembers fuel rest).map (fun p => ((name, t) :: p.1, p.2))
                      | 125 :: rest => some ([(name, t)], rest)
                      | _ => none
              | _ => none
      | _ => none

end

theorem parse_eq_read (fuel : Nat) :
    (∀ text, EcmaJson.parseValue fuel text =
        (readTree json fuel text).map (fun p => (p.1.data, p.2))) ∧
      (∀ text, EcmaJson.parseItems fuel text =
        (readItems json fuel text).map (fun p => (dataItems p.1, p.2))) ∧
      ∀ fields text, EcmaJson.parseFields fuel fields text =
        (readMembers json fuel text).map (fun p => (dataFields fields p.1, p.2)) := by
  -- where both readers match the same way, one split does for both
  induction fuel with
  | zero => exact ⟨fun _ => rfl, fun _ => rfl, fun _ _ => rfl⟩
  | succ fuel ih =>
      obtain ⟨hvalue, hitems, hfields⟩ := ih
      refine ⟨fun text => ?_, fun text => ?_, fun fields text => ?_⟩
      · rw [EcmaJson.parseValue, readTree]
        generalize skipSpace text = text
        split
        · rfl
        · rfl
        · rfl
        · rename_i rest
          show _ = Option.map _ ((EcmaJson.parseString rest).map (fun p => (Tree.str p.1, p.2)))
          rw [Option.map_map]
          rfl
        · rename_i rest
          show _ = Option.map _ (match skipSpace rest with
            | 93 :: rest => some (Tree.arr [], rest)
            | rest => (readItems json fuel rest).map (fun p => (Tree.arr p.1, p.2)))
          generalize skipSpace rest = rest
          split
          · rfl
          · rename_i hopen
            rw [hitems]
            try
              split
              · exact absurd rfl (hopen _)
            rw [Option.map_map, Option.map_map]
            rfl
        · rename_i rest
          show _ = Option.map _ (match skipSpace rest with
            | 125 :: rest => some (Tree.obj [], rest)
            | rest => (readMembers json fuel rest).map (fun p => (Tree.obj p.1, p.2)))
          generalize skipSpace rest = rest
          split
          · rfl
          · rename_i hopen
            rw [hfields]
            try
              split
              · exact absurd rfl (hopen _)
            rw [Option.map_map, Option.map_map]
            rfl
        · rename_i hnull htrue hfalse hstring hitems' hfields'
          try
            split
            · exact absurd rfl (hnull _)
            · exact absurd rfl (htrue _)
            · exact absurd rfl (hfalse _)
            · exact absurd rfl (hstring _)
            · exact absurd rfl (hitems' _)
            · exact absurd rfl (hfields' _)
          cases numberEnd text with
          | none => rfl
          | some rest => rfl
      · rw [EcmaJson.parseItems, readItems, hvalue]
        cases readTree json fuel text with
        | none => rfl
        | some p =>
            obtain ⟨t, rest⟩ := p
            simp only [Option.map_some]
            generalize skipSpace rest = rest
            split
            · rename_i rest
              show _ = Option.map _ ((readItems json fuel rest).map (fun p => (t :: p.1, p.2)))
              rw [hitems, Option.map_map, Option.map_map]
              rfl
            · rfl
            · rename_i hcomma hclose
              try
                split
                · exact absurd rfl (hcomma _)
                · exact absurd rfl (hclose _)
              rfl
      · rw [EcmaJson.parseFields, readMembers]
        generalize skipSpace text = text
        split
        · rename_i rest
          show _ = Option.map _ (match EcmaJson.parseString rest with
            | none => none
            | some (name, rest) => _)
          cases EcmaJson.parseString rest with
          | none => rfl
          | some p =>
              obtain ⟨name, rest⟩ := p
              dsimp only
              generalize skipSpace rest = rest
              split
              · rename_i rest
                rw [hvalue]
                show _ = Option.map _ (match readTree json fuel rest with
                  | none => none
                  | some (t, rest) =>
                      match skipSpace rest with
                      | 44 :: rest =>
                          (readMembers json fuel rest).map (fun p => ((name, t) :: p.1, p.2))
                      | 125 :: rest => some ([(name, t)], rest)
                      | _ => none)
                cases readTree json fuel rest with
                | none => rfl
                | some p =>
                    obtain ⟨t, rest⟩ := p
                    simp only [Option.map_some]
                    generalize skipSpace rest = rest
                    split
                    · rename_i rest
                      show _ = Option.map _ ((readMembers json fuel rest).map
                        (fun p => ((name, t) :: p.1, p.2)))
                      rw [hfields, Option.map_map]
                      rfl
                    · rfl
                    · rename_i hcomma hclose
                      try
                        split
                        · exact absurd rfl (hcomma _)
                        · exact absurd rfl (hclose _)
                      rfl
              · rename_i hcolon
                try
                  split
                  · exact absurd rfl (hcolon _)
                rfl
        · rename_i hstring
          try
            split
            · exact absurd rfl (hstring _)
          rfl

end Readers

section Spelling

def spellUnit (c : Nat) : Units :=
  if c = 8232 then [92, 117, 50, 48, 50, 56]
  else if c = 8233 then [92, 117, 50, 48, 50, 57]
  else [c]

/-- A text with its separators escaped, and with a closing parenthesis behind it or not. -/
def spell (close : Bool) (text : Units) : Units :=
  text.flatMap spellUnit ++ if close then [41] else []

def IsSeparator (c : Nat) : Prop := c = 8232 ∨ c = 8233

instance (c : Nat) : Decidable (IsSeparator c) := inferInstanceAs (Decidable (_ ∨ _))

variable {close : Bool} {c : Nat} {text rest : Units}

theorem spell_plain (h : ¬IsSeparator c) (text : Units) :
    spell close (c :: text) = c :: spell close text := by
  obtain ⟨hls, hps⟩ := not_or.mp h
  rw [spell, List.flatMap_cons, spellUnit, if_neg hls, if_neg hps]
  rfl

theorem spell_ascii (h : c < 128) (text : Units) :
    spell close (c :: text) = c :: spell close text :=
  spell_plain (by unfold IsSeparator; omega) text

theorem spell_separator (h : IsSeparator c) (text : Units) :
    ∃ d, spell close (c :: text) = 92 :: 117 :: 50 :: 48 :: 50 :: d :: spell close text ∧
      EcmaJson.hexUnit 50 48 50 d = some c := by
  rcases h with rfl | rfl
  · exact ⟨56, rfl, by decide⟩
  · exact ⟨57, rfl, by decide⟩

structure Runs (p : Nat → Bool) : Prop where
  slash : p 92 = false
  close : p 41 = false
  separator : ∀ c, IsSeparator c → p c = false

theorem runs_digit : Runs isDigit := ⟨rfl, rfl, by rintro c (rfl | rfl) <;> rfl⟩

theorem runs_space : Runs EcmaJson.isSpace := ⟨rfl, rfl, by rintro c (rfl | rfl) <;> rfl⟩

variable {p : Nat → Bool}

theorem Runs.takeWhile (h : Runs p) (text : Units) :
    (spell close text).takeWhile p = text.takeWhile p := by
  induction text with
  | nil => cases close <;> simp [spell, h.close]
  | cons c text ih =>
      by_cases hc : IsSeparator c
      · obtain ⟨d, hspell, -⟩ := spell_separator hc text
        rw [hspell, List.takeWhile_cons, h.slash, if_neg Bool.false_ne_true, List.takeWhile_cons,
          h.separator c hc, if_neg Bool.false_ne_true]
      · rw [spell_plain hc, List.takeWhile_cons, List.takeWhile_cons, ih]

theorem Runs.dropWhile (h : Runs p) (text : Units) :
    (spell close text).dropWhile p = spell close (text.dropWhile p) := by
  induction text with
  | nil => cases close <;> simp [spell, h.close]
  | cons c text ih =>
      by_cases hc : IsSeparator c
      · obtain ⟨d, hspell, -⟩ := spell_separator hc text
        rw [List.dropWhile_cons, h.separator c hc, if_neg Bool.false_ne_true, hspell,
          List.dropWhile_cons, h.slash, if_neg Bool.false_ne_true]
      · rw [spell_plain hc, List.dropWhile_cons, List.dropWhile_cons]
        split_ifs
        · exact ih
        · exact (spell_plain hc text).symm

theorem Runs.head (h : Runs p) (text : Units) :
    (spell close text).head?.any p = text.head?.any p := by
  cases text with
  | nil => cases close <;> simp [spell, h.close]
  | cons c text =>
      by_cases hc : IsSeparator c
      · obtain ⟨d, hspell, -⟩ := spell_separator hc text
        rw [hspell, List.head?_cons, List.head?_cons, Option.any_some, Option.any_some, h.slash,
          h.separator c hc]
      · rw [spell_plain hc]
        rfl

theorem skipSpace_spell (text : Units) :
    skipSpace (spell close text) = spell close (skipSpace text) :=
  runs_space.dropWhile text

theorem spell_cases (close : Bool) (text : Units) :
    text = [] ∨
      (∃ c rest, text = c :: rest ∧ ¬IsSeparator c ∧ spell close text = c :: spell close rest) ∨
      ∃ c rest escape, text = c :: rest ∧ IsSeparator c ∧ spell close text = 92 :: escape := by
  cases text with
  | nil => exact .inl rfl
  | cons c rest =>
      by_cases hc : IsSeparator c
      · obtain ⟨d, hspell, -⟩ := spell_separator hc rest
        exact .inr (.inr ⟨c, rest, _, rfl, hc, hspell⟩)
      · exact .inr (.inl ⟨c, rest, rfl, hc, spell_plain hc rest⟩)

theorem of_spell_cons {k : Nat} {more : Units} (hk : k ≠ 92) (hclose : k ≠ 41)
    (h : spell close text = k :: more) :
    ∃ rest, text = k :: rest := by
  rcases spell_cases close text with
    rfl | ⟨c, rest, rfl, -, hspell⟩ | ⟨c, rest, escape, rfl, -, hspell⟩
  · cases close with
    | false => cases h
    | true => exact absurd (List.cons.inj h).1.symm hclose
  · rw [hspell] at h
    exact ⟨rest, by rw [(List.cons.inj h).1]⟩
  · rw [hspell] at h
    exact absurd (List.cons.inj h).1.symm hk

theorem head_spell {k : Nat} (hk : k ≠ 92) (hclose : k ≠ 41) (hplain : ¬IsSeparator k)
    (text : Units) : (spell close text).head? = some k ↔ text.head? = some k := by
  constructor
  · intro h
    obtain ⟨more, hmore⟩ := List.head?_eq_some_iff.mp h
    obtain ⟨rest, rfl⟩ := of_spell_cons hk hclose hmore
    rfl
  · intro h
    obtain ⟨rest, rfl⟩ := List.head?_eq_some_iff.mp h
    rw [spell_plain hplain]
    rfl

end Spelling

section Numbers

variable {close : Bool} {text rest : Units}

theorem digitRun_spell (text : Units) :
    digitRun (spell close text) = (digitRun text).map (spell close) := by
  unfold digitRun
  rw [runs_digit.head]
  split_ifs
  · rw [runs_digit.dropWhile]
    rfl
  · rfl

theorem spell_head (close : Bool) {k : Nat} (hslash : k ≠ 92) (hclose : k ≠ 41)
    (hk : ¬IsSeparator k) (text : Units) :
    (∃ rest, text = k :: rest ∧ spell close text = k :: spell close rest) ∨
      text.head? ≠ some k ∧ (spell close text).head? ≠ some k := by
  by_cases h : text.head? = some k
  · obtain ⟨rest, rfl⟩ := List.head?_eq_some_iff.mp h
    exact .inl ⟨rest, rfl, spell_plain hk rest⟩
  · exact .inr ⟨h, fun hspell => h ((head_spell hslash hclose hk text).mp hspell)⟩

variable {text : Units}

theorem wholePart_ne (h : text.head? ≠ some 48) :
    wholePart text = digitRun text := by
  rw [wholePart]
  rintro _ rfl
  exact h rfl

theorem wholePart_spell (text : Units) :
    wholePart (spell close text) = (wholePart text).map (spell close) := by
  rcases spell_head close (k := 48) (by decide) (by decide) (by decide) text with
    ⟨rest, rfl, hspell⟩ | ⟨h, hspell⟩
  · rw [hspell, wholePart, wholePart, runs_digit.head]
    split_ifs <;> rfl
  · rw [wholePart_ne h, wholePart_ne hspell, digitRun_spell]

theorem fractionPart_ne (h : text.head? ≠ some 46) :
    fractionPart text = some text := by
  rw [fractionPart]
  rintro _ rfl
  exact h rfl

theorem fractionPart_spell (text : Units) :
    fractionPart (spell close text) = (fractionPart text).map (spell close) := by
  rcases spell_head close (k := 46) (by decide) (by decide) (by decide) text with
    ⟨rest, rfl, hspell⟩ | ⟨h, hspell⟩
  · rw [hspell]
    exact digitRun_spell rest
  · rw [fractionPart_ne h, fractionPart_ne hspell, Option.map_some]

theorem exponentSign_ne (h : text.head? ≠ some 45) (h' : text.head? ≠ some 43) :
    exponentSign text = (false, text) := by
  rw [exponentSign]
  · rintro _ rfl
    exact h rfl
  · rintro _ rfl
    exact h' rfl

theorem exponentSign_spell (text : Units) :
    exponentSign (spell close text) =
      ((exponentSign text).1, spell close (exponentSign text).2) := by
  rcases spell_head close (k := 45) (by decide) (by decide) (by decide) text with
    ⟨rest, rfl, hspell⟩ | ⟨h, hspell⟩
  · rw [hspell]
    rfl
  · rcases spell_head close (k := 43) (by decide) (by decide) (by decide) text with
      ⟨rest, rfl, hspell'⟩ | ⟨h', hspell'⟩
    · rw [hspell']
      rfl
    · rw [exponentSign_ne h h', exponentSign_ne hspell hspell']

theorem exponentPart_spell (text : Units) :
    exponentPart (spell close text) = (exponentPart text).map (spell close) := by
  rcases spell_cases close text with
    rfl | ⟨c, rest, rfl, hc, hspell⟩ | ⟨c, rest, escape, rfl, hc, hspell⟩
  · cases close <;> rfl
  · rw [hspell, exponentPart, exponentPart]
    split_ifs
    · rw [exponentSign_spell, digitRun_spell]
    · rw [Option.map_some, hspell]
  · have hne : ¬(c = 101 ∨ c = 69) := by
      revert hc
      unfold IsSeparator
      omega
    rw [hspell, exponentPart, exponentPart, if_neg (by decide), if_neg hne, Option.map_some,
      hspell]

theorem unsignedEnd_spell (text : Units) :
    unsignedEnd (spell close text) = (unsignedEnd text).map (spell close) := by
  unfold unsignedEnd
  rw [wholePart_spell]
  cases wholePart text with
  | none => rfl
  | some rest =>
      rw [Option.map_some, Option.bind_some, Option.bind_some, fractionPart_spell]
      cases fractionPart rest with
      | none => rfl
      | some rest => exact exponentPart_spell rest

theorem numberEnd_ne (h : text.head? ≠ some 45) :
    numberEnd text = unsignedEnd text := by
  rw [numberEnd]
  rintro _ rfl
  exact h rfl

theorem numberEnd_spell (text : Units) :
    numberEnd (spell close text) = (numberEnd text).map (spell close) := by
  rcases spell_head close (k := 45) (by decide) (by decide) (by decide) text with
    ⟨rest, rfl, hspell⟩ | ⟨h, hspell⟩
  · rw [hspell]
    exact unsignedEnd_spell rest
  · rw [numberEnd_ne h, numberEnd_ne hspell, unsignedEnd_spell]

theorem readExponent_spell_fst (text : Units) :
    (readExponent (spell close text)).1 = (readExponent text).1 := by
  rcases spell_cases close text with
    rfl | ⟨c, rest, rfl, hc, hspell⟩ | ⟨c, rest, escape, rfl, hc, hspell⟩
  · cases close <;> rfl
  · rw [hspell, readExponent, readExponent]
    split_ifs
    · simp only [exponentSign_spell, runs_digit.takeWhile]
    · rfl
  · have hne : ¬(c = 101 ∨ c = 69) := by
      revert hc
      unfold IsSeparator
      omega
    rw [hspell, readExponent, readExponent, if_neg (by decide), if_neg hne]

theorem readFraction_ne (h : text.head? ≠ some 46) :
    readFraction text = ([], text) := by
  rw [readFraction]
  rintro _ rfl
  exact h rfl

theorem readFraction_spell (text : Units) :
    readFraction (spell close text) =
      ((readFraction text).1, spell close (readFraction text).2) := by
  rcases spell_head close (k := 46) (by decide) (by decide) (by decide) text with
    ⟨rest, rfl, hspell⟩ | ⟨h, hspell⟩
  · rw [hspell]
    exact Prod.ext (runs_digit.takeWhile rest) (runs_digit.dropWhile rest)
  · rw [readFraction_ne h, readFraction_ne hspell]

theorem readUnsigned_spell_fst (text : Units) :
    (readUnsigned (spell close text)).1 = (readUnsigned text).1 := by
  simp only [readUnsigned, runs_digit.takeWhile, runs_digit.dropWhile, readFraction_spell,
    readExponent_spell_fst]

theorem readNumeral_ne (h : text.head? ≠ some 45) :
    (readNumeral text).1 = ofDecimal (readUnsigned text).1 := by
  rw [readNumeral]
  rintro _ rfl
  exact h rfl

theorem readNumeral_spell (text : Units) :
    (readNumeral (spell close text)).1 = (readNumeral text).1 := by
  rcases spell_head close (k := 45) (by decide) (by decide) (by decide) text with
    ⟨rest, rfl, hspell⟩ | ⟨h, hspell⟩
  · rw [hspell]
    exact congrArg (fun d => -(ofDecimal d)) (readUnsigned_spell_fst rest)
  · rw [readNumeral_ne h, readNumeral_ne hspell, readUnsigned_spell_fst]

theorem head_numberEnd (h : numberEnd text = some rest) :
    ∃ c more, text = c :: more ∧ (c = 45 ∨ isDigit c = true) := by
  cases text with
  | nil => cases h
  | cons c more =>
      refine ⟨c, more, rfl, ?_⟩
      by_contra hnot
      obtain ⟨hminus, hdigit⟩ := not_or.mp hnot
      have hzero : c ≠ 48 := by
        rintro rfl
        exact hdigit rfl
      rw [numberEnd_ne (by simpa using hminus), unsignedEnd, wholePart_ne (by simpa using hzero),
        digitRun, List.head?_cons,
        Option.any_some, if_neg hdigit] at h
      cases h

end Numbers

section Strings

variable {close : Bool} {text rest units : Units}

open EcmaStrings

theorem hexValue_some {c d : Nat} (h : EcmaJson.hexValue c = some d) : c ≤ 102 := by
  unfold EcmaJson.hexValue at h
  split_ifs at h <;> omega

theorem hexUnit_some {a b c d unit : Nat} (h : EcmaJson.hexUnit a b c d = some unit) :
    a ≤ 102 ∧ b ≤ 102 ∧ c ≤ 102 ∧ d ≤ 102 := by
  unfold EcmaJson.hexUnit at h
  obtain ⟨_, ha, h⟩ := Option.bind_eq_some_iff.mp h
  obtain ⟨_, hb, h⟩ := Option.bind_eq_some_iff.mp h
  obtain ⟨_, hc, h⟩ := Option.bind_eq_some_iff.mp h
  obtain ⟨_, hd, -⟩ := Option.map_eq_some_iff.mp h
  exact ⟨hexValue_some ha, hexValue_some hb, hexValue_some hc, hexValue_some hd⟩

theorem readEscape_hex {a b c d unit : Nat} (h : EcmaJson.hexUnit a b c d = some unit)
    (rest : Units) : readEscape (117 :: a :: b :: c :: d :: rest) = some ([unit], rest) := by
  have ha := (hexUnit_some h).1
  rw [readEscape]
  · rw [h, Option.map_some]
  · omega

theorem readEscape_short {c unit : Nat} (h : EcmaJson.escaped c = some unit) (rest : Units) :
    readEscape (c :: rest) = some ([unit], rest) := by
  unfold EcmaJson.escaped at h
  split_ifs at h with hself hb ht hn hf hr
  · cases h
    rcases hself with rfl | rfl | rfl <;> rfl
  all_goals
    subst c
    cases h
    rfl

theorem readString_spell (h : EcmaJson.parseString text = some (units, rest)) {n : Nat}
    (hn : (spell close text).length < n) :
    readString 34 n (spell close text) = some (units, spell close rest) := by
  obtain ⟨n, rfl⟩ : ∃ m, n = m + 1 := ⟨n - 1, by omega⟩
  induction text using EcmaJson.parseString.induct generalizing units n with
  | case1 => cases h
  | case2 text =>
      cases h
      rfl
  | case3 a b c d text ih =>
      rw [EcmaJson.parseString, Option.bind_eq_some_iff] at h
      obtain ⟨unit, hunit, h⟩ := h
      obtain ⟨⟨units, rest⟩, hrest, hpair⟩ := Option.map_eq_some_iff.mp h
      cases hpair
      obtain ⟨ha, hb, hc, hd⟩ := hexUnit_some hunit
      simp (disch := omega) only [spell_ascii] at hn ⊢
      simp only [List.length_cons] at hn
      rw [readString_escape (by decide) (readEscape_hex hunit _)]
      obtain ⟨n, rfl⟩ : ∃ m, n = m + 1 := ⟨n - 1, by omega⟩
      rw [ih hrest n (by omega)]
      rfl
  | case4 c text hu ih =>
      rw [EcmaJson.parseString, Option.bind_eq_some_iff] at h
      · obtain ⟨unit, hunit, h⟩ := h
        obtain ⟨⟨units, rest⟩, hrest, hpair⟩ := Option.map_eq_some_iff.mp h
        cases hpair
        have hc : c ≤ 116 := by
          unfold EcmaJson.escaped at hunit
          split_ifs at hunit <;> omega
        rw [spell_ascii (by decide), spell_ascii (by omega)] at hn ⊢
        simp only [List.length_cons] at hn
        rw [readString_escape (by decide) (readEscape_short hunit _)]
        obtain ⟨n, rfl⟩ : ∃ m, n = m + 1 := ⟨n - 1, by omega⟩
        rw [ih hrest n (by omega)]
        rfl
      · exact hu
  | case5 c text hquote hu hslash hlow =>
      rw [EcmaJson.parseString, if_pos hlow] at h
      · cases h
      · exact hquote
      · exact hu
      · exact hslash
  | case6 c text hquote hu hslash hlow ih =>
      rw [EcmaJson.parseString, if_neg hlow] at h
      · obtain ⟨⟨units, rest⟩, hrest, hpair⟩ := Option.map_eq_some_iff.mp h
        cases hpair
        have hbackslash : c ≠ 92 := by
          rintro rfl
          cases text with
          | nil => cases hrest
          | cons d text => exact hslash d text rfl rfl
        by_cases hc : IsSeparator c
        · obtain ⟨d, hspell, hunit⟩ := spell_separator hc text
          rw [hspell] at hn ⊢
          simp only [List.length_cons] at hn
          rw [readString_escape (by decide) (readEscape_hex hunit _)]
          obtain ⟨n, rfl⟩ : ∃ m, n = m + 1 := ⟨n - 1, by omega⟩
          rw [ih hrest n (by omega)]
          rfl
        · rw [spell_plain hc] at hn ⊢
          rw [List.length_cons] at hn
          have hline : isLineTerminator c = false := by
            unfold IsSeparator at hc
            simp only [isLineTerminator, Bool.or_eq_false_iff, beq_eq_false_iff_ne]
            omega
          rw [readString_raw hquote hbackslash hline]
          obtain ⟨n, rfl⟩ : ∃ m, n = m + 1 := ⟨n - 1, by omega⟩
          rw [ih hrest n (by omega)]
          rfl
      · exact hquote
      · exact hu
      · exact hslash

end Strings

section Reading

variable {close : Bool} {rest : Units}

/-- What may follow a value: white space, a comma or a closing bracket or brace. -/
def Closes (rest : Units) : Prop :=
  ∀ c, rest.head? = some c → EcmaJson.isSpace c = true ∨ c = 44 ∨ c = 93 ∨ c = 125

theorem closes_of_skip (h : ∀ c, (skipSpace rest).head? = some c → c = 44 ∨ c = 93 ∨ c = 125) :
    Closes rest := by
  intro c hc
  cases rest with
  | nil => cases hc
  | cons d rest =>
      obtain rfl := Option.some.inj hc
      by_cases hspace : EcmaJson.isSpace d = true
      · exact .inl hspace
      · rw [skipSpace, List.dropWhile_cons, if_neg hspace] at h
        exact .inr (h d rfl)

theorem Closes.ends (h : Closes rest) : ecma.ends (spell close rest) = true := by
  have hpart : (spell close rest).head?.any isPart = false := by
    rcases spell_cases close rest with
      rfl | ⟨c, more, rfl, hc, hspell⟩ | ⟨c, more, escape, rfl, hc, -⟩
    · cases close <;> rfl
    · rw [hspell, List.head?_cons, Option.any_some]
      have hhead := h c rfl
      simp only [EcmaJson.isSpace, Bool.or_eq_true, beq_iff_eq] at hhead
      rcases hhead with (((rfl | rfl) | rfl) | rfl) | rfl | rfl | rfl <;> rfl
    · have hhead := h c rfl
      simp only [EcmaJson.isSpace, Bool.or_eq_true, beq_iff_eq] at hhead
      revert hc
      unfold IsSeparator
      omega
  show (!(spell close rest).head?.any isPart) = true
  rw [hpart]
  rfl

theorem ended_json {t u : Tree} {text rest : Units} (h : ended json u text = some (t, rest)) :
    u = t ∧ text = rest := by
  cases h
  exact ⟨rfl, rfl⟩

theorem ended_ecma (h : Closes rest) (t : Tree) :
    ended ecma t (spell close rest) = some (t, spell close rest) := by
  rw [ended, if_pos h.ends]

theorem ecma_string {text units : Units} (h : json.string text = some (units, rest)) :
    ecma.string (spell close text) = some (units, spell close rest) :=
  readString_spell h (Nat.lt_succ_self _)

theorem readTree_spell (fuel : Nat) :
    (∀ text t rest fuel', readTree json fuel text = some (t, rest) → Closes rest →
        fuel ≤ fuel' → readTree ecma fuel' (spell close text) = some (t, spell close rest)) ∧
      (∀ text ts rest fuel', readItems json fuel text = some (ts, rest) → fuel ≤ fuel' →
        readItems ecma fuel' (spell close text) = some (ts, spell close rest)) ∧
      ∀ text ms rest fuel', readMembers json fuel text = some (ms, rest) → fuel ≤ fuel' →
        readMembers ecma fuel' (spell close text) = some (ms, spell close rest) := by
  induction fuel with
  | zero =>
      refine ⟨fun _ _ _ _ h => ?_, fun _ _ _ _ h => ?_, fun _ _ _ _ h => ?_⟩ <;> cases h
  | succ fuel ih =>
      obtain ⟨htree, hitems, hmembers⟩ := ih
      refine ⟨fun text t rest fuel' h hcloses hfuel => ?_, fun text ts rest fuel' h hfuel => ?_,
        fun text ms rest fuel' h hfuel => ?_⟩
      · obtain ⟨fuel', rfl⟩ : ∃ n, fuel' = n + 1 := ⟨fuel' - 1, by omega⟩
        rw [readTree] at h
        rw [readTree, skipSpace_spell]
        revert h
        generalize skipSpace text = text
        intro h
        split at h
        · obtain ⟨rfl, rfl⟩ := ended_json h
          exact ended_ecma hcloses _
        · obtain ⟨rfl, rfl⟩ := ended_json h
          exact ended_ecma hcloses _
        · obtain ⟨rfl, rfl⟩ := ended_json h
          exact ended_ecma hcloses _
        · rename_i behind
          obtain ⟨⟨units, after⟩, hstring, hpair⟩ := Option.map_eq_some_iff.mp h
          cases hpair
          show (ecma.string (spell close behind)).map (fun p => (Tree.str p.1, p.2)) = _
          rw [ecma_string hstring]
          rfl
        · rename_i behind
          show (match skipSpace (spell close behind) with
            | 93 :: rest => some (Tree.arr [], rest)
            | rest => (readItems ecma fuel' rest).map
                (fun p : List Tree × Units => (Tree.arr p.1, p.2))) = _
          rw [skipSpace_spell]
          revert h
          generalize skipSpace behind = behind
          intro h
          split at h
          · cases h
            rfl
          · rename_i hopen
            obtain ⟨⟨ts, after⟩, hread, hpair⟩ := Option.map_eq_some_iff.mp h
            cases hpair
            split
            · rename_i heq
              obtain ⟨more, hmore⟩ := of_spell_cons (by decide) (by decide) heq
              exact absurd hmore (hopen more)
            · rw [hitems _ _ _ _ hread (by omega)]
              rfl
        · rename_i behind
          show (match skipSpace (spell close behind) with
            | 125 :: rest => some (Tree.obj [], rest)
            | rest => (readMembers ecma fuel' rest).map
                (fun p : List (Units × Tree) × Units => (Tree.obj p.1, p.2))) = _
          rw [skipSpace_spell]
          revert h
          generalize skipSpace behind = behind
          intro h
          split at h
          · cases h
            rfl
          · rename_i hopen
            obtain ⟨⟨ms, after⟩, hread, hpair⟩ := Option.map_eq_some_iff.mp h
            cases hpair
            split
            · rename_i heq
              obtain ⟨more, hmore⟩ := of_spell_cons (by decide) (by decide) heq
              exact absurd hmore (hopen more)
            · rw [hmembers _ _ _ _ hread (by omega)]
              rfl
        · obtain ⟨behind, hend, hended⟩ := Option.bind_eq_some_iff.mp h
          obtain ⟨rfl, rfl⟩ := ended_json hended
          obtain ⟨c, more, rfl, hc⟩ := head_numberEnd hend
          have hnumber : (numberEnd (spell close (c :: more))).bind
              (ended ecma (.num (readNumeral (spell close (c :: more))).1)) =
                some (.num (readNumeral (c :: more)).1, spell close behind) := by
            rw [numberEnd_spell, hend, readNumeral_spell]
            exact ended_ecma hcloses _
          split
          all_goals first
            | exact hnumber
            | (rename_i heq
               obtain ⟨rest, hrest⟩ := of_spell_cons (by decide) (by decide) heq
               obtain ⟨rfl, -⟩ := List.cons.inj hrest
               exact absurd hc (by decide))
      · obtain ⟨fuel', rfl⟩ : ∃ n, fuel' = n + 1 := ⟨fuel' - 1, by omega⟩
        rw [readItems] at h
        rw [readItems]
        cases hread : readTree json fuel text with
        | none =>
            rw [hread] at h
            cases h
        | some p =>
            obtain ⟨t, behind⟩ := p
            rw [hread] at h
            dsimp only at h
            have hspace : skipSpace (spell close behind) = _ := skipSpace_spell behind
            cases hskip : skipSpace behind with
            | nil =>
                rw [hskip] at h
                cases h
            | cons c more =>
                rw [hskip] at h hspace
                split at h
                · rename_i heq
                  cases heq
                  obtain ⟨⟨ts, after⟩, hrest, hpair⟩ := Option.map_eq_some_iff.mp h
                  cases hpair
                  rw [htree _ _ _ _ hread (closes_of_skip (by simp [hskip])) (by omega)]
                  dsimp only
                  rw [hspace]
                  show (readItems ecma fuel' (spell close more)).map
                    (fun p : List Tree × Units => (t :: p.1, p.2)) = _
                  rw [hitems _ _ _ _ hrest (by omega)]
                  rfl
                · rename_i heq
                  cases heq
                  cases h
                  rw [htree _ _ _ _ hread (closes_of_skip (by simp [hskip])) (by omega)]
                  dsimp only
                  rw [hspace]
                  rfl
                · cases h
      · obtain ⟨fuel', rfl⟩ : ∃ n, fuel' = n + 1 := ⟨fuel' - 1, by omega⟩
        rw [readMembers] at h
        rw [readMembers, skipSpace_spell]
        revert h
        generalize skipSpace text = text
        intro h
        split at h
        · rename_i behind
          cases hstring : json.string behind with
          | none =>
              rw [hstring] at h
              cases h
          | some p =>
              obtain ⟨name, behind'⟩ := p
              rw [hstring] at h
              dsimp only at h
              show (match ecma.string (spell close behind) with
                | none => none
                | some (name, rest) => _) = _
              rw [ecma_string hstring]
              dsimp only
              rw [skipSpace_spell]
              revert h
              generalize skipSpace behind' = colon
              intro h
              split at h
              · rename_i after
                show (match readTree ecma fuel' (spell close after) with
                  | none => none
                  | some (t, rest) => _) = _
                cases hread : readTree json fuel after with
                | none =>
                    rw [hread] at h
                    cases h
                | some p =>
                    obtain ⟨t, behind⟩ := p
                    rw [hread] at h
                    dsimp only at h
                    have hspace : skipSpace (spell close behind) = _ := skipSpace_spell behind
                    cases hskip : skipSpace behind with
                    | nil =>
                        rw [hskip] at h
                        cases h
                    | cons c more =>
                        rw [hskip] at h hspace
                        split at h
                        · rename_i heq
                          cases heq
                          obtain ⟨⟨ms, after⟩, hrest, hpair⟩ := Option.map_eq_some_iff.mp h
                          cases hpair
                          rw [htree _ _ _ _ hread (closes_of_skip (by simp [hskip])) (by omega)]
                          dsimp only
                          rw [hspace]
                          show (readMembers ecma fuel' (spell close more)).map
                            (fun p : List (Units × Tree) × Units => ((name, t) :: p.1, p.2)) = _
                          rw [hmembers _ _ _ _ hrest (by omega)]
                          rfl
                        · rename_i heq
                          cases heq
                          cases h
                          rw [htree _ _ _ _ hread (closes_of_skip (by simp [hskip]))
                            (by omega)]
                          dsimp only
                          rw [hspace]
                          rfl
                        · cases h
              · cases h
        · cases h

end Reading

section Texts

def document (text : Units) : Option Tree :=
  match readTree json (text.length + 1) text with
  | some (t, rest) => if skipSpace rest = [] then some t else none
  | none => none

/-- The tree of a text that is one expression, and whether it is a primary one: one in
parentheses, or one that no minus sign starts. -/
def expression (text : Units) : Option (Bool × Tree) :=
  match skipSpace text with
  | 40 :: inner =>
      match readTree ecma (text.length + 1) inner with
      | some (t, rest) =>
          match skipSpace rest with
          | 41 :: rest => if skipSpace rest = [] then some (true, t) else none
          | _ => none
      | none => none
  | first =>
      match readTree ecma (text.length + 1) text with
      | some (t, rest) =>
          if skipSpace rest = [] then some (decide (first.head? ≠ some 45), t) else none
      | none => none

theorem parse_eq (text : Units) : EcmaJson.parse text = (document text).map Tree.data := by
  rw [EcmaJson.parse, document, (parse_eq_read _).1 text]
  cases readTree json (text.length + 1) text with
  | none => rfl
  | some p =>
      obtain ⟨t, rest⟩ := p
      simp only [Option.map_some]
      split_ifs <;> rfl

variable {text : Units} {t : Tree}

theorem length_spell (text : Units) : text.length ≤ (spell false text).length := by
  induction text with
  | nil => exact Nat.zero_le _
  | cons c text ih =>
      by_cases hc : IsSeparator c
      · obtain ⟨d, hspell, -⟩ := @spell_separator false c hc text
        rw [hspell]
        simp only [List.length_cons]
        omega
      · rw [spell_plain hc, List.length_cons, List.length_cons]
        exact Nat.succ_le_succ ih

theorem document_spell (h : document text = some t) :
    ∃ rest, skipSpace rest = [] ∧ ∀ close fuel, text.length + 1 ≤ fuel →
      readTree ecma fuel (spell close text) = some (t, spell close rest) := by
  unfold document at h
  cases hread : readTree json (text.length + 1) text with
  | none =>
      rw [hread] at h
      cases h
  | some p =>
      obtain ⟨u, rest⟩ := p
      rw [hread] at h
      dsimp only at h
      split_ifs at h with hskip
      cases h
      exact ⟨rest, hskip, fun close fuel hfuel =>
        (readTree_spell _).1 _ _ _ _ hread (closes_of_skip (by simp [hskip])) hfuel⟩

theorem document_head (h : document text = some t) : (skipSpace text).head? ≠ some 40 := by
  intro hhead
  obtain ⟨more, hmore⟩ := List.head?_eq_some_iff.mp hhead
  unfold document at h
  rw [readTree, hmore] at h
  cases h

theorem expression_bare (h : document text = some t) :
    expression (spell false text) = some (decide ((skipSpace text).head? ≠ some 45), t) := by
  obtain ⟨rest, hskip, hread⟩ := document_spell h
  have hlength := length_spell text
  have hrest : skipSpace (spell false rest) = [] := by
    rw [skipSpace_spell, hskip]
    rfl
  unfold expression
  rw [skipSpace_spell]
  split
  · rename_i heq
    obtain ⟨more, hmore⟩ := of_spell_cons (by decide) (by decide) heq
    exact absurd (by rw [hmore]; rfl) (document_head h)
  · rw [hread false _ (by omega)]
    dsimp only
    have hhead := @head_spell false 45 (by decide) (by decide) (by decide) (skipSpace text)
    rw [if_pos hrest, decide_eq_decide.mpr (not_congr hhead)]

theorem expression_parens (h : document text = some t) :
    expression (40 :: spell true text) = some (true, t) := by
  obtain ⟨rest, hskip, hread⟩ := document_spell h
  have hlength := length_spell text
  have hrest : skipSpace (spell true rest) = [41] := by
    rw [skipSpace_spell, hskip]
    rfl
  have hfuel : text.length + 1 ≤ (40 :: spell true text).length + 1 := by
    rw [spell, List.length_cons, List.length_append]
    rw [spell, List.length_append] at hlength
    simp only [Bool.false_eq_true, if_false, List.length_nil, Nat.add_zero] at hlength
    omega
  show (match readTree ecma ((40 :: spell true text).length + 1) (spell true text) with
    | some (t, rest) =>
        match skipSpace rest with
        | 41 :: rest => if skipSpace rest = [] then some (true, t) else none
        | _ => none
    | none => none) = _
  rw [hread true _ hfuel]
  dsimp only
  rw [hrest]
  rfl

end Texts

end EcmaLiterals
end Library
