import Zdeceptron.Library.EcmaValues

/-!
# Static values in the bundle

The build host prints a computed value as the expression that rebuilds it: JSON where JSON
has the value, and constructors for maps and sets.

* `survives_iff`: a value survives inlining exactly when it is refused, or when it holds no
  number but finite ones, no `-0` and no property `__proto__`.
-/

namespace Zdeceptron
namespace Emission
namespace BuildHost

open Library Library.EcmaValues
open EcmaJson (stringify quote OwnKeys)

section Printer

/-- `ts.join(",")` -/
def joined : List Units → Units
  | [] => []
  | t :: ts => t ++ ts.flatMap (44 :: ·)

def arrayText (ts : List Units) : Units := 91 :: (joined ts ++ [93])

def mapText (ts : List Units) : Units := newMap ++ (91 :: (joined ts ++ [93, 41]))

def setText (ts : List Units) : Units := newSet ++ (91 :: (joined ts ++ [93, 41]))

def objectText (ts : List Units) : Units := 123 :: (joined ts ++ [125])

mutual

/-- `$literal`, which throws where there is no value.  A chain is taken for what its `toJSON`
gives, an array or a map. -/
def literal : Value → Option Units
  | .undefined => none
  | .function => none
  | .jsonMap entries => (literalEntries entries).map mapText
  | .map entries => (literalEntries entries).map mapText
  | .set items => (literalItems items).map setText
  | .null => some (stringify .null)
  | .bool value => some (stringify (.bool value))
  | .num value => some (stringify (.num value))
  | .str units => some (stringify (.str units))
  | .jsonArr items => (literalItems items).map arrayText
  | .arr items => (literalItems items).map arrayText
  | .obj fields => (literalFields fields).map objectText

def literalItems : List Value → Option (List Units)
  | [] => some []
  | v :: vs => (literal v).bind fun t => (literalItems vs).map (t :: ·)

def literalEntries : List (Value × Value) → Option (List Units)
  | [] => some []
  | (key, value) :: entries =>
      (literal key).bind fun k => (literal value).bind fun v =>
        (literalEntries entries).map ((91 :: (k ++ 44 :: (v ++ [93]))) :: ·)

def literalFields : List (Units × Value) → Option (List Units)
  | [] => some []
  | (name, value) :: fields =>
      (literal value).bind fun v =>
        (literalFields fields).map ((quote name ++ 58 :: v) :: ·)

end

end Printer

section Shapes

mutual

def refused : Value → Bool
  | .undefined => true
  | .function => true
  | .arr items => refusedItems items
  | .jsonArr items => refusedItems items
  | .set items => refusedItems items
  | .map entries => refusedEntries entries
  | .jsonMap entries => refusedEntries entries
  | .obj fields => refusedFields fields
  | _ => false

def refusedItems : List Value → Bool
  | [] => false
  | v :: vs => refused v || refusedItems vs

def refusedEntries : List (Value × Value) → Bool
  | [] => false
  | (key, value) :: entries => refused key || refused value || refusedEntries entries

def refusedFields : List (Units × Value) → Bool
  | [] => false
  | (_, value) :: fields => refused value || refusedFields fields

end

mutual

def expression : Value → Expression
  | .undefined => .null
  | .function => .null
  | .null => .null
  | .bool value => .bool value
  | .num value => .num value
  | .str units => .str units
  | .arr items => .arr (expressionItems items)
  | .jsonArr items => .arr (expressionItems items)
  | .set items => .set (.arr (expressionItems items))
  | .map entries => .map (.arr (expressionEntries entries))
  | .jsonMap entries => .map (.arr (expressionEntries entries))
  | .obj fields => .obj (expressionFields fields)

def expressionItems : List Value → List Expression
  | [] => []
  | v :: vs => expression v :: expressionItems vs

def expressionEntries : List (Value × Value) → List Expression
  | [] => []
  | (key, value) :: entries =>
      .arr [expression key, expression value] :: expressionEntries entries

def expressionFields : List (Units × Value) → List (Units × Expression)
  | [] => []
  | (name, value) :: fields => (name, expression value) :: expressionFields fields

end

mutual

/-- The value without its chains, each for the array or the map it stands for. -/
def plain : Value → Value
  | .arr items => .arr (plainItems items)
  | .jsonArr items => .arr (plainItems items)
  | .set items => .set (plainItems items)
  | .map entries => .map (plainEntries entries)
  | .jsonMap entries => .map (plainEntries entries)
  | .obj fields => .obj (plainFields fields)
  | v => v

def plainItems : List Value → List Value
  | [] => []
  | v :: vs => plain v :: plainItems vs

def plainEntries : List (Value × Value) → List (Value × Value)
  | [] => []
  | (key, value) :: entries => (plain key, plain value) :: plainEntries entries

def plainFields : List (Units × Value) → List (Units × Value)
  | [] => []
  | (name, value) :: fields => (name, plain value) :: plainFields fields

end

end Shapes

section Texts

variable (es : List Expression)

theorem printItems_eq :
    printItems true es = joined (es.map print) ++ [93] := by
  have hmore : ∀ es : List Expression,
      printItems false es = (es.map print).flatMap (44 :: ·) ++ [93] := by
    intro es
    induction es with
    | nil => rfl
    | cons e es ih =>
        rw [printItems, ih]
        simp
  cases es with
  | nil => rfl
  | cons e es =>
      rw [printItems, hmore]
      simp [joined]

theorem printMembers_eq (ms : List (Units × Expression)) :
    printMembers true ms = joined (ms.map fun m => quote m.1 ++ 58 :: print m.2) ++ [125] := by
  have hmore : ∀ ms : List (Units × Expression), printMembers false ms =
      (ms.map fun m => quote m.1 ++ 58 :: print m.2).flatMap (44 :: ·) ++ [125] := by
    intro ms
    induction ms with
    | nil => rfl
    | cons m ms ih =>
        rw [printMembers, ih]
        simp
  cases ms with
  | nil => rfl
  | cons m ms =>
      rw [printMembers, hmore]
      simp [joined]

def Prints (v : Value) : Prop :=
  literal v = if refused v then none else some (print (expression v))

theorem literalItems_eq {items : List Value} (h : ∀ v ∈ items, Prints v) :
    literalItems items =
      if refusedItems items then none else some ((expressionItems items).map print) := by
  induction items with
  | nil => rfl
  | cons v vs ih =>
      rw [literalItems, refusedItems, expressionItems, h v List.mem_cons_self,
        ih fun w hw => h w (List.mem_cons_of_mem _ hw)]
      cases refused v <;> cases refusedItems vs <;> rfl

theorem literalEntries_eq {entries : List (Value × Value)}
    (h : ∀ e ∈ entries, Prints e.1 ∧ Prints e.2) :
    literalEntries entries =
      if refusedEntries entries then none else some ((expressionEntries entries).map print) := by
  induction entries with
  | nil => rfl
  | cons e entries ih =>
      obtain ⟨key, value⟩ := e
      obtain ⟨hkey, hvalue⟩ := h (key, value) List.mem_cons_self
      have hpair : print (.arr [expression key, expression value]) =
          91 :: (print (expression key) ++ 44 :: (print (expression value) ++ [93])) := by
        simp [print, printItems]
      rw [literalEntries, refusedEntries, expressionEntries, List.map_cons, hpair,
        show literal key = _ from hkey, show literal value = _ from hvalue,
        ih fun w hw => h w (List.mem_cons_of_mem _ hw)]
      cases refused key <;> cases refused value <;> cases refusedEntries entries <;> rfl

theorem literalFields_eq {fields : List (Units × Value)} (h : ∀ f ∈ fields, Prints f.2) :
    literalFields fields = if refusedFields fields then none
      else some ((expressionFields fields).map fun m => quote m.1 ++ 58 :: print m.2) := by
  induction fields with
  | nil => rfl
  | cons f fields ih =>
      obtain ⟨name, value⟩ := f
      rw [literalFields, refusedFields, expressionFields,
        show literal value = _ from h (name, value) List.mem_cons_self,
        ih fun w hw => h w (List.mem_cons_of_mem _ hw)]
      cases refused value <;> cases refusedFields fields <;> rfl

theorem arrayText_eq : arrayText (es.map print) = print (.arr es) := by
  rw [print, printItems_eq, arrayText]

theorem mapText_eq :
    mapText (es.map print) = print (.map (.arr es)) := by
  rw [print, print, printItems_eq, mapText]
  simp

theorem setText_eq :
    setText (es.map print) = print (.set (.arr es)) := by
  rw [print, print, printItems_eq, setText]
  simp

theorem map_refused (b : Bool) (text : List Units) (f : List Units → Units) :
    (if b then none else some text).map f = if b then none else some (f text) := by
  cases b <;> rfl

theorem literal_eq (v : Value) : Prints v := by
  induction v using Value.induction with
  | undefined => rfl
  | function => rfl
  | null => rfl
  | bool value => cases value <;> rfl
  | num value => rfl
  | str units => rfl
  | arr _ ih | jsonArr _ ih =>
      rw [Prints, literal, literalItems_eq ih, map_refused, arrayText_eq, refused, expression]
  | set items ih =>
      rw [Prints, literal, literalItems_eq ih, map_refused, setText_eq, refused, expression]
  | map entries ih =>
      rw [Prints, literal, literalEntries_eq ih, map_refused, mapText_eq, refused, expression]
  | jsonMap entries ih =>
      rw [Prints, literal, literalEntries_eq ih, map_refused, mapText_eq, refused, expression]
  | obj fields ih =>
      rw [Prints, literal, literalFields_eq ih, map_refused, objectText, refused, expression,
        print, printMembers_eq]

end Texts

section Values

/-- What the engine keeps of its collections: a map and a set hold no key twice, and an object
lists its properties in the order of own keys. -/
inductive WellFormed : Value → Prop
  | undefined : WellFormed .undefined
  | function : WellFormed .function
  | null : WellFormed .null
  | bool (value : Bool) : WellFormed (.bool value)
  | num (value : Float) : WellFormed (.num value)
  | str (units : Units) : WellFormed (.str units)
  | arr {items : List Value} (h : ∀ v ∈ items, WellFormed v) : WellFormed (.arr items)
  | jsonArr {items : List Value} (h : ∀ v ∈ items, WellFormed v) : WellFormed (.jsonArr items)
  | set {items : List Value} (h : ∀ v ∈ items, WellFormed v)
      (hdistinct : items.Pairwise fun a b => sameValueZero a b = false) : WellFormed (.set items)
  | map {entries : List (Value × Value)} (hkeys : ∀ e ∈ entries, WellFormed e.1)
      (hvalues : ∀ e ∈ entries, WellFormed e.2)
      (hdistinct : entries.Pairwise fun a b => sameValueZero a.1 b.1 = false) :
      WellFormed (.map entries)
  | jsonMap {entries : List (Value × Value)} (hkeys : ∀ e ∈ entries, WellFormed e.1)
      (hvalues : ∀ e ∈ entries, WellFormed e.2)
      (hdistinct : entries.Pairwise fun a b => sameValueZero a.1 b.1 = false) :
      WellFormed (.jsonMap entries)
  | obj {fields : List (Units × Value)} (h : ∀ f ∈ fields, WellFormed f.2)
      (hnames : OwnKeys (fields.map Prod.fst)) : WellFormed (.obj fields)

structure Static where
  value : Value
  wellFormed : WellFormed value

/-- Every number in the value is finite and not `-0`, and no property is named `__proto__`. -/
inductive Clean : Value → Prop
  | null : Clean .null
  | bool (value : Bool) : Clean (.bool value)
  | num {value : Float} (hfinite : value.isFinite = true) (hzero : unsignedZero value = value) :
      Clean (.num value)
  | str (units : Units) : Clean (.str units)
  | arr {items : List Value} (h : ∀ v ∈ items, Clean v) : Clean (.arr items)
  | jsonArr {items : List Value} (h : ∀ v ∈ items, Clean v) : Clean (.jsonArr items)
  | set {items : List Value} (h : ∀ v ∈ items, Clean v) : Clean (.set items)
  | map {entries : List (Value × Value)} (hkeys : ∀ e ∈ entries, Clean e.1)
      (hvalues : ∀ e ∈ entries, Clean e.2) : Clean (.map entries)
  | jsonMap {entries : List (Value × Value)} (hkeys : ∀ e ∈ entries, Clean e.1)
      (hvalues : ∀ e ∈ entries, Clean e.2) : Clean (.jsonMap entries)
  | obj {fields : List (Units × Value)} (h : ∀ f ∈ fields, Clean f.2)
      (hnames : ∀ f ∈ fields, f.1 ≠ EcmaLiterals.protoName) : Clean (.obj fields)

theorem plainItems_eq (items : List Value) : plainItems items = items.map plain := by
  induction items with
  | nil => rfl
  | cons v vs ih => rw [plainItems, ih, List.map_cons]

theorem plainEntries_eq (entries : List (Value × Value)) :
    plainEntries entries = entries.map fun e => (plain e.1, plain e.2) := by
  induction entries with
  | nil => rfl
  | cons e entries ih => rw [plainEntries, ih, List.map_cons]

theorem plainFields_eq (fields : List (Units × Value)) :
    plainFields fields = fields.map fun f => (f.1, plain f.2) := by
  induction fields with
  | nil => rfl
  | cons f fields ih => rw [plainFields, ih, List.map_cons]

theorem sameValueZero_plain (a b : Value) :
    sameValueZero (plain a) (plain b) = sameValueZero a b := by
  cases a <;> cases b <;> rfl

def rebuilt (v : Value) : Option Value := evaluate (expression v).reread

theorem evaluateItems_iff {items ws : List Value} :
    evaluateItems (rereadItems (expressionItems items)) = some ws ↔
      List.Forall₂ (fun v w => rebuilt v = some w) items ws := by
  induction items generalizing ws with
  | nil =>
      rw [List.forall₂_nil_left_iff]
      constructor
      · exact fun h => (Option.some.inj h).symm
      · rintro rfl
        rfl
  | cons v vs ih =>
      rw [List.forall₂_cons_left_iff, expressionItems, rereadItems, evaluateItems]
      constructor
      · intro h
        obtain ⟨w, hw, hrest⟩ := Option.bind_eq_some_iff.mp h
        obtain ⟨rest, hmore, rfl⟩ := Option.map_eq_some_iff.mp hrest
        exact ⟨w, rest, hw, ih.mp hmore, rfl⟩
      · rintro ⟨w, rest, hw, hmore, rfl⟩
        exact Option.bind_eq_some_iff.mpr ⟨w, hw, Option.map_eq_some_iff.mpr ⟨rest, ih.mpr hmore, rfl⟩⟩

theorem items_iff (items : List Value) :
    evaluateItems (rereadItems (expressionItems items)) = some (plainItems items) ↔
      ∀ v ∈ items, rebuilt v = some (plain v) := by
  rw [evaluateItems_iff, plainItems_eq, List.forall₂_map_right_iff, List.forall₂_same]

theorem evaluateEntries_iff {entries es : List (Value × Value)} :
    (evaluateItems (rereadItems (expressionEntries entries))).bind entriesOf = some es ↔
      List.Forall₂ (fun e p => rebuilt e.1 = some p.1 ∧ rebuilt e.2 = some p.2) entries es := by
  induction entries generalizing es with
  | nil =>
      rw [List.forall₂_nil_left_iff]
      constructor
      · exact fun h => (Option.some.inj h).symm
      · rintro rfl
        rfl
  | cons e entries ih =>
      obtain ⟨key, value⟩ := e
      rw [List.forall₂_cons_left_iff, expressionEntries, rereadItems, evaluateItems]
      have hpair : evaluate (Expression.arr [expression key, expression value]).reread =
          (rebuilt key).bind fun k => (rebuilt value).map fun v => .arr [k, v] := by
        rw [Expression.reread, rereadItems, rereadItems, rereadItems, evaluate, evaluateItems,
          evaluateItems, evaluateItems, rebuilt, rebuilt]
        cases evaluate (expression key).reread <;> cases evaluate (expression value).reread <;> rfl
      rw [hpair]
      constructor
      · intro h
        obtain ⟨ws, hws, hes⟩ := Option.bind_eq_some_iff.mp h
        obtain ⟨w, hw, hrest⟩ := Option.bind_eq_some_iff.mp hws
        obtain ⟨rest, hmore, rfl⟩ := Option.map_eq_some_iff.mp hrest
        obtain ⟨k, hk, hvalue⟩ := Option.bind_eq_some_iff.mp hw
        obtain ⟨v, hv, rfl⟩ := Option.map_eq_some_iff.mp hvalue
        obtain ⟨rest', hrest', rfl⟩ := Option.map_eq_some_iff.mp hes
        exact ⟨(k, v), rest', ⟨hk, hv⟩, ih.mp (Option.bind_eq_some_iff.mpr ⟨rest, hmore, hrest'⟩),
          rfl⟩
      · rintro ⟨⟨k, v⟩, rest', ⟨hk, hv⟩, hmore, rfl⟩
        obtain ⟨rest, hrest, hentries⟩ := Option.bind_eq_some_iff.mp (ih.mpr hmore)
        rw [show rebuilt key = some k from hk, show rebuilt value = some v from hv, hrest]
        exact Option.map_eq_some_iff.mpr ⟨rest', hentries, rfl⟩

variable {entries : List (Value × Value)}

theorem rebuilt_map {out : Value} :
    evaluate (Expression.map (.arr (expressionEntries entries))).reread = some out ↔
      ∃ es, List.Forall₂ (fun e p => rebuilt e.1 = some p.1 ∧ rebuilt e.2 = some p.2) entries es ∧
        out = .map (insertAll [] es) := by
  rw [Expression.reread, Expression.reread, evaluate, evaluate]
  constructor
  · intro h
    obtain ⟨items, hitems, hmap⟩ := Option.bind_eq_some_iff.mp h
    obtain ⟨ws, hws, rfl⟩ := Option.map_eq_some_iff.mp hitems
    obtain ⟨es, hes, rfl⟩ := Option.map_eq_some_iff.mp hmap
    exact ⟨es, evaluateEntries_iff.mp (Option.bind_eq_some_iff.mpr ⟨ws, hws, hes⟩), rfl⟩
  · rintro ⟨es, hall, rfl⟩
    obtain ⟨ws, hws, hes⟩ := Option.bind_eq_some_iff.mp (evaluateEntries_iff.mpr hall)
    refine Option.bind_eq_some_iff.mpr ⟨.arr ws, ?_, ?_⟩
    · rw [hws]
      rfl
    · rw [toMap, hes]
      rfl

theorem entries_iff (hdistinct : entries.Pairwise fun a b => sameValueZero a.1 b.1 = false) :
    evaluate (Expression.map (.arr (expressionEntries entries))).reread =
        some (.map (plainEntries entries)) ↔
      ∀ e ∈ entries, rebuilt e.1 = some (plain e.1) ∧ rebuilt e.2 = some (plain e.2) := by
  have hsame : List.Forall₂ (fun e p => rebuilt e.1 = some p.1 ∧ rebuilt e.2 = some p.2) entries
      (plainEntries entries) ↔
      ∀ e ∈ entries, rebuilt e.1 = some (plain e.1) ∧ rebuilt e.2 = some (plain e.2) := by
    rw [plainEntries_eq, List.forall₂_map_right_iff, List.forall₂_same]
  rw [rebuilt_map, ← hsame]
  constructor
  · rintro ⟨es, hall, hout⟩
    have hfilled : insertAll [] es = plainEntries entries := (Value.map.inj hout).symm
    have hlength : (insertAll [] es).length = es.length := by
      rw [hfilled, plainEntries_eq, List.length_map, hall.length_eq]
    rw [← hfilled, insertAll_nil_eq hlength]
    exact hall
  · intro hall
    refine ⟨plainEntries entries, hall, ?_⟩
    rw [insertAll_of_distinct, List.nil_append]
    rw [List.nil_append, plainEntries_eq, List.pairwise_map]
    exact hdistinct.imp fun h => (sameValueZero_plain _ _).trans h

theorem rebuilt_set {items : List Value} {out : Value} :
    evaluate (Expression.set (.arr (expressionItems items))).reread = some out ↔
      ∃ ws, List.Forall₂ (fun v w => rebuilt v = some w) items ws ∧
        out = .set ((insertAll [] (ws.map fun w => (w, w))).map Prod.fst) := by
  rw [Expression.reread, Expression.reread, evaluate, evaluate]
  constructor
  · intro h
    obtain ⟨value, hvalue, hset⟩ := Option.bind_eq_some_iff.mp h
    obtain ⟨ws, hws, rfl⟩ := Option.map_eq_some_iff.mp hvalue
    exact ⟨ws, evaluateItems_iff.mp hws, (Option.some.inj hset).symm⟩
  · rintro ⟨ws, hall, rfl⟩
    rw [evaluateItems_iff.mpr hall]
    rfl

theorem set_iff {items : List Value}
    (hdistinct : items.Pairwise fun a b => sameValueZero a b = false) :
    evaluate (Expression.set (.arr (expressionItems items))).reread =
        some (.set (plainItems items)) ↔ ∀ v ∈ items, rebuilt v = some (plain v) := by
  have hkeys : ∀ ws : List Value, (ws.map fun w => (w, w)).map Prod.fst = ws := fun ws => by
    rw [List.map_map]
    exact List.map_id ws
  rw [rebuilt_set, ← items_iff, evaluateItems_iff]
  constructor
  · rintro ⟨ws, hall, hout⟩
    have hfilled := (Value.set.inj hout).symm
    have hlength : (insertAll [] (ws.map fun w => (w, w))).length =
        (ws.map fun w => (w, w)).length := by
      rw [← List.length_map Prod.fst, hfilled, plainItems_eq, List.length_map, hall.length_eq,
        List.length_map]
    rw [insertAll_nil_eq hlength, hkeys] at hfilled
    rw [← hfilled]
    exact hall
  · intro hall
    refine ⟨plainItems items, hall, ?_⟩
    rw [insertAll_of_distinct, List.nil_append, hkeys]
    rw [List.nil_append, plainItems_eq, List.map_map, List.pairwise_map]
    exact hdistinct.imp fun h => (sameValueZero_plain _ _).trans h

variable {defined out : List (Units × Value)} {fields : List (Units × Value)}

theorem evaluateMembers_iff (hproto : ∀ f ∈ fields, f.1 ≠ EcmaLiterals.protoName)
    (hnames : OwnKeys (defined.map Prod.fst ++ fields.map Prod.fst)) :
    evaluateMembers defined (rereadMembers (expressionFields fields)) = some out ↔
      ∃ gs, List.Forall₂ (fun f (g : Units × Value) => g.1 = f.1 ∧ rebuilt f.2 = some g.2)
        fields gs ∧ out = defined ++ gs := by
  induction fields generalizing defined with
  | nil =>
      simp only [List.forall₂_nil_left_iff, exists_eq_left, List.append_nil]
      exact ⟨fun h => (Option.some.inj h).symm, fun h => congrArg some h.symm⟩
  | cons f fields ih =>
      obtain ⟨name, value⟩ := f
      have hname : name ≠ EcmaLiterals.protoName := hproto (name, value) List.mem_cons_self
      have hlast : ∀ v, EcmaJson.defineField defined name v = defined ++ [(name, v)] := fun v =>
        EcmaJson.defineField_last fun field hfield =>
          (List.pairwise_append.mp hnames).2.2 field.1 (List.mem_map_of_mem hfield) name
            List.mem_cons_self
      have hrest : ∀ v, OwnKeys ((defined ++ [(name, v)]).map Prod.fst ++ fields.map Prod.fst) :=
        fun v => by simpa using hnames
      rw [expressionFields, rereadMembers, evaluateMembers]
      simp only [List.forall₂_cons_left_iff]
      constructor
      · intro h
        obtain ⟨v, hv, hmore⟩ := Option.bind_eq_some_iff.mp h
        rw [if_neg hname, hlast, ih (fun f hf => hproto f (List.mem_cons_of_mem _ hf)) (hrest v)]
          at hmore
        obtain ⟨gs, hall, rfl⟩ := hmore
        exact ⟨(name, v) :: gs, ⟨(name, v), gs, ⟨rfl, hv⟩, hall, rfl⟩, by simp⟩
      · rintro ⟨_, ⟨⟨_, v⟩, gs, ⟨rfl, hv⟩, hall, rfl⟩, rfl⟩
        refine Option.bind_eq_some_iff.mpr ⟨v, hv, ?_⟩
        rw [if_neg hname, hlast, ih (fun f hf => hproto f (List.mem_cons_of_mem _ hf)) (hrest v)]
        exact ⟨gs, hall, by simp⟩

theorem not_proto_of_evaluateMembers {members : List (Units × Expression)}
    (h : evaluateMembers defined members = some out)
    (hdefined : ∀ f ∈ defined, f.1 ≠ EcmaLiterals.protoName) :
    ∀ f ∈ out, f.1 ≠ EcmaLiterals.protoName := by
  induction members generalizing defined with
  | nil =>
      cases h
      exact hdefined
  | cons m members ih =>
      obtain ⟨name, e⟩ := m
      obtain ⟨v, -, hmore⟩ := Option.bind_eq_some_iff.mp h
      by_cases hname : name = EcmaLiterals.protoName
      · rw [if_pos hname] at hmore
        by_cases hsets : v.isPrototype = true
        · rw [if_pos hsets] at hmore
          cases hmore
        · rw [if_neg hsets] at hmore
          exact ih hmore hdefined
      · rw [if_neg hname] at hmore
        refine ih hmore fun f hf => ?_
        rcases EcmaLiterals.mem_of_defineField hf with rfl | hf
        · exact hname
        · exact hdefined f hf

theorem names_rereadMembers (fields : List (Units × Value)) :
    (rereadMembers (expressionFields fields)).map Prod.fst = fields.map Prod.fst := by
  induction fields with
  | nil => rfl
  | cons f fields ih =>
      obtain ⟨name, value⟩ := f
      rw [expressionFields, rereadMembers, List.map_cons, List.map_cons, ih]

theorem fields_iff (hnames : OwnKeys (fields.map Prod.fst)) :
    evaluate (Expression.obj (expressionFields fields)).reread = some (.obj (plainFields fields)) ↔
      (∀ f ∈ fields, rebuilt f.2 = some (plain f.2)) ∧
        ∀ f ∈ fields, f.1 ≠ EcmaLiterals.protoName := by
  have hrebuilt : List.Forall₂ (fun f (g : Units × Value) => g.1 = f.1 ∧ rebuilt f.2 = some g.2)
      fields (plainFields fields) ↔ ∀ f ∈ fields, rebuilt f.2 = some (plain f.2) := by
    rw [plainFields_eq, List.forall₂_map_right_iff, List.forall₂_same]
    exact ⟨fun h f hf => (h f hf).2, fun h f hf => ⟨rfl, h f hf⟩⟩
  have hkeys : OwnKeys (([] : List (Units × Value)).map Prod.fst ++ fields.map Prod.fst) := hnames
  rw [Expression.reread, evaluate]
  constructor
  · intro h
    split_ifs at h with honce
    · obtain ⟨out, hout, hobj⟩ := Option.map_eq_some_iff.mp h
      obtain rfl := Value.obj.inj hobj
      have hproto : ∀ f ∈ fields, f.1 ≠ EcmaLiterals.protoName := by
        intro f hf
        refine not_proto_of_evaluateMembers hout (fun _ hf => absurd hf List.not_mem_nil)
          (f.1, plain f.2) ?_
        rw [plainFields_eq]
        exact List.mem_map_of_mem (f := fun f => (f.1, plain f.2)) hf
      obtain ⟨gs, hall, hgs⟩ := (evaluateMembers_iff hproto hkeys).mp hout
      rw [List.nil_append] at hgs
      rw [← hgs, hrebuilt] at hall
      exact ⟨hall, hproto⟩
  · rintro ⟨hall, hproto⟩
    have hcount : (rereadMembers (expressionFields fields)).countP
        (fun m => decide (m.1 = EcmaLiterals.protoName)) = 0 := by
      rw [List.countP_eq_zero]
      intro m hm hname
      have hmem : m.1 ∈ fields.map Prod.fst := by
        rw [← names_rereadMembers]
        exact List.mem_map_of_mem hm
      obtain ⟨f, hf, hsame⟩ := List.mem_map.mp hmem
      exact hproto f hf (hsame.trans (of_decide_eq_true hname))
    rw [if_pos (by rw [hcount]; exact Nat.zero_le 1),
      (evaluateMembers_iff hproto hkeys).mpr ⟨_, hrebuilt.mpr hall, rfl⟩]
    rfl

theorem rebuilt_num (x : Float) :
    rebuilt (.num x) = some (plain (.num x)) ↔ Clean (.num x) := by
  rw [rebuilt, expression, Expression.reread, show plain (.num x) = .num x from rfl]
  constructor
  · intro h
    by_cases hfinite : x.isFinite = true
    · rw [if_pos hfinite] at h
      exact .num hfinite (Value.num.inj (Option.some.inj h))
    · rw [if_neg hfinite] at h
      cases h
  · intro h
    cases h with
    | num hfinite hzero => rw [if_pos hfinite, evaluate, hzero]

theorem arr_iff (items : List Value) :
    rebuilt (.arr items) = some (plain (.arr items)) ↔ ∀ v ∈ items, rebuilt v = some (plain v) := by
  rw [← items_iff, rebuilt, expression, Expression.reread, evaluate, plain]
  simp

theorem evaluates_iff {v : Value} (h : WellFormed v) : rebuilt v = some (plain v) ↔ Clean v := by
  induction v using Value.induction with
  | undefined | function =>
      constructor
      · intro hnull
        cases hnull
      · intro hclean
        cases hclean
  | null => exact ⟨fun _ => .null, fun _ => rfl⟩
  | bool value => exact ⟨fun _ => .bool value, fun _ => rfl⟩
  | num value => exact rebuilt_num value
  | str units => exact ⟨fun _ => .str units, fun _ => rfl⟩
  | arr items ih =>
      cases h with
      | arr hitems =>
          rw [arr_iff, forall₂_congr fun v hmem => ih v hmem (hitems v hmem)]
          refine ⟨.arr, fun hclean => ?_⟩
          cases hclean with
          | arr hclean => exact hclean
  | jsonArr items ih =>
      cases h with
      | jsonArr hitems =>
          change rebuilt (.arr items) = some (plain (.arr items)) ↔ _
          rw [arr_iff, forall₂_congr fun v hmem => ih v hmem (hitems v hmem)]
          refine ⟨.jsonArr, fun hclean => ?_⟩
          cases hclean with
          | jsonArr hclean => exact hclean
  | set items ih =>
      cases h with
      | set hitems hdistinct =>
          rw [rebuilt, expression, plain, set_iff hdistinct,
            forall₂_congr fun v hmem => ih v hmem (hitems v hmem)]
          refine ⟨.set, fun hclean => ?_⟩
          cases hclean with
          | set hclean => exact hclean
  | map entries ih =>
      cases h with
      | map hkeys hvalues hdistinct =>
          rw [rebuilt, expression, plain, entries_iff hdistinct, forall₂_congr fun e he =>
            and_congr ((ih e he).1 (hkeys e he)) ((ih e he).2 (hvalues e he)), forall₂_and]
          refine ⟨fun hclean => .map hclean.1 hclean.2, fun hclean => ?_⟩
          cases hclean with
          | map hkeys hvalues => exact ⟨hkeys, hvalues⟩
  | jsonMap entries ih =>
      cases h with
      | jsonMap hkeys hvalues hdistinct =>
          rw [rebuilt, expression, plain, entries_iff hdistinct, forall₂_congr fun e he =>
            and_congr ((ih e he).1 (hkeys e he)) ((ih e he).2 (hvalues e he)), forall₂_and]
          refine ⟨fun hclean => .jsonMap hclean.1 hclean.2, fun hclean => ?_⟩
          cases hclean with
          | jsonMap hkeys hvalues => exact ⟨hkeys, hvalues⟩
  | obj fields ih =>
      cases h with
      | obj hfields hnames =>
          rw [rebuilt, expression, plain, fields_iff hnames]
          constructor
          · rintro ⟨hv, hproto⟩
            exact .obj (fun f hf => (ih f hf (hfields f hf)).mp (hv f hf)) hproto
          · intro hclean
            cases hclean with
            | obj hclean hproto =>
                exact ⟨fun f hf => (ih f hf (hfields f hf)).mpr (hclean f hf), hproto⟩

/-- The build is refused, or the expression that is printed evaluates to the value. -/
def Survives (v : Value) : Prop :=
  ∀ text, literal v = some text → (read text).bind evaluate = some (plain v)

/-- A value survives inlining exactly when it is refused or clean. -/
theorem survives_iff (v : Static) :
    Survives v.value ↔ refused v.value = true ∨ Clean v.value := by
  rw [← evaluates_iff v.wellFormed, Survives, literal_eq v.value]
  cases refused v.value with
  | true => simp
  | false => simp [read_print, rebuilt]

/-- A value that is not a number is printed as `null`. -/
theorem not_survives_nan : ¬ Survives (.num (0 / 0)) := by
  intro h
  have hnan : ((0 : Float) / 0).isFinite = false := rfl
  have htext : literal (.num (0 / 0)) = some [110, 117, 108, 108] := by
    rw [literal, stringify, hnan]
    rfl
  cases h _ htext

end Values

end BuildHost
end Emission
end Zdeceptron
