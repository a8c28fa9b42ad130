import Zdeceptron.Serve.Host
import Zdeceptron.Serve.Deployed
import Zdeceptron.Serve.Carried

/-!
# What a write means

`Means` says what a verb leaves where it writes and `Written` what a command leaves in
its key.  The host and the deployed store leave that, each in its own way, for a place
that goes through the fields of records only.
-/

namespace Zdeceptron
namespace Serve

open Library
open Library.EcmaJson (Data)
open Wire (Value units encode decode hasMarker IsFieldName)

section Meaning

def leafAt : Option Data → List Units → Option (Option Data)
  | held, [] => some held
  | some (.obj fields), name :: path =>
      if hasMarker fields then none else leafAt (fieldOf fields name) path
  | _, _ :: _ => none

def place : Option Data → List Units → Data → Data
  | _, [], leaf => leaf
  | some (.obj fields), name :: path, leaf =>
      .obj (EcmaJson.defineField fields name (place (fieldOf fields name) path leaf))
  | held, _ :: _, _ => held.getD .null

def countOf : Option Data → Option Float
  | none => some (Float.ofNat 0)
  | some .null => some (Float.ofNat 0)
  | some (.num x) => some x
  | some _ => none

def itemsOf : Option Data → Option (List Data)
  | none => some []
  | some .null => some []
  | some (.arr items) => some items
  | some _ => none

/-- What a verb makes of what is there and its argument.  A sum has to be a number JSON
can carry; what is removed from a list is compared by value or is not there. -/
inductive Means : Verb → Option Data → Data → Data → Prop
  | set (held : Option Data) (item : Data) : Means .set held item item
  | incr {held : Option Data} {item : Data} {x y : Float} : countOf held = some x →
      countOf (some item) = some y → (Data.num (x + y)).reread = .num (x + y) →
      Means .incr held item (.num (x + y))
  | decr {held : Option Data} {item : Data} {x y : Float} : countOf held = some x →
      countOf (some item) = some y → (Data.num (x - y)).reread = .num (x - y) →
      Means .decr held item (.num (x - y))
  | append {held : Option Data} {item : Data} {items : List Data} :
      itemsOf held = some items → Means .append held item (.arr (items ++ [item]))
  | remove {items : List Data} {item : Data} :
      (Primitive item ∨
        ∀ other ∈ items, EcmaJson.stringify other ≠ EcmaJson.stringify item) →
      Means .remove (some (.arr items)) item
        (.arr (items.filter (fun other =>
          EcmaJson.stringify other != EcmaJson.stringify item)))

/-- What a command leaves in its key: its place is a path of fields through records
that are there, and no key is set to `null`. -/
structure Written (command : Command) (held : Option Data) (args : List Data)
    (names : List Units) (item leaf : Data) (found : Option Data) : Prop where
  segments : command.path = names.map Segment.field
  sent : args.head? = some item
  own : protoName ∉ names
  reaches : leafAt held names = some found
  means : Means command.verb found item leaf
  kept : names = [] → leaf ≠ .null

end Meaning

section Carried

variable {held found : Option Data} {names : List Units} {item leaf : Data}

theorem hasMarker_of_leafAt {fields : List (Units × Data)} {name : Units}
    (h : leafAt (some (.obj fields)) (name :: names) = some found) :
    hasMarker fields = false ∧ leafAt (fieldOf fields name) names = some found := by
  rw [leafAt] at h
  split at h
  · cases h
  · rename_i hmarker
    exact ⟨by simpa using hmarker, h⟩

theorem obj_of_leafAt {name : Units} (h : leafAt held (name :: names) = some found) :
    ∃ fields, held = some (.obj fields) := by
  cases held with
  | none => cases h
  | some d =>
      cases d with
      | obj fields => exact ⟨fields, rfl⟩
      | _ => cases h

theorem carried_found (h : ∀ d, held = some d → Carried d)
    (hfound : leafAt held names = some found) : ∀ d, found = some d → Carried d := by
  induction names generalizing held with
  | nil =>
      cases hfound
      exact h
  | cons name names ih =>
      obtain ⟨fields, rfl⟩ := obj_of_leafAt hfound
      obtain ⟨hmarker, hrest⟩ := hasMarker_of_leafAt hfound
      refine ih ?_ hrest
      intro d hd
      exact (carried_obj_iff hmarker).mp (h _ rfl) _ (mem_of_fieldOf hd)

theorem carried_place (h : ∀ d, held = some d → Carried d)
    (hfound : leafAt held names = some found) (hnames : ∀ name ∈ names, IsFieldName name)
    (hleaf : Carried leaf) : Carried (place held names leaf) := by
  induction names generalizing held with
  | nil => exact hleaf
  | cons name names ih =>
      obtain ⟨fields, rfl⟩ := obj_of_leafAt hfound
      obtain ⟨hmarker, hrest⟩ := hasMarker_of_leafAt hfound
      have hfields := (carried_obj_iff hmarker).mp (h _ rfl)
      have hinner : Carried (place (fieldOf fields name) names leaf) :=
        ih (fun d hd => hfields _ (mem_of_fieldOf hd)) hrest
          (fun other hother => hnames other (List.mem_cons_of_mem _ hother))
      have hdefined : ∀ field ∈ EcmaJson.defineField fields name
          (place (fieldOf fields name) names leaf),
          Carried field.2 ∧ field.1 ≠ Wire.marker := by
        intro field hfield
        rcases mem_defineField hfield with hold | rfl
        · refine ⟨hfields field hold, ?_⟩
          rw [hasMarker, List.any_eq_false] at hmarker
          simpa using hmarker field hold
        · exact ⟨hinner, Wire.isFieldName_ne_marker (hnames name (List.mem_cons_self ..))⟩
      rw [place]
      refine (carried_obj_iff ?_).mpr (fun field hfield => (hdefined field hfield).1)
      rw [hasMarker, List.any_eq_false]
      intro field hfield
      simpa using (hdefined field hfield).2

theorem carried_means {verb : Verb} (h : Means verb found item leaf)
    (hfound : ∀ d, found = some d → Carried d) (hitem : Carried item) : Carried leaf := by
  cases h with
  | set => exact hitem
  | incr _ _ hsum => exact carried_num hsum
  | decr _ _ hsum => exact carried_num hsum
  | append hitems =>
      rename_i items
      have hall : ∀ other ∈ items, Carried other := by
        cases found with
        | none =>
            cases hitems
            simp
        | some d =>
            cases d with
            | null =>
                cases hitems
                simp
            | arr items =>
                cases hitems
                exact carried_arr_iff.mp (hfound _ rfl)
            | _ => cases hitems
      refine carried_arr_iff.mpr ?_
      intro other hother
      rcases List.mem_append.mp hother with hother | hother
      · exact hall other hother
      · rw [List.mem_singleton] at hother
        exact hother ▸ hitem
  | remove _ =>
      refine carried_arr_iff.mpr ?_
      intro other hother
      exact carried_arr_iff.mp (hfound _ rfl) other (List.mem_of_mem_filter hother)

end Carried

section Deployed

variable {held found : Option Data} {names : List Units} {item leaf : Data}

def rawOr (held : Option Data) : Value := (held.map raw).getD .null

theorem fieldOf_rawFields (fields : List (Units × Data)) (name : Units) :
    fieldOf (rawFields fields) name = (fieldOf fields name).map raw := by
  rw [rawFields_eq_map, fieldOf_map]

def orNull : Option Value → Value
  | none => .null
  | some .undefined => .null
  | some value => value

theorem rawOr_obj (fields : List (Units × Data)) :
    rawOr (some (.obj fields)) = .record (rawFields fields) := rfl

theorem replace_cons (produce : Value → Value) (head : Units) (path : List Units)
    (fields : List (Units × Value)) :
    Deployed.replace produce (head :: path) (.record fields) = .record (assignField fields head
      (Deployed.replace produce path (orNull (fieldOf fields head)))) := rfl

theorem replace_fields (produce : Value → Value) (hown : protoName ∉ names)
    (hfound : leafAt held names = some found) (hproduce : produce (rawOr found) = raw leaf) :
    Deployed.replace produce names (rawOr held) = raw (place held names leaf) := by
  induction names generalizing held with
  | nil =>
      cases hfound
      exact hproduce
  | cons name names ih =>
      obtain ⟨fields, rfl⟩ := obj_of_leafAt hfound
      obtain ⟨-, hrest⟩ := hasMarker_of_leafAt hfound
      rw [List.mem_cons, not_or] at hown
      have hinner := ih hown.2 hrest
      have hread : orNull (fieldOf (rawFields fields) name) = rawOr (fieldOf fields name) := by
        rw [fieldOf_rawFields]
        cases fieldOf fields name with
        | none => rfl
        | some d => cases d <;> rfl
      rw [rawOr_obj, replace_cons, hread, hinner, assignField, if_neg (Ne.symm hown.1), place, raw,
        rawFields_eq_map, rawFields_eq_map, EcmaJson.defineField_map]

variable {number : Units → Float}

theorem asNumber_count {x : Float}
    (hfound : ∀ d, found = some d → Carried d) (hx : countOf found = some x) :
    Deployed.asNumber number (rawOr found) = x := by
  have hzero : (Float.ofNat 0).isFinite = true := by decide +kernel
  cases found with
  | none =>
      cases hx
      exact if_pos hzero
  | some d =>
      cases d with
      | null =>
          cases hx
          exact if_pos hzero
      | num y =>
          cases hx
          exact if_pos (hfound _ rfl).finite.1
      | _ => cases hx

theorem appended_raw {items : List Data} (h : itemsOf found = some items) :
    Deployed.appended (rawOr found) (raw item) = raw (.arr (items ++ [item])) := by
  cases found with
  | none =>
      cases h
      rfl
  | some d =>
      cases d with
      | null =>
          cases h
          rfl
      | arr items =>
          cases h
          rw [raw, rawItems_eq_map, List.map_append, ← rawItems_eq_map]
          rfl
      | _ => cases h

theorem removed_raw {items : List Data} :
    Deployed.removed (rawOr (some (.arr items))) (raw item) =
      raw (.arr (items.filter (fun other =>
        EcmaJson.stringify other != EcmaJson.stringify item))) := by
  rw [raw, rawItems_eq_map]
  show Value.list ((rawItems items).filter _) = _
  rw [rawItems_eq_map, List.filter_map]
  simp only [Function.comp_def, encode_raw]

theorem produce_means {verb : Verb} (h : Means verb found item leaf)
    (hfound : ∀ d, found = some d → Carried d) (hitem : Carried item) :
    Deployed.produceOf number verb (rawOr found) (raw item) = raw leaf := by
  have hsome : ∀ d, some item = some d → Carried d := by
    rintro d ⟨⟩
    exact hitem
  have hraw : rawOr (some item) = raw item := rfl
  cases h with
  | set => rfl
  | incr hx hy _ | decr hx hy _ =>
      rw [← hraw, Deployed.produceOf]
      simp only [asNumber_count hfound hx, asNumber_count hsome hy]
      rw [raw]
  | append hitems => exact appended_raw hitems
  | remove _ => exact removed_raw

def cellOf : Option Data → List (Units × Value)
  | none => []
  | some d => [([], raw d)]

theorem putCell_cellOf (held : Option Data) (value : Value) :
    Deployed.putCell [] value (cellOf held) = [([], value)] := by
  cases held <;> rfl

theorem entry_cellOf (held : Option Data) :
    (if isNullish ((fieldOf (cellOf held) []).getD .null) then Value.null
      else (fieldOf (cellOf held) []).getD .null) = rawOr held := by
  cases held with
  | none => rfl
  | some d => cases d <;> rfl

theorem subkey_fields (names : List Units) :
    Deployed.subkey (names.map Step.field) = [] := by
  cases names <;> rfl

theorem fieldPath_fields (names : List Units) :
    Deployed.fieldPath (names.map Step.field) = names := by
  have hdrop : (names.map Step.field).dropWhile Deployed.isAt = names.map Step.field := by
    cases names <;> rfl
  unfold Deployed.fieldPath
  rw [hdrop, List.map_map]
  exact List.map_id _

end Deployed

section Host

variable {held found : Option Data} {names : List Units} {item leaf : Data}

def Restored : Option Data → Value → Prop
  | none, value => value = .undefined
  | some d, value => decode d = .ok value ∧ encode value = d

theorem decode_ne_undefined (d : Data) : decode d ≠ .ok .undefined := by
  cases d with
  | arr items =>
      intro h
      obtain ⟨values, hvalues⟩ := decode_arr h
      cases hvalues
  | obj fields =>
      intro h
      rcases decode_obj h with ⟨entries, hvalue⟩ | ⟨values, hvalue⟩
      · cases hvalue
      · cases hvalue
  | _ => rintro ⟨⟩

theorem decode_fields {values : List (Units × Value)}
    (h : Wire.decodeFields (Wire.encodeFields values) = .ok values) :
    ∀ field ∈ values, decode (encode field.2) = .ok field.2 := by
  rw [decodeFields_eq_ok_iff, Wire.encodeFields_eq_map, List.forall₂_map_left_iff] at h
  intro field hfield
  exact (List.forall₂_same.mp h field hfield).2

variable {value : Value}

theorem restored_record {fields : List (Units × Data)}
    (hmarker : hasMarker fields = false) (h : Restored (some (.obj fields)) value) :
    ∃ values, value = .record values ∧ fields = Wire.encodeFields values ∧
      ∀ name, Restored (fieldOf fields name) ((fieldOf values name).getD .undefined) := by
  obtain ⟨hdecode, hencode⟩ := h
  rw [decode, hmarker] at hdecode
  simp only [Bool.false_eq_true, if_false] at hdecode
  split at hdecode
  · rename_i values hvalues
    cases hdecode
    obtain rfl := Data.obj.inj hencode
    refine ⟨values, rfl, rfl, ?_⟩
    intro name
    rw [Wire.encodeFields_eq_map, fieldOf_map]
    cases hfield : fieldOf values name with
    | none => rfl
    | some inner => exact ⟨decode_fields hvalues _ (mem_of_fieldOf hfield), rfl⟩
  · cases hdecode

theorem zdAt_fields (key : Units) {change : Value → Except Units Value}
    (hvalue : Restored held value) (hfound : leafAt held names = some found)
    (hchange : ∀ inner, Restored found inner → ∃ next, change inner = .ok next ∧
      encode next = leaf) :
    ∃ next, Host.zdAt key change (names.map Step.field) value = .ok next ∧
      encode next = place held names leaf := by
  induction names generalizing held value with
  | nil =>
      cases hfound
      exact hchange value hvalue
  | cons name names ih =>
      obtain ⟨fields, rfl⟩ := obj_of_leafAt hfound
      obtain ⟨hmarker, hrest⟩ := hasMarker_of_leafAt hfound
      obtain ⟨values, rfl, rfl, hfields⟩ := restored_record hmarker hvalue
      obtain ⟨next, hnext, hencode⟩ := ih (hfields name) hrest
      refine ⟨.record (EcmaJson.defineField values name next), ?_, ?_⟩
      · rw [List.map_cons, Host.zdAt]
        · show Except.map _ (Host.zdAt key change (names.map Step.field)
            ((fieldOf values name).getD .undefined)) = _
          rw [hnext]
          rfl
        all_goals simp
      · rw [place, encode, Wire.encodeFields_eq_map, ← EcmaJson.defineField_map, hencode,
          Wire.encodeFields_eq_map]

theorem zdNumber_count {key : Units} {x : Float} (h : Restored found value)
    (hx : countOf found = some x) : Host.zdNumber key value = .ok x := by
  cases found with
  | none =>
      cases hx
      rw [show value = .undefined from h]
      rfl
  | some d =>
      obtain ⟨hdecode, -⟩ := h
      cases d with
      | null | num _ =>
          cases hx
          cases hdecode
          rfl
      | _ => cases hx

variable {number : Units → Float}

theorem toNumber_count {y : Float}
    (hy : countOf (some item) = some y) : toNumber number (raw item) = y := by
  cases item with
  | null =>
      cases hy
      rfl
  | num x =>
      cases hy
      rfl
  | _ => cases hy

theorem count_finite {y : Float} (hitem : Carried item) (hy : countOf (some item) = some y) :
    y.isFinite = true := by
  cases item with
  | null =>
      cases hy
      decide +kernel
  | num x =>
      cases hy
      exact hitem.finite.1
  | _ => cases hy

theorem plus_count {x y : Float}
    (hy : countOf (some item) = some y) : plus number x (raw item) = .num (x + y) := by
  cases item with
  | null =>
      cases hy
      rfl
  | num x =>
      cases hy
      rfl
  | _ => cases hy

theorem zdList_items (key verb : Units) {items : List Data}
    (h : Restored found value) (hitems : itemsOf found = some items) :
    ∃ values, Host.zdList key verb value = .ok values ∧
      List.Forall₂ (fun d value => decode d = .ok value) items values ∧
      values.map encode = items := by
  cases found with
  | none =>
      cases hitems
      rw [show value = .undefined from h]
      exact ⟨[], rfl, .nil, rfl⟩
  | some d =>
      obtain ⟨hdecode, hencode⟩ := h
      cases d with
      | null =>
          cases hitems
          cases hdecode
          exact ⟨[], rfl, .nil, rfl⟩
      | arr items =>
          cases hitems
          rw [decode] at hdecode
          split at hdecode
          · rename_i values hvalues
            cases hdecode
            rw [encode, Wire.encodeList_eq_map] at hencode
            exact ⟨values, rfl, decodeList_eq_ok_iff.mp hvalues, Data.arr.inj hencode⟩
          · cases hdecode
      | _ => cases hitems

theorem strictEqual_text {other : Data} (hitem : Carried item)
    (hother : Carried other) (hdecode : decode other = .ok value)
    (hremove : Primitive item ∨ EcmaJson.stringify other ≠ EcmaJson.stringify item) :
    strictEqual value (raw item) = (EcmaJson.stringify other == EcmaJson.stringify item) := by
  by_cases hprimitive : Primitive item
  · rw [Bool.eq_iff_iff, strictEqual_iff hprimitive hitem hother hdecode, beq_iff_eq]
    constructor
    · rintro rfl
      rfl
    · exact eq_of_stringify_eq hprimitive hitem hother
  · rw [strictEqual_object hprimitive, eq_comm, beq_eq_false_iff_ne]
    exact hremove.resolve_left hprimitive

theorem encode_filter {items : List Data} {values : List Value}
    (hitem : Carried item) (hitems : ∀ other ∈ items, Carried other) (hremove : Primitive item ∨
      ∀ other ∈ items, EcmaJson.stringify other ≠ EcmaJson.stringify item)
    (hforall : List.Forall₂ (fun d value => decode d = .ok value) items values)
    (hmap : values.map encode = items) :
    (values.filter (fun entry => !strictEqual entry (raw item))).map encode =
      items.filter (fun other => EcmaJson.stringify other != EcmaJson.stringify item) := by
  induction hforall with
  | nil => rfl
  | cons hdecode _ ih =>
      obtain ⟨hencode, hmap⟩ := List.cons.inj hmap
      have hequal := strictEqual_text hitem (hitems _ (List.mem_cons_self ..)) hdecode
        (hremove.imp_right (fun h => h _ (List.mem_cons_self ..)))
      have hrest := ih (fun d hd => hitems d (List.mem_cons_of_mem _ hd))
        (hremove.imp_right (fun h d hd => h d (List.mem_cons_of_mem _ hd))) hmap
      rw [List.filter_cons, List.filter_cons, hequal, ← hrest]
      show List.map encode (if _ then _ else _) = if (!_) then _ else _
      split_ifs
      · rw [List.map_cons, hencode]
      · rfl

theorem change_means {key : Units} {verb : Verb} {inner : Value}
    (h : Means verb found item leaf) (hfound : ∀ d, found = some d → Carried d)
    (hitem : Carried item) (hinner : Restored found inner) :
    ∃ next, Host.changeOf number key (raw item) verb inner = .ok next ∧ encode next = leaf := by
  cases h with
  | set => exact ⟨raw item, rfl, encode_raw item⟩
  | @incr _ _ x y hx hy _ =>
      refine ⟨.num (x + y), ?_, rfl⟩
      rw [Host.changeOf]
      simp only [zdNumber_count hinner hx, Except.map, plus_count hy]
  | @decr _ _ x y hx hy _ =>
      refine ⟨.num (x - y), ?_, rfl⟩
      rw [Host.changeOf]
      simp only [zdNumber_count hinner hx, Except.map, toNumber_count hy]
  | append hitems =>
      obtain ⟨values, hlist, -, hmap⟩ := zdList_items key (units "append") hinner
        hitems
      refine ⟨.list (values ++ [raw item]), ?_, ?_⟩
      · rw [Host.changeOf]
        simp only [hlist, Except.map]
      · rw [encode, Wire.encodeList_eq_map, List.map_append, hmap, List.map_singleton,
          encode_raw]
  | remove hremove =>
      rename_i items
      obtain ⟨values, hlist, hforall, hmap⟩ := zdList_items key (units "remove") hinner
        (rfl : itemsOf (some (.arr items)) = some items)
      refine ⟨.list (values.filter (fun entry => !strictEqual entry (raw item))), ?_, ?_⟩
      · obtain ⟨others, rfl⟩ := decode_arr hinner.1
        rw [Host.changeOf, Host.removeFrom, hlist]
        · rfl
        · simp
      · rw [encode, Wire.encodeList_eq_map, encode_filter hitem
          (carried_arr_iff.mp (hfound _ rfl)) hremove hforall hmap]

theorem added_count (key : Units) {x delta : Float} (hx : countOf held = some x)
    (hnull : held ≠ some .null) (hsum : (Data.num (x + delta)).reread = .num (x + delta)) :
    Host.added key held delta = .ok (x + delta) := by
  have hfinite := (carried_num hsum).finite.1
  cases held with
  | none =>
      cases hx
      exact if_pos hfinite
  | some d =>
      cases d with
      | null => exact absurd rfl hnull
      | num y =>
          cases hx
          exact if_pos hfinite
      | _ => cases hx

end Host

section Operation

variable {command : Command} {held found : Option Data} {args : List Data}
  {names : List Units} {item leaf : Data}

theorem resolve_fields (args : List Data) (i : Nat) (names : List Units) :
    resolve args i (names.map Segment.field) = names.map Step.field := by
  induction names with
  | nil => rfl
  | cons name names ih => rw [List.map_cons, resolve, ih, List.map_cons]

theorem Written.operation_value (h : Written command held args names item leaf found) :
    (command.operation args).value = raw item := by
  obtain ⟨rest, hargs⟩ : ∃ rest, args = item :: rest := by
    cases args with
    | nil => cases h.sent
    | cons first rest =>
        cases h.sent
        exact ⟨rest, rfl⟩
  rw [hargs]
  rfl

theorem Written.operation_place (h : Written command held args names item leaf found) :
    (command.operation args).place =
      match names with
      | [] => none
      | _ :: _ => some (names.map Step.field, command.base.getD .undefined) := by
  unfold Command.operation
  rw [h.segments]
  cases names with
  | nil => rfl
  | cons name names =>
      rw [List.map_cons]
      simp only [← List.map_cons, resolve_fields]

theorem deployed_writes {number : Units → Float} {cells : Deployed.Cells}
    (h : Written command held args names item leaf found)
    (hheld : ∀ d, held = some d → Carried d) (hitem : Carried item)
    (hcells : cells command.key = cellOf held) :
    Deployed.perform number cells (command.operation args) =
      (Function.update cells command.key (cellOf (some (place held names leaf))),
        raw (place held names leaf)) := by
  have hsteps : ((command.operation args).place.map Prod.fst).getD [] =
      names.map Step.field := by
    rw [h.operation_place]
    cases names <;> rfl
  have hreplace := replace_fields
    (fun inner => Deployed.produceOf number command.verb inner (raw item)) h.own h.reaches
    (produce_means h.means (carried_found hheld h.reaches) hitem)
  have hkey : (command.operation args).key = command.key := rfl
  have hverb : (command.operation args).verb = command.verb := rfl
  unfold Deployed.perform Deployed.modify
  simp only [hsteps, subkey_fields, fieldPath_fields, hkey, hverb, hcells, h.operation_value,
    entry_cellOf, hreplace, putCell_cellOf]
  rfl

theorem zdPut_fields {store : Host.Store} {key : Units} {base : Value}
    {change : Value → Except Units Value} (hheld : ∀ d, store key = some d → Carried d)
    (hfound : leafAt (store key) names = some found) (hbase : store key = none → base = .undefined)
    (hchange : ∀ inner, Restored found inner → ∃ next, change inner = .ok next ∧ encode next = leaf)
    (hleaf : (place (store key) names leaf).reread = place (store key) names leaf) :
    ∃ pending, Host.zdPut store .fresh key (names.map Step.field) base change = .ok pending ∧
      pending.writes = [.set key (place (store key) names leaf)] := by
  have hget : ∃ value, Host.get store .fresh key = .ok value ∧
      Restored (store key) (Host.orStarting value base) := by
    have hpeek : Host.Pending.fresh.peek store key = store key := rfl
    unfold Host.get
    rw [hpeek]
    cases hkey : store key with
    | none => exact ⟨.undefined, rfl, hbase hkey⟩
    | some d =>
        obtain ⟨value, hdecode, hencode⟩ := (hheld d hkey).restored
        refine ⟨value, by simp only [hdecode], ?_⟩
        cases value with
        | undefined => exact absurd hdecode (decode_ne_undefined d)
        | _ => exact ⟨hdecode, hencode⟩
  obtain ⟨value, hvalue, hrestored⟩ := hget
  obtain ⟨next, hnext, hencode⟩ := zdAt_fields key hrestored hfound hchange
  refine ⟨(Host.Pending.fresh.read store key).set key (encode next).reread, ?_, ?_⟩
  · unfold Host.zdPut
    simp only [hvalue, hnext, Except.map]
  · rw [hencode, hleaf]
    rfl

theorem host_writes (number : Units → Float) {store : Host.Store}
    (h : Written command (store command.key) args names item leaf found)
    (hheld : ∀ d, store command.key = some d → Carried d ∧ d ≠ .null) (hitem : Carried item) :
    ∃ pending, Host.perform number store (command.operation args) .fresh = .ok pending ∧
      Host.apply store pending.writes = .ok (Function.update store command.key
          (some (place (store command.key) names leaf)),
          some (place (store command.key) names leaf)) := by
  have hcarried : ∀ d, store command.key = some d → Carried d := fun d hd => (hheld d hd).1
  have hleaf : (place (store command.key) names leaf).reread = _ :=
    (carried_place hcarried h.reaches (fun name hname => command.fields name (by
      rw [h.segments]
      exact List.mem_map_of_mem hname))
      (carried_means h.means (carried_found hcarried h.reaches) hitem)).reread
  have hput : ∀ base, (store command.key = none → base = .undefined) →
      ∃ pending, Host.zdPut store .fresh command.key (names.map Step.field) base
        (Host.changeOf number command.key (raw item) command.verb) = .ok pending ∧
        Host.apply store pending.writes =
          .ok (Function.update store command.key
            (some (place (store command.key) names leaf)),
            some (place (store command.key) names leaf)) := by
    intro base hbase
    obtain ⟨pending, hpending, hwrites⟩ := zdPut_fields hcarried h.reaches hbase
      (fun inner hinner => change_means h.means (carried_found hcarried h.reaches) hitem hinner)
      hleaf
    refine ⟨pending, hpending, ?_⟩
    rw [hwrites]
    rfl
  have hincr : ∀ x delta, names = [] → countOf (store command.key) = some x →
      leaf = .num (x + delta) → (Data.num (x + delta)).reread = .num (x + delta) →
      ∃ pending, Host.zdIncr store .fresh command.key delta = .ok pending ∧
        Host.apply store pending.writes =
          .ok (Function.update store command.key
            (some (place (store command.key) names leaf)),
            some (place (store command.key) names leaf)) := by
    rintro x delta rfl hx rfl hsum
    have hadded := added_count command.key hx
      (fun hnull => (hheld .null hnull).2 rfl) hsum
    refine ⟨Host.Pending.fresh.incr command.key delta, ?_, ?_⟩
    · show (Host.added command.key (store command.key) delta).map _ = _
      rw [hadded]
      rfl
    · simp only [Host.Pending.incr, Host.Pending.fresh, List.nil_append, Host.apply,
        Host.Write.apply, hadded, Except.map]
      rfl
  have hverb : (command.operation args).verb = command.verb := rfl
  have hkey : (command.operation args).key = command.key := rfl
  have hmeans := h.means
  unfold Host.perform
  rw [hverb, h.operation_place, h.operation_value, hkey]
  generalize command.verb = verb at hmeans hput ⊢
  cases names with
  | cons name names =>
      have hbase : store command.key = none →
          command.base.getD .undefined = .undefined := by
        intro hnone
        obtain ⟨fields, hfields⟩ := obj_of_leafAt h.reaches
        rw [hnone] at hfields
        cases hfields
      cases verb <;> exact hput _ hbase
  | nil =>
      obtain hfound : store command.key = found := Option.some.inj h.reaches
      cases hmeans with
      | set =>
          refine ⟨_, rfl, ?_⟩
          rw [encode_raw, hitem.reread]
          rfl
      | incr hx hy hsum =>
          rw [toNumber_count hy]
          exact hincr _ _ rfl (hfound ▸ hx) rfl hsum
      | @decr _ _ x y hx hy hsum =>
          have hsub := Binary64.sub_eq_add_neg x (count_finite hitem hy)
          rw [hsub] at hsum
          rw [toNumber_count hy]
          exact hincr x (-y) rfl (hfound ▸ hx) (congrArg Data.num hsub) hsum
      | append _ => exact hput .undefined (fun _ => rfl)
      | remove _ => exact hput .undefined (fun _ => rfl)

end Operation

end Serve
end Zdeceptron
