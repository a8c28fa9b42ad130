import Zdeceptron.Serve.Script

/-!
# Data that crosses the wire and back

What a value of the language is sent as reads the same once more, decodes to a value
and is what that value is encoded as.  Lists and records of such data are such data.
-/

namespace Zdeceptron
namespace Serve

open Library
open Library.EcmaJson (Data)
open Wire (Value encode decode IsZed settle hasMarker)

section Raw

theorem encode_raw : ∀ d : Data, encode (raw d) = d
  | .null => rfl
  | .bool _ => rfl
  | .num _ => rfl
  | .str _ => rfl
  | .arr items => by
      rw [raw, encode, encodeItems items]
  | .obj fields => by
      rw [raw, encode, encodeFields fields]
where
  encodeItems : ∀ items : List Data, Wire.encodeList (rawItems items) = items
    | [] => rfl
    | d :: ds => by rw [rawItems, Wire.encodeList, encode_raw d, encodeItems ds]
  encodeFields : ∀ fields : List (Units × Data), Wire.encodeFields (rawFields fields) = fields
    | [] => rfl
    | (name, d) :: fields => by
        rw [rawFields, Wire.encodeFields, encode_raw d, encodeFields fields]

theorem isFinite_unsignedZero {x : Float} (h : x.isFinite = true) :
    (unsignedZero x).isFinite = true := by
  unfold unsignedZero
  split
  · decide +kernel
  · exact h

theorem reread_idem : ∀ d : Data, d.reread.reread = d.reread
  | .null => rfl
  | .bool _ => rfl
  | .num x => by
      rw [Data.reread]
      split_ifs with hfinite
      · rw [Data.reread, if_pos (isFinite_unsignedZero hfinite), Wire.unsignedZero_idem]
      · rfl
  | .str _ => rfl
  | .arr items => by
      rw [Data.reread, Data.reread, idemItems items]
  | .obj fields => by
      rw [Data.reread, Data.reread, idemFields fields]
where
  idemItems : ∀ items : List Data,
      EcmaJson.rereadItems (EcmaJson.rereadItems items) = EcmaJson.rereadItems items
    | [] => rfl
    | d :: ds => by
        rw [EcmaJson.rereadItems, EcmaJson.rereadItems, reread_idem d, idemItems ds]
  idemFields : ∀ fields : List (Units × Data),
      EcmaJson.rereadFields (EcmaJson.rereadFields fields) = EcmaJson.rereadFields fields
    | [] => rfl
    | (name, d) :: fields => by
        rw [EcmaJson.rereadFields, EcmaJson.rereadFields, reread_idem d, idemFields fields]

end Raw

section Carried

/-- Data some value of the language crosses the wire as. -/
structure Carried (d : Data) : Prop where
  reread : d.reread = d
  restored : ∃ value, decode d = .ok value ∧ encode value = d

theorem each_eq_ok_iff {α β ε : Type} (f : α → Except ε β) (each : List α → Except ε (List β))
    (hnil : each [] = .ok [])
    (hcons : ∀ x xs, each (x :: xs) = (f x).bind (fun y => (each xs).map (y :: ·)))
    {xs : List α} {ys : List β} :
    each xs = .ok ys ↔ List.Forall₂ (fun x y => f x = .ok y) xs ys := by
  induction xs generalizing ys with
  | nil => rw [hnil, List.forall₂_nil_left_iff, Except.ok.injEq, eq_comm]
  | cons x xs ih =>
      rw [hcons, List.forall₂_cons_left_iff]
      simp only [← ih]
      cases f x with
      | error error => simp [Except.bind]
      | ok y => cases each xs <;> simp [Except.bind, Except.map, eq_comm]

variable {items : List Data}

theorem decodeList_eq_ok_iff {values : List Value} :
    Wire.decodeList items = .ok values ↔
      List.Forall₂ (fun d value => decode d = .ok value) items values := by
  refine each_eq_ok_iff decode _ rfl (fun d items => ?_)
  rw [Wire.decodeList]
  cases decode d with
  | error error => rfl
  | ok value => cases Wire.decodeList items <;> rfl

variable {fields : List (Units × Data)}

theorem decodeFields_eq_ok_iff {values : List (Units × Value)} :
    Wire.decodeFields fields = .ok values ↔
      List.Forall₂ (fun field value => field.1 = value.1 ∧ decode field.2 = .ok value.2)
        fields values := by
  rw [each_eq_ok_iff (fun field => (decode field.2).map (Prod.mk field.1)) Wire.decodeFields rfl]
  · have hpair (field : Units × Data) (value : Units × Value) :
        (decode field.2).map (Prod.mk field.1) = .ok value ↔
          field.1 = value.1 ∧ decode field.2 = .ok value.2 := by
      cases decode field.2 <;> simp [Except.map, Prod.ext_iff]
    simp only [hpair]
  · rintro ⟨name, d⟩ fields
    rw [Wire.decodeFields]
    cases decode d with
    | error error => rfl
    | ok value => cases Wire.decodeFields fields <;> rfl

theorem exists_forall₂_iff {β γ : Type} {R : β → γ → Prop} {f : γ → β} {xs : List β} :
    (∃ ys, List.Forall₂ R xs ys ∧ ys.map f = xs) ↔ ∀ x ∈ xs, ∃ y, R x y ∧ f y = x := by
  induction xs with
  | nil => exact ⟨fun _ => by simp, fun _ => ⟨[], .nil, rfl⟩⟩
  | cons x xs ih =>
      rw [List.forall_mem_cons, ← ih]
      constructor
      · rintro ⟨_, hforall, hmap⟩
        cases hforall with
        | cons hhead htail =>
            obtain ⟨hx, hxs⟩ := List.cons.inj hmap
            exact ⟨⟨_, hhead, hx⟩, _, htail, hxs⟩
      · rintro ⟨⟨y, hhead, hx⟩, ys, htail, hxs⟩
        exact ⟨y :: ys, .cons hhead htail, by rw [List.map_cons, hx, hxs]⟩

theorem restored_arr_iff :
    (∃ value, decode (.arr items) = .ok value ∧ encode value = .arr items) ↔
      ∀ item ∈ items, ∃ value, decode item = .ok value ∧ encode value = item := by
  rw [← exists_forall₂_iff]
  constructor
  · rintro ⟨value, hdecode, hencode⟩
    rw [decode] at hdecode
    split at hdecode
    · rename_i values hvalues
      cases hdecode
      rw [encode, Wire.encodeList_eq_map] at hencode
      exact ⟨values, decodeList_eq_ok_iff.mp hvalues, Data.arr.inj hencode⟩
    · cases hdecode
  · rintro ⟨values, hforall, hmap⟩
    refine ⟨.list values, ?_, ?_⟩
    · rw [decode, decodeList_eq_ok_iff.mpr hforall]
    · rw [encode, Wire.encodeList_eq_map, hmap]

theorem restored_obj_iff (hmarker : hasMarker fields = false) :
    (∃ value, decode (.obj fields) = .ok value ∧ encode value = .obj fields) ↔
      ∀ field ∈ fields, ∃ value, decode field.2 = .ok value ∧ encode value = field.2 := by
  have hpairs : (∀ field ∈ fields, ∃ value : Units × Value,
      (field.1 = value.1 ∧ decode field.2 = .ok value.2) ∧
        (value.1, encode value.2) = field) ↔
      ∀ field ∈ fields, ∃ value, decode field.2 = .ok value ∧ encode value = field.2 := by
    refine forall₂_congr ?_
    rintro ⟨name, d⟩ _
    constructor
    · rintro ⟨⟨other, value⟩, ⟨-, hdecode⟩, heq⟩
      exact ⟨value, hdecode, (Prod.mk.inj heq).2⟩
    · rintro ⟨value, hdecode, hencode⟩
      exact ⟨(name, value), ⟨rfl, hdecode⟩, by rw [hencode]⟩
  rw [← hpairs, ← exists_forall₂_iff]
  constructor
  · rintro ⟨value, hdecode, hencode⟩
    rw [decode, hmarker] at hdecode
    simp only [Bool.false_eq_true, if_false] at hdecode
    split at hdecode
    · rename_i values hvalues
      cases hdecode
      rw [encode, Wire.encodeFields_eq_map] at hencode
      exact ⟨values, decodeFields_eq_ok_iff.mp hvalues, Data.obj.inj hencode⟩
    · cases hdecode
  · rintro ⟨values, hforall, hmap⟩
    refine ⟨.record values, ?_, ?_⟩
    · rw [decode, hmarker, decodeFields_eq_ok_iff.mpr hforall]
      rfl
    · rw [encode, Wire.encodeFields_eq_map, hmap]

theorem map_eq_self_iff {β : Type} {f : β → β} {xs : List β} :
    xs.map f = xs ↔ ∀ x ∈ xs, f x = x := by
  induction xs with
  | nil => simp
  | cons x xs ih => rw [List.map_cons, List.cons.injEq, ih, List.forall_mem_cons]

theorem carried_arr_iff :
    Carried (.arr items) ↔ ∀ item ∈ items, Carried item := by
  have hreread : (Data.arr items).reread = .arr items ↔ ∀ item ∈ items, item.reread = item := by
    rw [Data.reread, EcmaJson.rereadItems_eq_map, Data.arr.injEq, map_eq_self_iff]
  constructor
  · rintro ⟨hread, hrestored⟩ item hitem
    exact ⟨hreread.mp hread item hitem, restored_arr_iff.mp hrestored item hitem⟩
  · intro hall
    exact ⟨hreread.mpr (fun item hitem => (hall item hitem).reread),
      restored_arr_iff.mpr (fun item hitem => (hall item hitem).restored)⟩

theorem carried_obj_iff (hmarker : hasMarker fields = false) :
    Carried (.obj fields) ↔ ∀ field ∈ fields, Carried field.2 := by
  have hreread : (Data.obj fields).reread = .obj fields ↔
      ∀ field ∈ fields, field.2.reread = field.2 := by
    rw [Data.reread, EcmaJson.rereadFields_eq_map, Data.obj.injEq, map_eq_self_iff]
    refine forall₂_congr ?_
    rintro ⟨name, d⟩ _
    rw [Prod.mk.injEq]
    exact and_iff_right rfl
  constructor
  · rintro ⟨hread, hrestored⟩ field hfield
    exact ⟨hreread.mp hread field hfield, (restored_obj_iff hmarker).mp hrestored field hfield⟩
  · intro hall
    exact ⟨hreread.mpr (fun field hfield => (hall field hfield).reread),
      (restored_obj_iff hmarker).mpr (fun field hfield => (hall field hfield).restored)⟩

theorem carried_num {x : Float} (h : (Data.num x).reread = .num x) : Carried (.num x) :=
  ⟨h, .num x, rfl, rfl⟩

theorem Carried.finite {x : Float} (h : Carried (.num x)) :
    x.isFinite = true ∧ unsignedZero x = x := by
  have hread := h.reread
  rw [Data.reread] at hread
  split_ifs at hread with hfinite
  exact ⟨hfinite, Data.num.inj hread⟩

end Carried

section Zed

/-- A value that came back is encoded as what is read again. -/
def Settles (value : Value) : Prop := encode (settle value) = (encode value).reread

theorem encodeList_settleList {items : List Value} (h : ∀ item ∈ items, Settles item) :
    Wire.encodeList (Wire.settleList items) = EcmaJson.rereadItems (Wire.encodeList items) := by
  induction items with
  | nil => rfl
  | cons item items ih =>
      have hitem : encode (settle item) = _ := h item (List.mem_cons_self ..)
      rw [Wire.settleList, Wire.encodeList, Wire.encodeList, EcmaJson.rereadItems, hitem,
        ih (fun other hother => h other (List.mem_cons_of_mem _ hother))]

theorem encodeEntries_settleEntries {entries : List (Value × Value)}
    (hkey : ∀ p ∈ entries, Settles p.1) (hitem : ∀ p ∈ entries, Settles p.2) :
    Wire.encodeEntries (Wire.settleEntries entries) =
      EcmaJson.rereadItems (Wire.encodeEntries entries) := by
  induction entries with
  | nil => rfl
  | cons p entries ih =>
      have hfirst : encode (settle p.1) = _ := hkey p (List.mem_cons_self ..)
      have hsecond : encode (settle p.2) = _ := hitem p (List.mem_cons_self ..)
      rw [Wire.settleEntries, Wire.encodeEntries, Wire.encodeEntries, EcmaJson.rereadItems,
        Data.reread, EcmaJson.rereadItems, EcmaJson.rereadItems, EcmaJson.rereadItems, hfirst,
        hsecond, ih (fun other hother => hkey other (List.mem_cons_of_mem _ hother))
          (fun other hother => hitem other (List.mem_cons_of_mem _ hother))]

theorem encodeFields_settleFields {fields : List (Units × Value)}
    (h : ∀ field ∈ fields, Settles field.2) :
    Wire.encodeFields (Wire.settleFields fields) =
      EcmaJson.rereadFields (Wire.encodeFields fields) := by
  induction fields with
  | nil => rfl
  | cons field fields ih =>
      have hfield : encode (settle field.2) = _ := h field (List.mem_cons_self ..)
      rw [Wire.settleFields, Wire.encodeFields, Wire.encodeFields, EcmaJson.rereadFields,
        hfield, ih (fun other hother => h other (List.mem_cons_of_mem _ hother))]

theorem encodeList_settleChain {base : Value} (hsequence : Wire.isSequence base = true)
    (h : Settles base) :
    Wire.encodeList (Wire.settleChain base) = EcmaJson.rereadItems (Wire.encodeChain base) := by
  cases base with
  | list items => exact Data.arr.inj h
  | append base item => exact Data.arr.inj h
  | _ => cases hsequence

theorem settles_of_isZed {value : Value} (h : IsZed value) : Settles value := by
  induction h with
  | null => rfl
  | bool _ => rfl
  | num hfinite =>
      rw [Settles, settle, encode, encode, Data.reread, if_pos hfinite]
  | str _ => rfl
  | list _ ih =>
      rw [Settles, settle, encode, encode, Data.reread, encodeList_settleList ih]
  | map _ _ _ ihkey ihitem =>
      rw [Settles, settle, encode, encode, encodeEntries_settleEntries ihkey ihitem]
      rfl
  | record _ _ _ ih =>
      rw [Settles, settle, encode, encode, Data.reread, encodeFields_settleFields ih]
  | append _ hsequence _ ihbase ihitem =>
      have hitem : encode (settle _) = _ := ihitem
      rw [Settles, settle, encode, encode, Data.reread, Wire.encodeList_eq_map,
        List.map_append, ← Wire.encodeList_eq_map, encodeList_settleChain hsequence ihbase,
        EcmaJson.rereadItems_eq_map, EcmaJson.rereadItems_eq_map, List.map_append,
        List.map_singleton, List.map_singleton, hitem]

theorem carried_sent {value : Value} (h : IsZed value) : Carried (encode value).reread :=
  ⟨reread_idem _, settle value, h.decode_encode, settles_of_isZed h⟩

end Zed

section Primitive

/-- What `===` compares by value. -/
def Primitive : Data → Prop
  | .arr _ => False
  | .obj _ => False
  | _ => True

variable {other item : Data} {value : Value}

theorem wellFormed_of_primitive (h : Primitive item) : EcmaJson.WellFormed item := by
  cases item with
  | null => exact .null
  | bool value => exact .bool value
  | num value => exact .num value
  | str units => exact .str units
  | arr items => exact h.elim
  | obj fields => exact h.elim

theorem stringify_primitive_ne (h : Primitive item) (hitem : Carried item) (text : Units) :
    EcmaJson.stringify item ≠ 91 :: text ∧ EcmaJson.stringify item ≠ 123 :: text := by
  cases item with
  | null => exact ⟨by rintro ⟨⟩, by rintro ⟨⟩⟩
  | bool value => cases value <;> exact ⟨by rintro ⟨⟩, by rintro ⟨⟩⟩
  | num value =>
      obtain ⟨c, tail, hcons, hc⟩ := head_numberToString hitem.finite.1
      rw [EcmaJson.stringify, if_pos hitem.finite.1, hcons]
      constructor
      · rintro ⟨⟩
        rcases hc with hc | hc <;> cases hc
      · rintro ⟨⟩
        rcases hc with hc | hc <;> cases hc
  | str units => exact ⟨by rintro ⟨⟩, by rintro ⟨⟩⟩
  | arr items => exact h.elim
  | obj fields => exact h.elim

theorem eq_of_stringify_eq (h : Primitive item) (hitem : Carried item)
    (hother : Carried other) (heq : EcmaJson.stringify other = EcmaJson.stringify item) :
    other = item := by
  have hprimitive : Primitive other := by
    cases other with
    | arr items => exact absurd heq.symm (stringify_primitive_ne h hitem _).1
    | obj fields => exact absurd heq.symm (stringify_primitive_ne h hitem _).2
    | _ => trivial
  have hread := EcmaJson.reread_written (wellFormed_of_primitive hprimitive)
  rw [heq, EcmaJson.reread_written (wellFormed_of_primitive h), hother.reread,
    hitem.reread] at hread
  exact (Option.some.inj hread).symm

theorem isNaN_of_isFinite {x : Float} (h : x.isFinite = true) : x.isNaN = false := by
  have hmodel : x.toModel.unpack.isNaN = false := by
    rcases Binary64.zero_or_finite h with ⟨sign, hx⟩ | ⟨sign, m, e, hx⟩
    · rw [hx]
      rfl
    · rw [hx.unpack]
      rfl
  exact hmodel

theorem strictEqual_object (h : ¬ Primitive item) : strictEqual value (raw item) = false := by
  cases item with
  | arr items => cases value <;> rfl
  | obj fields => cases value <;> rfl
  | _ => exact absurd trivial h

theorem strictEqual_num {x y : Float} (hx : Carried (.num x)) (hy : Carried (.num y)) :
    strictEqual (.num x) (.num y) = true ↔ x = y := by
  rw [strictEqual, isNaN_of_isFinite hx.finite.1, hx.finite.2, hy.finite.2]
  simp

theorem decode_arr {items : List Data} (h : decode (.arr items) = .ok value) :
    ∃ values, value = .list values := by
  rw [decode] at h
  split at h
  · cases h
    exact ⟨_, rfl⟩
  · cases h

variable {fields : List (Units × Data)}

theorem decodeMap_map (h : Wire.decodeMap fields = .ok value) :
    ∃ entries, value = .map entries := by
  unfold Wire.decodeMap at h
  split at h
  · split at h
    · cases h
      exact ⟨_, rfl⟩
    · cases h
  · cases h
  · cases h

theorem decode_obj (h : decode (.obj fields) = .ok value) :
    (∃ entries, value = .map entries) ∨ ∃ values, value = .record values := by
  rw [decode] at h
  split at h
  · exact .inl (decodeMap_map h)
  · split at h
    · cases h
      exact .inr ⟨_, rfl⟩
    · cases h

theorem strictEqual_iff (h : Primitive item) (hitem : Carried item) (hother : Carried other)
    (hdecode : decode other = .ok value) :
    strictEqual value (raw item) = true ↔ other = item := by
  cases other with
  | num x =>
      cases hdecode
      cases item with
      | num y => rw [raw, strictEqual_num hother hitem, Data.num.injEq]
      | _ => simp_all [raw, strictEqual, Wire.sameKey]
  | arr items =>
      obtain ⟨values, rfl⟩ := decode_arr hdecode
      cases item <;> simp_all [strictEqual, Wire.sameKey, Primitive]
  | obj fields =>
      rcases decode_obj hdecode with ⟨entries, rfl⟩ | ⟨values, rfl⟩
      · cases item <;> simp_all [strictEqual, Wire.sameKey, Primitive]
      · cases item <;> simp_all [strictEqual, Wire.sameKey, Primitive]
  | _ =>
      cases hdecode
      cases item <;> simp_all [raw, strictEqual, Wire.sameKey]

end Primitive

end Serve
end Zdeceptron
