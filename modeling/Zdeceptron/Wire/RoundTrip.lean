import Zdeceptron.Wire.Value

/-!
# The wire format loses nothing

A value of the language comes back from the wire as it was sent: a chain of
appended items as the list it stands for, `-0` as `0`, and everything else,
entries and fields in their order, as itself.  A map never comes back as a
record, because no field name contains the `$` of the marker.

* `parse_stringify`: the two halves with it.
-/

namespace Zdeceptron
namespace Wire

open Library
open Library.EcmaJson (Data)

section Zed

/-- What the lexer's rule leaves of a field name: no `$` in it, and no digit in
front. -/
def IsFieldName (name : Units) : Prop :=
  36 ∉ name ∧ ∀ c, name.head? = some c → isDigit c = false

instance : DecidablePred IsFieldName := fun name =>
  decidable_of_iff (36 ∉ name ∧ name.head?.all (fun c => !isDigit c) = true) (by
    cases name <;> simp [IsFieldName])

def isSequence : Value → Bool
  | .list _ => true
  | .append _ _ => true
  | _ => false

inductive IsZed : Value → Prop
  | null : IsZed .null
  | bool (value : Bool) : IsZed (.bool value)
  | num {value : Float} : value.isFinite = true → IsZed (.num value)
  | str (units : Units) : IsZed (.str units)
  | list {items : List Value} : (∀ item ∈ items, IsZed item) → IsZed (.list items)
  | map {entries : List (Value × Value)} : (∀ p ∈ entries, IsZed p.1) →
      (∀ p ∈ entries, IsZed p.2) →
      entries.Pairwise (fun p q => sameKey p.1 q.1 = false) → IsZed (.map entries)
  | record {fields : List (Units × Value)} : (∀ field ∈ fields, IsZed field.2) →
      (fields.map Prod.fst).Nodup → (∀ field ∈ fields, IsFieldName field.1) →
      IsZed (.record fields)
  | append {base item : Value} : IsZed base → isSequence base = true → IsZed item →
      IsZed (.append base item)

end Zed

section Settle

mutual

/-- A value as it comes back: chains as lists and `-0` as `0`. -/
def settle : Value → Value
  | .num value => .num (unsignedZero value)
  | .list items => .list (settleList items)
  | .map entries => .map (settleEntries entries)
  | .record fields => .record (settleFields fields)
  | .append base item => .list (settleChain base ++ [settle item])
  | value => value

def settleList : List Value → List Value
  | [] => []
  | item :: items => settle item :: settleList items

def settleEntries : List (Value × Value) → List (Value × Value)
  | [] => []
  | (key, item) :: entries => (settle key, settle item) :: settleEntries entries

def settleFields : List (Units × Value) → List (Units × Value)
  | [] => []
  | (name, value) :: fields => (name, settle value) :: settleFields fields

def settleChain : Value → List Value
  | .append base item => settleChain base ++ [settle item]
  | .list items => settleList items
  | _ => []

end

theorem unsignedZero_idem (x : Float) : unsignedZero (unsignedZero x) = unsignedZero x := by
  unfold unsignedZero
  cases hx : x.toModel.unpack with
  | zero sign =>
      simp only
      split <;> rfl
  | _ =>
      change unsignedZero x = x
      unfold unsignedZero
      rw [hx]

theorem sameKey_settle (a b : Value) : sameKey (settle a) (settle b) = sameKey a b := by
  cases a <;> cases b <;> simp [settle, sameKey, unsignedZero_idem]

theorem storedKey_settle (key : Value) : storedKey (settle key) = settle key := by
  cases key <;> simp [settle, storedKey, unsignedZero_idem]

end Settle

section WellFormed

theorem isIndex_of_isFieldName {name : Units} (h : IsFieldName name) :
    EcmaJson.isIndex name = false := by
  cases name with
  | nil => rfl
  | cons c cs =>
      have hc := h.2 c rfl
      have hzero : c ≠ 48 := by
        rintro rfl
        exact absurd hc (by decide)
      simp [EcmaJson.isIndex, hc, hzero]

theorem ownKeys_of_isFieldName {fields : List (Units × Value)}
    (hnodup : (fields.map Prod.fst).Nodup) (hname : ∀ field ∈ fields, IsFieldName field.1) :
    EcmaJson.OwnKeys (fields.map Prod.fst) := by
  refine (List.nodup_iff_pairwise_ne.mp hnodup).imp_of_mem ?_
  intro a b _ hb hne
  obtain ⟨field, hfield, rfl⟩ := List.mem_map.mp hb
  refine ⟨hne, ?_⟩
  intro hindex
  rw [isIndex_of_isFieldName (hname field hfield)] at hindex
  cases hindex

theorem isFieldName_ne_marker {name : Units} (h : IsFieldName name) : name ≠ marker := by
  rintro rfl
  exact h.1 (by decide)

theorem IsZed.wellFormed {value : Value} (h : IsZed value) :
    EcmaJson.WellFormed (encode value) := by
  induction h with
  | null => exact .null
  | bool value => exact .bool value
  | num _ => exact .num _
  | str units => exact .str units
  | list _ ih =>
      rw [encode, encodeList_eq_map]
      refine .arr ?_
      intro d hd
      obtain ⟨item, hitem, rfl⟩ := List.mem_map.mp hd
      exact ih item hitem
  | map _ _ _ ihkey ihitem =>
      rw [encode, encodeEntries_eq_map]
      refine .obj ?_ (List.pairwise_singleton _ _)
      · intro field hfield
        rw [List.mem_singleton] at hfield
        subst hfield
        refine .arr ?_
        intro d hd
        obtain ⟨p, hp, rfl⟩ := List.mem_map.mp hd
        refine .arr ?_
        intro e he
        rcases List.mem_cons.mp he with rfl | he
        · exact ihkey p hp
        · rw [List.mem_singleton] at he
          subst he
          exact ihitem p hp
  | record _ hnodup hname ih =>
      rw [encode, encodeFields_eq_map]
      refine .obj ?_ ?_
      · intro field hfield
        obtain ⟨other, hother, rfl⟩ := List.mem_map.mp hfield
        exact ih other hother
      · rw [List.map_map]
        exact ownKeys_of_isFieldName hnodup hname
  | append _ hsequence _ ihbase ihitem =>
      rename_i base item _ _
      rw [encode]
      refine .arr ?_
      intro d hd
      rcases List.mem_append.mp hd with hd | hd
      · cases base with
        | list _ | append _ _ =>
            cases ihbase with
            | arr hall => exact hall d hd
        | _ => simp [isSequence] at hsequence
      · rw [List.mem_singleton] at hd
        subst hd
        exact ihitem

end WellFormed

section DecodeEncode

def ComesBack (value : Value) : Prop := decode (encode value).reread = .ok (settle value)

theorem decodeList_encodeList {items : List Value} (h : ∀ item ∈ items, ComesBack item) :
    decodeList (EcmaJson.rereadItems (encodeList items)) = .ok (settleList items) := by
  induction items with
  | nil => rfl
  | cons item items ih =>
      have hitem : decode (encode item).reread = .ok (settle item) := h item (by simp)
      have hitems := ih (fun other hother => h other (List.mem_cons_of_mem _ hother))
      simp only [encodeList, EcmaJson.rereadItems, decodeList, hitem, hitems, settleList]

theorem decodeFields_encodeFields {fields : List (Units × Value)}
    (h : ∀ field ∈ fields, ComesBack field.2) :
    decodeFields (EcmaJson.rereadFields (encodeFields fields)) = .ok (settleFields fields) := by
  induction fields with
  | nil => rfl
  | cons field fields ih =>
      obtain ⟨name, value⟩ := field
      have hvalue : decode (encode value).reread = .ok (settle value) :=
        h (name, value) (by simp)
      have hfields := ih (fun other hother => h other (List.mem_cons_of_mem _ hother))
      simp only [encodeFields, EcmaJson.rereadFields, decodeFields, hvalue, hfields,
        settleFields]

variable {entries : List (Value × Value)}

theorem setEntry_new {key : Value} (item : Value) (h : ∀ p ∈ entries, sameKey p.1 key = false) :
    setEntry entries key item = entries ++ [(storedKey key, item)] := by
  have hany : entries.any (fun p => sameKey p.1 key) = false := by
    rw [List.any_eq_false]
    intro p hp
    simp [h p hp]
  unfold setEntry
  rw [hany]
  rfl

theorem decodeEntries_encodeEntries
    (hkey : ∀ p ∈ entries, ComesBack p.1) (hitem : ∀ p ∈ entries, ComesBack p.2)
    (hpair : entries.Pairwise (fun p q => sameKey p.1 q.1 = false)) (before : List (Value × Value))
    (hbefore : ∀ p ∈ before, ∀ q ∈ entries, sameKey p.1 (settle q.1) = false) :
    decodeEntries before (EcmaJson.rereadItems (encodeEntries entries)) =
      .ok (before ++ settleEntries entries) := by
  induction entries generalizing before with
  | nil =>
      rw [settleEntries, List.append_nil]
      rfl
  | cons p entries ih =>
      obtain ⟨key, item⟩ := p
      obtain ⟨hhead, htail⟩ := List.pairwise_cons.mp hpair
      have hk : decode (encode key).reread = .ok (settle key) := hkey (key, item) (by simp)
      have hi : decode (encode item).reread = .ok (settle item) := hitem (key, item) (by simp)
      have hset := setEntry_new (settle item)
        (fun p hp => hbefore p hp (key, item) (by simp))
      have hrest := ih (fun p hp => hkey p (List.mem_cons_of_mem _ hp))
        (fun p hp => hitem p (List.mem_cons_of_mem _ hp)) htail
        (before ++ [(settle key, settle item)]) (by
          intro p hp q hq
          rcases List.mem_append.mp hp with hp | hp
          · exact hbefore p hp q (List.mem_cons_of_mem _ hq)
          · rw [List.mem_singleton] at hp
            subst hp
            rw [sameKey_settle]
            exact hhead q hq)
      simp only [encodeEntries, EcmaJson.rereadItems, Data.reread, decodeEntries, hk, hi,
        hset, storedKey_settle, hrest, settleEntries, List.append_assoc,
        List.singleton_append]

theorem rereadItems_append (xs ys : List Data) :
    EcmaJson.rereadItems (xs ++ ys) = EcmaJson.rereadItems xs ++ EcmaJson.rereadItems ys := by
  simp only [EcmaJson.rereadItems_eq_map, List.map_append]

theorem decodeList_append {xs ys : List Data} {us vs : List Value}
    (hxs : decodeList xs = .ok us) (hys : decodeList ys = .ok vs) :
    decodeList (xs ++ ys) = .ok (us ++ vs) := by
  induction xs generalizing us with
  | nil =>
      cases hxs
      exact hys
  | cons x xs ih =>
      rw [decodeList] at hxs
      cases hx : decode x with
      | error error =>
          rw [hx] at hxs
          cases hxs
      | ok value =>
          rw [hx] at hxs
          cases hrest : decodeList xs with
          | error error =>
              simp only [hrest] at hxs
              cases hxs
          | ok values =>
              simp only [hrest] at hxs
              cases hxs
              simp only [List.cons_append, decodeList, hx, ih hrest]

theorem decodeList_of_arr {items : List Data} {values : List Value}
    (h : decode (.arr items) = .ok (.list values)) : decodeList items = .ok values := by
  rw [decode] at h
  cases hitems : decodeList items with
  | error error =>
      rw [hitems] at h
      cases h
  | ok values' =>
      rw [hitems] at h
      cases h
      rfl

theorem decodeList_encodeChain {base : Value} (hsequence : isSequence base = true)
    (h : ComesBack base) :
    decodeList (EcmaJson.rereadItems (encodeChain base)) = .ok (settleChain base) := by
  cases base with
  | list items => exact decodeList_of_arr h
  | append base item => exact decodeList_of_arr h
  | _ => simp [isSequence] at hsequence

theorem hasMarker_rereadFields (fields : List (Units × Data)) :
    hasMarker (EcmaJson.rereadFields fields) = hasMarker fields := by
  rw [EcmaJson.rereadFields_eq_map]
  unfold hasMarker
  rw [List.any_map]
  rfl

theorem IsZed.decode_encode {value : Value} (h : IsZed value) : ComesBack value := by
  induction h with
  | null => rfl
  | bool value => rfl
  | num hfinite =>
      unfold ComesBack
      rw [encode, Data.reread, if_pos hfinite]
      rfl
  | str units => rfl
  | list _ ih =>
      unfold ComesBack
      rw [encode, Data.reread, decode, decodeList_encodeList ih, settle]
  | map _ _ hpair ihkey ihitem =>
      have hentries := decodeEntries_encodeEntries ihkey ihitem hpair [] (by simp)
      rw [List.nil_append] at hentries
      unfold ComesBack
      rw [encode, Data.reread, EcmaJson.rereadFields, EcmaJson.rereadFields,
        Data.reread, decode, if_pos (by rfl), decodeMap, hentries, settle]
  | record _ hnodup hname ih =>
      rename_i fields _
      have hmarker : hasMarker (encodeFields fields) = false := by
        rw [encodeFields_eq_map, hasMarker, List.any_eq_false]
        intro field hfield
        obtain ⟨other, hother, rfl⟩ := List.mem_map.mp hfield
        simpa using isFieldName_ne_marker (hname other hother)
      unfold ComesBack
      rw [encode, Data.reread, decode, hasMarker_rereadFields, hmarker,
        decodeFields_encodeFields ih, settle]
      rfl
  | append _ hsequence _ ihbase ihitem =>
      rename_i base item _ _
      have hone : ∀ other ∈ [item], ComesBack other := by simpa using ihitem
      have hitem := decodeList_encodeList hone
      have hchain := decodeList_append (decodeList_encodeChain hsequence ihbase) hitem
      unfold ComesBack
      simp only [encodeList, settleList] at hchain
      rw [encode, Data.reread, rereadItems_append, decode, hchain, settle]

def isMap : Value → Bool
  | .map _ => true
  | _ => false

def isRecord : Value → Bool
  | .record _ => true
  | _ => false

/-- Every value of the language comes back from its text, a map as a map and a
record as a record. -/
theorem parse_stringify {value : Value} (h : IsZed value) :
    parse (stringify value) = .ok (settle value) ∧
      isMap (settle value) = isMap value ∧ isRecord (settle value) = isRecord value := by
  have hdecode : decode (encode value).reread = .ok (settle value) := h.decode_encode
  refine ⟨?_, ?_, ?_⟩
  · unfold parse stringify
    rw [EcmaJson.reread_written h.wellFormed]
    simp only [hdecode]
  · cases value <;> rfl
  · cases value <;> rfl

/-- A map from a text to a chain of one record, whose field is `__proto__`. -/
theorem parse_stringify_nested :
    parse (stringify (.map [(.str [97],
        .append (.list []) (.record [(units "__proto__", .num (Float.ofNat 1))]))])) =
      .ok (.map [(.str [97], .list [.record [(units "__proto__", .num (Float.ofNat 1))]])]) := by
  have hrecord : IsZed (.record [(units "__proto__", .num (Float.ofNat 1))]) := by
    refine .record ?_ (List.nodup_singleton _) ?_
    · simpa using IsZed.num (by decide +kernel : (Float.ofNat 1).isFinite = true)
    · simpa using (by decide : IsFieldName (units "__proto__"))
  have hchain : IsZed (.append (.list []) (.record [(units "__proto__", .num (Float.ofNat 1))])) :=
    .append (.list (by simp)) rfl hrecord
  have hmap : IsZed (.map [(.str [97], _)]) := IsZed.map
    (by simpa using IsZed.str [97]) (by simpa using hchain) (List.pairwise_singleton _ _)
  exact (parse_stringify hmap).1

end DecodeEncode

end Wire
end Zdeceptron
