import Mathlib.Data.List.Basic
import Mathlib.Order.Nat

/-!
# Byte offsets into a text

A text is indexed by the bytes of its encoding and cut only between characters.
-/

namespace Library
namespace Utf8

def charBytes (c : Char) : List Nat := (String.utf8EncodeChar c).map UInt8.toNat

def bytes (text : List Char) : List Nat := text.flatMap charBytes

def size (text : List Char) : Nat := (bytes text).length

def lead (c : Char) : Nat := (charBytes c).headD 0

def last (text : List Char) : Nat := (bytes text).getLastD 0

section Bytes

variable {c : Char}

theorem charBytes_ascii (h : c.toNat < 128) : charBytes c = [c.toNat] := by
  have hle : c.val.toNat ≤ 0x7f := Nat.le_of_lt_succ h
  have hmod : (UInt8.ofNat c.val.toNat).toNat = c.val.toNat := by
    rw [UInt8.toNat_ofNat']
    exact Nat.mod_eq_of_lt (by omega)
  simp only [charBytes, String.utf8EncodeChar, if_pos hle, List.map_cons, List.map_nil, hmod]
  rfl

theorem le_of_mem_charBytes (h : 128 ≤ c.toNat) {b : Nat} (hb : b ∈ charBytes c) :
    128 ≤ b := by
  have hlt : ¬c.val.toNat ≤ 0x7f := Nat.not_le.mpr h
  have hmax : c.val.toNat < 0x110000 := by
    have := c.valid
    rcases this with hlow | ⟨-, hhigh⟩
    · exact lt_trans hlow (by decide)
    · exact hhigh
  simp only [charBytes, String.utf8EncodeChar, if_neg hlt] at hb
  split_ifs at hb <;> simp at hb <;> omega

theorem two_le_charBytes (h : 128 ≤ c.toNat) : 2 ≤ (charBytes c).length := by
  have hlt : ¬c.val.toNat ≤ 0x7f := Nat.not_le.mpr h
  simp only [charBytes, String.utf8EncodeChar, if_neg hlt]
  split_ifs <;> simp

theorem charBytes_ne_nil (c : Char) : charBytes c ≠ [] := by
  intro hnil
  have hlen := congrArg List.length hnil
  rw [charBytes, List.length_map, String.length_utf8EncodeChar] at hlen
  exact absurd hlen (Char.utf8Size_pos c).ne'

theorem charBytes_eq_cons (c : Char) : ∃ tail, charBytes c = lead c :: tail := by
  cases hbytes : charBytes c with
  | nil => exact absurd hbytes (charBytes_ne_nil c)
  | cons b tail => exact ⟨tail, by rw [lead, hbytes, List.headD_cons]⟩

theorem lead_mem (c : Char) : lead c ∈ charBytes c := by
  obtain ⟨tail, htail⟩ := charBytes_eq_cons c
  rw [htail]
  exact List.mem_cons_self

theorem lead_ascii (h : c.toNat < 128) : lead c = c.toNat := by
  rw [lead, charBytes_ascii h, List.headD_cons]

theorem lead_eq_iff {c d : Char} (hd : d.toNat < 128) : lead c = d.toNat ↔ c = d := by
  constructor
  · intro hlead
    by_cases hc : c.toNat < 128
    · rw [lead_ascii hc] at hlead
      exact Char.toNat_inj.mp hlead
    · have hle := le_of_mem_charBytes (Nat.not_lt.mp hc) (lead_mem c)
      omega
  · rintro rfl
    exact lead_ascii hd

@[simp] theorem bytes_nil : bytes [] = [] := rfl

@[simp] theorem bytes_cons (c : Char) (text : List Char) :
    bytes (c :: text) = charBytes c ++ bytes text := List.flatMap_cons

@[simp] theorem bytes_append (front back : List Char) :
    bytes (front ++ back) = bytes front ++ bytes back := List.flatMap_append

@[simp] theorem size_nil : size [] = 0 := rfl

@[simp] theorem size_cons (c : Char) (text : List Char) :
    size (c :: text) = (charBytes c).length + size text := by
  simp [size]

@[simp] theorem size_append (front back : List Char) :
    size (front ++ back) = size front + size back := by
  simp [size]

theorem charBytes_length_pos (c : Char) : 0 < (charBytes c).length :=
  List.length_pos_iff.mpr (charBytes_ne_nil c)

theorem size_pos (c : Char) (text : List Char) : 0 < size (c :: text) := by
  rw [size_cons]
  exact Nat.add_pos_left (charBytes_length_pos c) _

theorem size_ascii (h : c.toNat < 128) : (charBytes c).length = 1 := by
  rw [charBytes_ascii h, List.length_singleton]

variable (front : List Char)

theorem bytes_lead (c : Char) (back : List Char) :
    (bytes (front ++ c :: back))[size front]? = some (lead c) := by
  obtain ⟨tail, htail⟩ := charBytes_eq_cons c
  rw [bytes_append, bytes_cons, htail, size, List.getElem?_append_right le_rfl, Nat.sub_self]
  rfl

theorem bytes_last {text : List Char} (htext : text ≠ []) (back : List Char) :
    (bytes (front ++ (text ++ back)))[size front + size text - 1]? = some (last text) := by
  have hne : bytes text ≠ [] := by
    cases text with
    | nil => exact absurd rfl htext
    | cons c text =>
        rw [bytes_cons]
        exact List.append_ne_nil_of_left_ne_nil (charBytes_ne_nil c) _
  have hpos : 0 < size text := List.length_pos_iff.mpr hne
  have hlast : (bytes text)[size text - 1]? = some (last text) := by
    rw [last, List.getLastD_eq_getLast?, List.getLast?_eq_some_getLast hne, Option.getD_some, size,
      ← List.getLast?_eq_getElem?, List.getLast?_eq_some_getLast hne]
  rw [bytes_append, bytes_append, List.getElem?_append_right (by rw [← size]; omega),
    List.getElem?_append_left (by rw [← size, ← size]; omega), ← hlast]
  congr 1
  rw [← size]
  omega

theorem bytes_size : (bytes front)[size front]? = none :=
  List.getElem?_eq_none le_rfl

theorem bytes_lead_cons (c d : Char) (back : List Char) (hc : c.toNat < 128) :
    (bytes (front ++ c :: d :: back))[size front + 1]? = some (lead d) := by
  have h := bytes_lead (front ++ [c]) d back
  rwa [List.append_assoc, size_append, size_cons, size_ascii hc] at h

def Uniform (p : Nat → Bool) : Prop := ∀ c, ∀ b ∈ charBytes c, p b = p (lead c)

theorem Uniform.of_high {p : Nat → Bool} {v : Bool} (h : ∀ b, 128 ≤ b → p b = v) :
    Uniform p := by
  intro c b hb
  by_cases hc : c.toNat < 128
  · rw [charBytes_ascii hc, List.mem_singleton] at hb
    rw [hb, lead_ascii hc]
  · have hle := Nat.not_lt.mp hc
    rw [h b (le_of_mem_charBytes hle hb), h _ (le_of_mem_charBytes hle (lead_mem c))]

theorem takeWhile_bytes {p : Nat → Bool} (hp : Uniform p) (text : List Char) :
    ((bytes text).takeWhile p).length = size (text.takeWhile (fun c => p (lead c))) := by
  induction text with
  | nil => rfl
  | cons c text ih =>
      rw [bytes_cons]
      cases hc : p (lead c) with
      | true =>
          have hall : ∀ b ∈ charBytes c, p b = true := fun b hb => (hp c b hb).trans hc
          have hchars : (c :: text).takeWhile (fun c => p (lead c)) =
              c :: text.takeWhile (fun c => p (lead c)) := List.takeWhile_cons_of_pos hc
          rw [hchars, size_cons, List.takeWhile_append_of_pos hall, List.length_append, ih]
      | false =>
          have hchars : (c :: text).takeWhile (fun c => p (lead c)) = [] :=
            List.takeWhile_cons_of_neg (by simp [hc])
          obtain ⟨tail, htail⟩ := charBytes_eq_cons c
          rw [hchars, htail, List.cons_append, List.takeWhile_cons_of_neg (by simp [hc])]
          rfl

theorem drop_size (front back : List Char) :
    (bytes (front ++ back)).drop (size front) = bytes back := by
  rw [bytes_append, size, List.drop_left]

theorem bytes_injective {text text' : List Char} (h : bytes text = bytes text') :
    text = text' := by
  have hflat : text.flatMap String.utf8EncodeChar = text'.flatMap String.utf8EncodeChar := by
    refine List.map_injective_iff.mpr (fun a b hab => UInt8.toNat_inj.mp hab) ?_
    rw [List.map_flatMap, List.map_flatMap]
    exact h
  have hencode : text.utf8Encode = text'.utf8Encode := by
    rw [List.utf8Encode, List.utf8Encode, hflat]
  have hdecode := congrArg ByteArray.utf8Decode? hencode
  rw [List.utf8Decode?_utf8Encode, List.utf8Decode?_utf8Encode] at hdecode
  simpa using hdecode

end Bytes

section Slices

def after : List Char → Nat → Option (List Char)
  | text, 0 => some text
  | [], _ + 1 => none
  | c :: text, n + 1 =>
      if (charBytes c).length ≤ n + 1 then after text (n + 1 - (charBytes c).length) else none

/-- The first bytes of a text; none if they end inside a character or past the end. -/
def upTo : List Char → Nat → Option (List Char)
  | _, 0 => some []
  | [], _ + 1 => none
  | c :: text, n + 1 =>
      if (charBytes c).length ≤ n + 1 then
        (upTo text (n + 1 - (charBytes c).length)).map (c :: ·)
      else none

def slice (text : List Char) (start stop : Nat) : Option (List Char) :=
  if start ≤ stop then (after text start).bind (fun rest => upTo rest (stop - start)) else none

theorem size_cons_eq_succ (c : Char) (text : List Char) : ∃ n, size (c :: text) = n + 1 :=
  Nat.exists_eq_succ_of_ne_zero (size_pos c text).ne'

theorem after_append (front back : List Char) : after (front ++ back) (size front) = some back := by
  induction front with
  | nil => cases back <;> rfl
  | cons c front ih =>
      obtain ⟨n, hn⟩ := size_cons_eq_succ c front
      rw [hn, List.cons_append, after, ← hn, size_cons, if_pos (Nat.le_add_right _ _),
        Nat.add_sub_cancel_left]
      exact ih

theorem upTo_append (front back : List Char) : upTo (front ++ back) (size front) = some front := by
  induction front with
  | nil => cases back <;> rfl
  | cons c front ih =>
      obtain ⟨n, hn⟩ := size_cons_eq_succ c front
      rw [hn, List.cons_append, upTo, ← hn, size_cons, if_pos (Nat.le_add_right _ _),
        Nat.add_sub_cancel_left, ih]
      rfl

theorem slice_append (front middle back : List Char) :
    slice (front ++ (middle ++ back)) (size front) (size front + size middle) = some middle := by
  rw [slice, if_pos (Nat.le_add_right _ _), after_append, Nat.add_sub_cancel_left]
  exact upTo_append middle back

theorem after_inside {front : List Char} {c : Char} {k : Nat} (hk : 0 < k)
    (hlt : k < (charBytes c).length) (back : List Char) :
    after (front ++ c :: back) (size front + k) = none := by
  induction front with
  | nil =>
      obtain ⟨n, rfl⟩ := Nat.exists_eq_succ_of_ne_zero hk.ne'
      rw [size_nil, Nat.zero_add, List.nil_append, after, if_neg (Nat.not_le.mpr hlt)]
  | cons d front ih =>
      obtain ⟨n, hn⟩ : ∃ n, size (d :: front) + k = n + 1 :=
        Nat.exists_eq_succ_of_ne_zero (by omega)
      rw [hn, List.cons_append, after, ← hn, size_cons, if_pos (by omega),
        show (charBytes d).length + size front + k - (charBytes d).length = size front + k by
          omega]
      exact ih

theorem after_eq_some {text rest : List Char} {n : Nat} (h : after text n = some rest) :
    ∃ front, text = front ++ rest ∧ size front = n := by
  induction text generalizing n with
  | nil =>
      cases n with
      | zero => exact ⟨[], (Option.some.inj h), rfl⟩
      | succ n => cases h
  | cons c text ih =>
      cases n with
      | zero => exact ⟨[], (Option.some.inj h), rfl⟩
      | succ n =>
          rw [after] at h
          split_ifs at h with hle
          obtain ⟨front, rfl, hsize⟩ := ih h
          exact ⟨c :: front, rfl, by rw [size_cons, hsize]; omega⟩

theorem upTo_eq_some {text front : List Char} {n : Nat} (h : upTo text n = some front) :
    ∃ back, text = front ++ back ∧ size front = n := by
  induction text generalizing n front with
  | nil =>
      cases n with
      | zero =>
          cases h
          exact ⟨[], rfl, rfl⟩
      | succ n => cases h
  | cons c text ih =>
      cases n with
      | zero =>
          cases h
          exact ⟨c :: text, rfl, rfl⟩
      | succ n =>
          rw [upTo] at h
          split_ifs at h with hle
          obtain ⟨front', hfront', rfl⟩ := Option.map_eq_some_iff.mp h
          obtain ⟨back, rfl, hsize⟩ := ih hfront'
          exact ⟨back, rfl, by rw [size_cons, hsize]; omega⟩

theorem slice_eq_some {text middle : List Char} {start stop : Nat}
    (h : slice text start stop = some middle) :
    ∃ front back, text = front ++ (middle ++ back) ∧ size front = start ∧
      size front + size middle = stop := by
  rw [slice] at h
  split_ifs at h with hle
  obtain ⟨rest, hafter, hupTo⟩ := Option.bind_eq_some_iff.mp h
  obtain ⟨front, rfl, hfront⟩ := after_eq_some hafter
  obtain ⟨back, rfl, hmiddle⟩ := upTo_eq_some hupTo
  exact ⟨front, back, rfl, hfront, by omega⟩

/-- A byte offset between two characters of a text, or at one of its ends. -/
def Boundary (text : List Char) (offset : Nat) : Prop :=
  ∃ front back, text = front ++ back ∧ size front = offset

variable {text : List Char}

theorem Boundary.le {offset : Nat} (h : Boundary text offset) :
    offset ≤ size text := by
  obtain ⟨front, back, rfl, rfl⟩ := h
  rw [size_append]
  exact Nat.le_add_right _ _

theorem eq_nil_of_size (h : size text = 0) : text = [] := by
  cases text with
  | nil => rfl
  | cons c text => exact absurd h (size_pos c text).ne'

theorem append_split {front back front' back' : List Char} (h : front ++ back = front' ++ back')
    (hle : size front ≤ size front') : ∃ middle, front' = front ++ middle ∧
      back = middle ++ back' := by
  rcases List.append_eq_append_iff.mp h with ⟨middle, rfl, rfl⟩ | ⟨middle, rfl, rfl⟩
  · exact ⟨middle, rfl, rfl⟩
  · rw [size_append] at hle
    have hnil : middle = [] := eq_nil_of_size (by omega)
    subst hnil
    exact ⟨[], by simp, by simp⟩

theorem Boundary.slice {start stop : Nat} (hstart : Boundary text start)
    (hstop : Boundary text stop) (hle : start ≤ stop) :
    ∃ front middle back, text = front ++ (middle ++ back) ∧ size front = start ∧
      size front + size middle = stop ∧ Utf8.slice text start stop = some middle := by
  obtain ⟨front, rest, rfl, rfl⟩ := hstart
  obtain ⟨front', back, htext, rfl⟩ := hstop
  obtain ⟨middle, rfl, rfl⟩ := append_split htext hle
  refine ⟨front, middle, back, rfl, rfl, (size_append front middle).symm, ?_⟩
  rw [size_append]
  exact slice_append front middle back

theorem boundary_or_inside (text : List Char) {offset : Nat} (h : offset ≤ size text) :
    Boundary text offset ∨ ∃ front c back, text = front ++ c :: back ∧ size front < offset ∧
      offset < size front + (charBytes c).length := by
  induction text generalizing offset with
  | nil => exact .inl ⟨[], [], rfl, (Nat.le_zero.mp h).symm⟩
  | cons c text ih =>
      rw [size_cons] at h
      rcases Nat.eq_zero_or_pos offset with rfl | hpos
      · exact .inl ⟨[], c :: text, rfl, rfl⟩
      rcases Nat.lt_or_ge offset (charBytes c).length with hlt | hge
      · exact .inr ⟨[], c, text, rfl, hpos, by rw [size_nil, Nat.zero_add]; exact hlt⟩
      rcases @ih (offset - (charBytes c).length) (by omega) with
        ⟨front, back, rfl, hsize⟩ | ⟨front, d, back, rfl, hlow, hhigh⟩
      · exact .inl ⟨c :: front, back, rfl, by rw [size_cons]; omega⟩
      · exact .inr ⟨c :: front, d, back, rfl, by rw [size_cons]; omega, by rw [size_cons]; omega⟩

theorem Boundary.past {front back : List Char} {c : Char} {offset : Nat}
    (h : Boundary (front ++ c :: back) offset) (hlt : size front < offset) :
    size front + (charBytes c).length ≤ offset := by
  obtain ⟨front', back', htext, rfl⟩ := h
  obtain ⟨middle, rfl, hmiddle⟩ := append_split htext hlt.le
  cases middle with
  | nil =>
      rw [List.append_nil] at hlt
      exact absurd hlt (Nat.lt_irrefl _)
  | cons d middle =>
      obtain ⟨rfl, -⟩ := List.cons.inj hmiddle
      rw [size_append, size_cons]
      omega

end Slices

end Utf8
end Library
