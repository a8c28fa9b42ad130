import Mathlib.Algebra.Ring.Nat
import Zdeceptron.Library.Lines
import Zdeceptron.Library.Utf8

/-!
# Editor positions and byte offsets

The compiler counts bytes and an editor counts UTF-16 code units within a line.  Both ways
clamp.  An offset is held in 32 bits, and what does not fit is the largest one.

* `inverse_iff`: the texts and positions for which the two are inverse of each other.
-/

namespace Zdeceptron
namespace Lsp

open Library Library.Utf8

section Index

def maxOffset : Nat := 4294967295

def saturatingU32 (value : Nat) : Nat := min value maxOffset

structure LineIndex where
  starts : List Nat
  len : Nat

structure Position where
  line : Nat
  character : Nat
deriving DecidableEq

def lineBreaks (at' : Nat) (bytes : List Nat) : List Nat :=
  (bytes.zipIdx at').filterMap
    (fun (byte, offset) => if byte = 10 then some (saturatingU32 (offset + 1)) else none)

def LineIndex.new (text : List Char) : LineIndex :=
  ⟨0 :: lineBreaks 0 (bytes text), saturatingU32 (size text)⟩

def LineIndex.lineCount (index : LineIndex) : Nat := index.starts.length

/-- The place of a value in an ascending list, or else the place to insert it at.  Where the
value is there more than once, any of its places may be returned. -/
def binarySearch (values : List Nat) (value : Nat) : Except Nat Nat :=
  match values.findIdx? (· == value) with
  | some place => .ok place
  | none => .error (values.countP (· < value))

def LineIndex.lineOf (index : LineIndex) (offset : Nat) : Nat :=
  match binarySearch index.starts offset with
  | .ok line => line
  | .error after => after - 1

/-- A byte range of a text, or nothing if it is not on character boundaries. -/
def sliced (text : List Char) (start stop : Nat) : List Char :=
  if start > stop then [] else (slice text start stop).getD []

def lenUtf16 (c : Char) : Nat := if c.toNat < 65536 then 1 else 2

def saturatingAdd (total value : Nat) : Nat := saturatingU32 (total + value)

def utf16Len (text : List Char) : Nat :=
  text.foldl (fun total c => saturatingAdd total (lenUtf16 c)) 0

def LineIndex.position (index : LineIndex) (text : List Char) (offset : Nat) : Position :=
  let offset := min offset index.len
  let line := index.lineOf offset
  let start := index.starts.getD line 0
  ⟨saturatingU32 line, utf16Len (sliced text start offset)⟩

def walkTo (character : Nat) : Nat → Nat → List Char → Option Nat
  | _, _, [] => none
  | consumed, at', c :: cs =>
      if consumed ≥ character then some at'
      else walkTo character (saturatingAdd consumed (saturatingU32 (lenUtf16 c)))
        (at' + (charBytes c).length) cs

def LineIndex.offset (index : LineIndex) (text : List Char) (position : Position) : Nat :=
  match index.starts[position.line]? with
  | none => index.len
  | some start =>
      let stop := min (index.starts.getD (position.line + 1) index.len) index.len
      match walkTo position.character 0 0 (sliced text start stop) with
      | some at' => saturatingAdd start (saturatingU32 at')
      | none => stop

end Index

section Lines

variable {text : List Char}

def lineStart (text : List Char) (k : Nat) : Nat :=
  (((splitLines text).take k).map (fun line => size line + 1)).sum

/-- From the first byte of a line to its end, which comes before the line break. -/
def OnLine (text : List Char) (k offset : Nat) : Prop :=
  ∃ line, (splitLines text)[k]? = some line ∧ lineStart text k ≤ offset ∧
    offset ≤ lineStart text k + size line

@[simp] theorem lineStart_zero (text : List Char) : lineStart text 0 = 0 := rfl

theorem lineStart_newline (cs : List Char) (k : Nat) :
    lineStart ('\n' :: cs) (k + 1) = 1 + lineStart cs k := by
  rw [lineStart, splitLines_newline, List.take_succ_cons, List.map_cons, List.sum_cons, size_nil,
    Nat.zero_add]
  rfl

theorem lineStart_cons {c : Char} (hc : c ≠ '\n') (cs : List Char) (k : Nat) :
    lineStart (c :: cs) (k + 1) = (charBytes c).length + lineStart cs (k + 1) := by
  obtain ⟨line, lines, hlines⟩ := exists_splitLines cs
  rw [lineStart, lineStart, splitLines_cons hc hlines, hlines, List.take_succ_cons,
    List.take_succ_cons, List.map_cons, List.map_cons, List.sum_cons, List.sum_cons, size_cons]
  omega

theorem lineStart_succ {k : Nat} {line : List Char} (h : (splitLines text)[k]? = some line) :
    lineStart text (k + 1) = lineStart text k + (size line + 1) := by
  rw [lineStart, List.take_add_one, h, Option.toList_some, List.map_append, List.sum_append,
    List.map_singleton, List.sum_singleton]
  rfl

theorem length_newline : (charBytes '\n').length = 1 := size_ascii (by decide)

theorem line_split {k : Nat} {line : List Char} (h : (splitLines text)[k]? = some line) :
    ∃ before after, text = before ++ (line ++ after) ∧ size before = lineStart text k ∧
      ((splitLines text)[k + 1]? = none ∧ after = [] ∨
        (∃ next, (splitLines text)[k + 1]? = some next) ∧ ∃ rest, after = '\n' :: rest) := by
  induction text generalizing k line with
  | nil =>
      cases k with
      | zero =>
          cases h
          exact ⟨[], [], rfl, rfl, .inl ⟨rfl, rfl⟩⟩
      | succ k => cases h
  | cons c cs ih =>
      obtain ⟨first, lines, hlines⟩ := exists_splitLines cs
      by_cases hc : c = '\n'
      · subst hc
        rw [splitLines_newline] at h ⊢
        cases k with
        | zero =>
            cases h
            refine ⟨[], '\n' :: cs, rfl, rfl, .inr ⟨⟨first, ?_⟩, cs, rfl⟩⟩
            rw [hlines]
            rfl
        | succ k =>
            obtain ⟨before, after, htext, hsize, hnext⟩ := ih h
            refine ⟨'\n' :: before, after, ?_, ?_, hnext⟩
            · rw [htext, List.cons_append]
            · rw [lineStart_newline, size_cons, length_newline, hsize]
      · rw [splitLines_cons hc hlines] at h ⊢
        cases k with
        | zero =>
            cases h
            obtain ⟨before, after, htext, hsize, hnext⟩ := @ih 0 first
              (by rw [hlines]; rfl)
            have hnil : before = [] := eq_nil_of_size hsize
            subst hnil
            refine ⟨[], after, ?_, rfl, ?_⟩
            · rw [htext, List.nil_append, List.nil_append, List.cons_append]
            · rw [hlines] at hnext
              exact hnext
        | succ k =>
            obtain ⟨before, after, htext, hsize, hnext⟩ := @ih (k + 1) line
              (by rw [hlines]; exact h)
            refine ⟨c :: before, after, ?_, ?_, ?_⟩
            · rw [htext, List.cons_append]
            · rw [lineStart_cons hc, size_cons, hsize]
            · rw [hlines] at hnext
              exact hnext

theorem boundary_lineStart {k : Nat} {line : List Char} (h : (splitLines text)[k]? = some line) :
    Boundary text (lineStart text k) := by
  obtain ⟨before, after, htext, hsize, -⟩ := line_split h
  exact ⟨before, line ++ after, htext, hsize⟩

theorem ne_newline_of_mem {c : Char} (hc : c ≠ '\n') {b : Nat} (hb : b ∈ charBytes c) :
    b ≠ 10 := by
  by_cases hlt : c.toNat < 128
  · rw [charBytes_ascii hlt, List.mem_singleton] at hb
    rintro rfl
    exact hc (Char.toNat_inj.mp hb.symm)
  · have := le_of_mem_charBytes (Nat.not_lt.mp hlt) hb
    omega

theorem lineBreaks_newline (at' : Nat) (rest : List Nat) :
    lineBreaks at' (10 :: rest) = saturatingU32 (at' + 1) :: lineBreaks (at' + 1) rest := by
  rw [lineBreaks, List.zipIdx_cons, List.filterMap_cons]
  rfl

theorem lineBreaks_append {front : List Nat} (h : ∀ b ∈ front, b ≠ 10) (at' : Nat)
    (rest : List Nat) : lineBreaks at' (front ++ rest) = lineBreaks (at' + front.length) rest := by
  rw [lineBreaks, List.zipIdx_append, List.filterMap_append, List.filterMap_eq_nil_iff.mpr,
    List.nil_append, Nat.add_comm]
  · rfl
  · rintro ⟨b, place⟩ hb
    exact if_neg (h b (List.fst_mem_of_mem_zipIdx hb))

theorem lineBreaks_bytes (at' : Nat) (text : List Char) :
    lineBreaks at' (bytes text) = (List.range ((splitLines text).length - 1)).map
        (fun k => saturatingU32 (at' + lineStart text (k + 1))) := by
  induction text generalizing at' with
  | nil => rfl
  | cons c cs ih =>
      obtain ⟨first, lines, hlines⟩ := exists_splitLines cs
      by_cases hc : c = '\n'
      · subst hc
        have hbytes : charBytes '\n' = [10] := charBytes_ascii (by decide)
        rw [bytes_cons, hbytes, List.singleton_append, lineBreaks_newline, ih, splitLines_newline,
          hlines]
        simp only [List.length_cons, Nat.add_sub_cancel]
        rw [List.range_succ_eq_map, List.map_cons, List.map_map, lineStart_newline, lineStart_zero]
        congr 1
        refine List.map_congr_left (fun k _ => ?_)
        rw [Function.comp_apply, lineStart_newline, Nat.add_assoc]
      · rw [bytes_cons, lineBreaks_append (fun b hb => ne_newline_of_mem hc hb), ih,
          splitLines_cons hc hlines, hlines]
        refine List.map_congr_left (fun k _ => ?_)
        rw [lineStart_cons hc, Nat.add_assoc]

theorem starts_eq (text : List Char) :
    (LineIndex.new text).starts =
      (List.range (splitLines text).length).map (fun k => saturatingU32 (lineStart text k)) := by
  obtain ⟨first, lines, hlines⟩ := exists_splitLines text
  change 0 :: lineBreaks 0 (bytes text) = _
  rw [lineBreaks_bytes, hlines, List.length_cons, Nat.add_sub_cancel, List.range_succ_eq_map,
    List.map_cons, List.map_map]
  congr 1
  refine List.map_congr_left (fun k _ => ?_)
  rw [Function.comp_apply, Nat.zero_add]

theorem lineCount_eq (text : List Char) :
    (LineIndex.new text).lineCount = (splitLines text).length := by
  rw [LineIndex.lineCount, starts_eq, List.length_map, List.length_range]

theorem getElem?_starts (text : List Char) (k : Nat) :
    (LineIndex.new text).starts[k]? =
      if k < (splitLines text).length then some (saturatingU32 (lineStart text k)) else none := by
  rw [starts_eq, List.getElem?_map]
  split_ifs with hk
  · rw [List.getElem?_range hk, Option.map_some]
  · rw [List.getElem?_eq_none (by rw [List.length_range]; omega), Option.map_none]

theorem lineStart_lt {j k : Nat} (hjk : j < k) (hk : k < (splitLines text).length) :
    lineStart text j < lineStart text k := by
  induction k with
  | zero => exact absurd hjk (Nat.not_lt_zero j)
  | succ k ih =>
      have hsucc := @lineStart_succ text _ _ (List.getElem?_eq_getElem (by omega : k < _))
      rcases Nat.lt_or_ge j k with hlt | hge
      · have := ih hlt (by omega)
        omega
      · have hj : j = k := by omega
        subst hj
        omega

theorem le_lineStart {k : Nat} (hk : k < (splitLines text).length) : k ≤ lineStart text k := by
  induction k with
  | zero => exact Nat.zero_le _
  | succ k ih =>
      have hlt := lineStart_lt (Nat.lt_add_one k) hk
      have := ih (by omega)
      omega

end Lines

section Search

variable {text : List Char} {index : LineIndex}

theorem lt_countP {values : List Nat} (hsorted : values.Pairwise (· ≤ ·)) {j s value : Nat}
    (h : values[j]? = some s) : j < values.countP (· < value) ↔ s < value := by
  induction values generalizing j with
  | nil => cases h
  | cons a rest ih =>
      obtain ⟨hle, hrest⟩ := List.pairwise_cons.mp hsorted
      rw [List.countP_cons]
      by_cases ha : a < value
      · rw [if_pos (decide_eq_true ha)]
        cases j with
        | zero =>
            cases h
            simp [ha]
        | succ j => rw [Nat.add_lt_add_iff_right, ih hrest h]
      · have hnone : rest.countP (· < value) = 0 := by
          refine List.countP_eq_zero.mpr (fun b hb => ?_)
          have := hle b hb
          rw [decide_eq_true_eq]
          omega
        have hs : ¬s < value := by
          cases j with
          | zero =>
              cases h
              exact ha
          | succ j =>
              have := hle s (List.mem_of_getElem? h)
              omega
        rw [if_neg (by rw [decide_eq_true_eq]; exact ha), hnone]
        simp only [hs, iff_false]
        omega

theorem lineOf_spec (hsorted : index.starts.Pairwise (· ≤ ·))
    (hzero : index.starts[0]? = some 0) (offset : Nat) :
    ∃ start, index.starts[index.lineOf offset]? = some start ∧ start ≤ offset ∧
      (start = offset ∨ ∀ next, index.starts[index.lineOf offset + 1]? = some next →
        offset < next) ∧
      ∀ j < index.lineOf offset, ∀ s, index.starts[j]? = some s → s < offset := by
  have hle : ∀ {i j a b : Nat}, i < j → index.starts[i]? = some a →
      index.starts[j]? = some b → a ≤ b := by
    intro i j a b hij hi hj
    obtain ⟨hi', rfl⟩ := List.getElem?_eq_some_iff.mp hi
    obtain ⟨hj', rfl⟩ := List.getElem?_eq_some_iff.mp hj
    exact List.pairwise_iff_getElem.mp hsorted i j hi' hj' hij
  rw [LineIndex.lineOf, binarySearch]
  cases hfind : index.starts.findIdx? (· == offset) with
  | some place =>
      obtain ⟨hlt, hplace, hbefore⟩ := List.findIdx?_eq_some_iff_getElem.mp hfind
      have heq : index.starts[place] = offset := by simpa using hplace
      have hget : index.starts[place]? = some offset := by rw [List.getElem?_eq_getElem hlt, heq]
      refine ⟨offset, hget, Nat.le_refl _, .inl rfl, ?_⟩
      intro j hj s hs
      obtain ⟨hj', rfl⟩ := List.getElem?_eq_some_iff.mp hs
      have hne : index.starts[j] ≠ offset := by simpa using hbefore j hj
      have := hle hj hs hget
      omega
  | none =>
      have hne : ∀ {j s : Nat}, index.starts[j]? = some s → s ≠ offset := by
        intro j s hs
        have := List.findIdx?_eq_none_iff.mp hfind s (List.mem_of_getElem? hs)
        simpa using this
      have hpos : 0 < index.starts.countP (· < offset) :=
        (lt_countP hsorted hzero).mpr (Nat.pos_of_ne_zero (hne hzero).symm)
      have hlen : index.starts.countP (· < offset) ≤ index.starts.length := List.countP_le_length
      have hlast : index.starts.countP (· < offset) - 1 < index.starts.length := by omega
      have hget := List.getElem?_eq_getElem hlast
      have hlt := (lt_countP hsorted hget).mp (Nat.sub_lt hpos Nat.one_pos)
      refine ⟨_, hget, hlt.le, .inr ?_, ?_⟩
      · intro next hnext
        rw [Nat.sub_add_cancel hpos] at hnext
        have hge : ¬next < offset := fun h =>
          absurd ((lt_countP hsorted hnext).mpr h) (Nat.lt_irrefl _)
        have := hne hnext
        omega
      · intro j hj s hs
        have hj' : j < index.starts.countP (· < offset) - 1 := hj
        exact (lt_countP hsorted hs).mp (by omega)

theorem lineOf_mono (hsorted : index.starts.Pairwise (· ≤ ·))
    (hzero : index.starts[0]? = some 0) {offset later : Nat} (h : offset ≤ later) :
    index.lineOf offset ≤ index.lineOf later := by
  obtain ⟨start, hstart, hle, -, hbefore⟩ := lineOf_spec hsorted hzero offset
  obtain ⟨start', hstart', -, hnext, -⟩ := lineOf_spec hsorted hzero later
  by_contra hlt
  rw [Nat.not_le] at hlt
  have hbelow := hbefore _ hlt _ hstart'
  rcases hnext with heq | hnext
  · omega
  · rcases Nat.lt_or_ge (index.lineOf later + 1) (index.lineOf offset) with hgap | hgap
    · have hlen : index.lineOf later + 1 < index.starts.length := by
        obtain ⟨hlen, -⟩ := List.getElem?_eq_some_iff.mp hstart
        omega
      have hget := List.getElem?_eq_getElem hlen
      have := hbefore _ hgap _ hget
      have := hnext _ hget
      omega
    · have heq : index.lineOf later + 1 = index.lineOf offset := by omega
      have := hnext start (by rw [heq]; exact hstart)
      omega

theorem starts_sorted (text : List Char) : (LineIndex.new text).starts.Pairwise (· ≤ ·) := by
  rw [starts_eq, List.pairwise_map]
  refine List.pairwise_lt_range.imp_of_mem ?_
  intro j k _ hk hjk
  have hlt := lineStart_lt hjk (List.mem_range.mp hk)
  simp only [saturatingU32]
  omega

theorem starts_zero (text : List Char) : (LineIndex.new text).starts[0]? = some 0 := rfl

end Search

section Units

variable {text front back : List Char}

def units (text : List Char) : Nat := (text.map lenUtf16).sum

@[simp] theorem units_nil : units [] = 0 := rfl

@[simp] theorem units_cons (c : Char) (text : List Char) :
    units (c :: text) = lenUtf16 c + units text := by
  rw [units, List.map_cons, List.sum_cons, units]

@[simp] theorem units_append (front back : List Char) :
    units (front ++ back) = units front + units back := by
  simp [units]

theorem lenUtf16_pos (c : Char) : 0 < lenUtf16 c := by
  rw [lenUtf16]
  split_ifs <;> omega

theorem lenUtf16_le (c : Char) : lenUtf16 c ≤ (charBytes c).length := by
  rw [lenUtf16]
  split_ifs with h
  · exact charBytes_length_pos c
  · exact two_le_charBytes (by omega)

theorem units_le_size (text : List Char) : units text ≤ size text := by
  induction text with
  | nil => exact Nat.le_refl _
  | cons c text ih =>
      rw [units_cons, size_cons]
      exact Nat.add_le_add (lenUtf16_le c) ih

theorem saturatingU32_of_le {n : Nat} (h : n ≤ maxOffset) : saturatingU32 n = n :=
  Nat.min_eq_left h

theorem saturatingAdd_of_le {m n : Nat} (h : m + n ≤ maxOffset) : saturatingAdd m n = m + n :=
  Nat.min_eq_left h

theorem utf16Len_eq (h : units text ≤ maxOffset) : utf16Len text = units text := by
  have hfold : ∀ (text : List Char) (total : Nat), total + units text ≤ maxOffset →
      text.foldl (fun total c => saturatingAdd total (lenUtf16 c)) total = total + units text := by
    intro text
    induction text with
    | nil =>
        intro total _
        rfl
    | cons c text ih =>
        intro total htotal
        rw [units_cons] at htotal
        rw [List.foldl_cons, saturatingAdd_of_le (by omega), ih _ (by omega), units_cons,
          Nat.add_assoc]
  have := hfold text 0 (by omega)
  rwa [Nat.zero_add] at this

theorem consumed_eq {n : Nat} {c : Char} (h : n + lenUtf16 c ≤ maxOffset) :
    saturatingAdd n (saturatingU32 (lenUtf16 c)) = n + lenUtf16 c := by
  rw [saturatingU32_of_le (by omega), saturatingAdd_of_le h]

theorem walkTo_append {n at' : Nat} (h : n + units front ≤ maxOffset) :
    walkTo (n + units front) n at' (front ++ back) =
      walkTo (n + units front) (n + units front) (at' + size front) back := by
  induction front generalizing n at' with
  | nil => rfl
  | cons c front ih =>
      have hpos := lenUtf16_pos c
      rw [units_cons] at h ⊢
      rw [List.cons_append, walkTo, if_neg (by omega), consumed_eq (by omega),
        ← Nat.add_assoc, ih (by omega), size_cons, ← Nat.add_assoc at' _ _]

theorem walkTo_eq_some {character n at' place : Nat}
    (h : walkTo character n at' text = some place) :
    ∃ front c back, text = front ++ c :: back ∧ place = at' + size front := by
  induction text generalizing n at' with
  | nil => cases h
  | cons c text ih =>
      rw [walkTo] at h
      split_ifs at h with hle
      · cases h
        exact ⟨[], c, text, rfl, rfl⟩
      · obtain ⟨front, d, back, rfl, rfl⟩ := ih h
        exact ⟨c :: front, d, back, rfl, by rw [size_cons]; omega⟩

theorem walkTo_eq_none {character n at' : Nat} {c : Char}
    (h : n + units text + lenUtf16 c ≤ maxOffset) :
    walkTo character n at' (text ++ [c]) = none ↔ n + units text < character := by
  induction text generalizing n at' with
  | nil =>
      rw [List.nil_append, walkTo, units_nil, Nat.add_zero]
      split_ifs with hle
      · simp only [false_iff]
        omega
      · simp only [walkTo, true_iff]
        omega
  | cons d text ih =>
      rw [units_cons] at h
      rw [List.cons_append, walkTo, units_cons]
      split_ifs with hle
      · simp only [false_iff]
        omega
      · rw [consumed_eq (by omega), ih (by omega), Nat.add_assoc]

end Units

section Inverse

variable {text : List Char}

def Position.le (p q : Position) : Prop :=
  p.line < q.line ∨ p.line = q.line ∧ p.character ≤ q.character

def LineIndex.stop (index : LineIndex) (line : Nat) : Nat :=
  min (index.starts.getD (line + 1) index.len) index.len

theorem boundary_saturating (h : Boundary text (saturatingU32 (size text))) {offset : Nat}
    (ho : Boundary text offset) : Boundary text (saturatingU32 offset) := by
  by_cases hle : offset ≤ maxOffset
  · rwa [saturatingU32_of_le hle]
  · have hsize := ho.le
    have heq : saturatingU32 offset = saturatingU32 (size text) := by
      simp only [saturatingU32]
      omega
    rwa [heq]

variable {k : Nat}

theorem boundary_start (hk : k < (splitLines text).length) :
    Boundary text (lineStart text k) :=
  boundary_lineStart (List.getElem?_eq_getElem hk)

theorem stop_next (hk : k + 1 < (splitLines text).length) :
    (LineIndex.new text).stop k = saturatingU32 (lineStart text (k + 1)) := by
  have hle := (boundary_start hk).le
  rw [LineIndex.stop, List.getD_eq_getElem?_getD, getElem?_starts, if_pos hk, Option.getD_some]
  simp only [LineIndex.new, saturatingU32]
  omega

theorem stop_last (hk : (splitLines text).length ≤ k + 1) :
    (LineIndex.new text).stop k = saturatingU32 (size text) := by
  rw [LineIndex.stop, List.getD_eq_getElem?_getD, getElem?_starts, if_neg (Nat.not_lt.mpr hk),
    Option.getD_none]
  exact Nat.min_self _

theorem boundary_stop (h : Boundary text (saturatingU32 (size text))) (k : Nat) :
    Boundary text ((LineIndex.new text).stop k) := by
  rcases Nat.lt_or_ge (k + 1) (splitLines text).length with hk | hk
  · rw [stop_next hk]
    exact boundary_saturating h (boundary_start hk)
  · rw [stop_last hk]
    exact h

theorem sliced_eq {front middle back : List Char} {start stop : Nat}
    (htext : text = front ++ (middle ++ back)) (hstart : size front = start)
    (hstop : size front + size middle = stop) : sliced text start stop = middle := by
  rw [sliced, if_neg (by omega), htext, ← hstart, ← hstop, slice_append]
  rfl

theorem position_eq {o : Nat} (ho : Boundary text o) (hle : o ≤ maxOffset) :
    ∃ start front middle back, (LineIndex.new text).starts[(LineIndex.new text).lineOf o]? =
        some start ∧
      text = front ++ (middle ++ back) ∧ size front = start ∧ size front + size middle = o ∧
      (LineIndex.new text).position text o = ⟨(LineIndex.new text).lineOf o, units middle⟩ ∧
      (start = o ∨ ∀ next, (LineIndex.new text).starts[(LineIndex.new text).lineOf o + 1]? =
        some next → o < next) := by
  obtain ⟨start, hget, hstart, hnext, hbefore⟩ :=
    lineOf_spec (starts_sorted text) (starts_zero text) o
  have hclamp : min o (LineIndex.new text).len = o := by
    have := ho.le
    simp only [LineIndex.new, saturatingU32]
    omega
  have hline : (LineIndex.new text).lineOf o ≤ maxOffset := by
    rcases Nat.eq_zero_or_pos ((LineIndex.new text).lineOf o) with hzero | hpos
    · omega
    · have hlt : (LineIndex.new text).lineOf o < (splitLines text).length := by
        rw [getElem?_starts] at hget
        split_ifs at hget with hlt
        exact hlt
      have hpred := hbefore ((LineIndex.new text).lineOf o - 1) (by omega)
        (saturatingU32 (lineStart text ((LineIndex.new text).lineOf o - 1)))
        (by rw [getElem?_starts, if_pos (by omega)])
      have := @le_lineStart text ((LineIndex.new text).lineOf o - 1) (by omega)
      simp only [saturatingU32] at hpred
      omega
  have hboundary : Boundary text start := by
    rw [getElem?_starts] at hget
    split_ifs at hget with hlt
    obtain rfl := Option.some.inj hget
    by_cases hfit : lineStart text ((LineIndex.new text).lineOf o) ≤ maxOffset
    · rw [saturatingU32_of_le hfit]
      exact boundary_start hlt
    · have heq : saturatingU32 (lineStart text ((LineIndex.new text).lineOf o)) = o := by
        simp only [saturatingU32] at hstart ⊢
        omega
      rwa [heq]
  obtain ⟨front, middle, back, htext, hfront, hmiddle, -⟩ := hboundary.slice ho hstart
  refine ⟨start, front, middle, back, hget, htext, hfront, hmiddle, ?_, hnext⟩
  have hunits := units_le_size middle
  have hsliced : sliced text start o = middle := sliced_eq htext hfront hmiddle
  simp only [LineIndex.position, hclamp]
  rw [List.getD_eq_getElem?_getD, hget, Option.getD_some, hsliced, saturatingU32_of_le hline,
    utf16Len_eq (by omega)]

variable {p : Position}

theorem offset_eq {start : Nat}
    (hget : (LineIndex.new text).starts[p.line]? = some start) :
    (LineIndex.new text).offset text p =
      match walkTo p.character 0 0 (sliced text start ((LineIndex.new text).stop p.line)) with
      | some at' => saturatingAdd start (saturatingU32 at')
      | none => (LineIndex.new text).stop p.line := by
  simp only [LineIndex.offset, hget]
  rfl

theorem offset_position (hend : Boundary text (saturatingU32 (size text))) {o : Nat}
    (ho : Boundary text o) (hle : o ≤ maxOffset) :
    (LineIndex.new text).offset text ((LineIndex.new text).position text o) = o := by
  obtain ⟨start, front, middle, back, hget, htext, hfront, hmiddle, hposition, hnext⟩ :=
    position_eq ho hle
  have hstop : o ≤ (LineIndex.new text).stop ((LineIndex.new text).lineOf o) := by
    have hsize := ho.le
    rcases Nat.lt_or_ge ((LineIndex.new text).lineOf o + 1) (splitLines text).length with hk | hk
    · rw [stop_next hk]
      have hlt := lineStart_lt (Nat.lt_add_one _) hk
      rw [getElem?_starts, if_pos (by omega)] at hget
      rcases hnext with heq | hnext
      · obtain rfl := Option.some.inj hget
        simp only [saturatingU32] at heq ⊢
        omega
      · exact (hnext _ (by rw [getElem?_starts, if_pos hk])).le
    · rw [stop_last hk]
      simp only [saturatingU32]
      omega
  obtain ⟨front', rest, back', htext', hfront', hrest, -⟩ :=
    ho.slice (boundary_stop hend ((LineIndex.new text).lineOf o)) hstop
  have hcut : front ++ middle = front' ∧ back = rest ++ back' := by
    obtain ⟨gap, hgap, hback⟩ := @append_split (front ++ middle) back front' (rest ++ back')
      (by rw [List.append_assoc, ← htext, ← htext']) (by rw [size_append]; omega)
    have hnil : gap = [] := by
      refine eq_nil_of_size ?_
      have := congrArg size hgap
      rw [size_append, size_append] at this
      omega
    subst hnil
    exact ⟨by rw [hgap, List.append_nil], hback⟩
  obtain ⟨hfm, rfl⟩ := hcut
  have hsliced : sliced text start ((LineIndex.new text).stop ((LineIndex.new text).lineOf o)) =
      middle ++ rest := by
    rw [← List.append_assoc middle rest back'] at htext
    exact sliced_eq htext hfront (by rw [size_append]; omega)
  have hunits := units_le_size middle
  rw [hposition, offset_eq hget, hsliced]
  have hwalk := @walkTo_append middle rest 0 0 (by omega)
  rw [Nat.zero_add, Nat.zero_add] at hwalk
  rw [hwalk]
  cases rest with
  | nil =>
      rw [size_nil, Nat.add_zero, hfront'] at hrest
      exact hrest.symm
  | cons c rest =>
      rw [walkTo, if_pos (Nat.le_refl _)]
      simp only
      rw [saturatingU32_of_le (by omega), saturatingAdd_of_le (by omega)]
      omega

theorem position_monotone {o o' : Nat} (ho : Boundary text o) (ho' : Boundary text o')
    (hle : o ≤ o') (hfit : o' ≤ maxOffset) :
    ((LineIndex.new text).position text o).le ((LineIndex.new text).position text o') := by
  obtain ⟨start, front, middle, back, hget, htext, hfront, hmiddle, hposition, -⟩ :=
    position_eq ho (Nat.le_trans hle hfit)
  obtain ⟨start', front', middle', back', hget', htext', hfront', hmiddle', hposition', -⟩ :=
    position_eq ho' hfit
  rw [hposition, hposition']
  rcases Nat.lt_or_eq_of_le (lineOf_mono (starts_sorted text) (starts_zero text) hle) with
    hlt | heq
  · exact .inl hlt
  · refine .inr ⟨heq, ?_⟩
    rw [heq, hget'] at hget
    obtain rfl := Option.some.inj hget
    have hstart : front = front' := by
      obtain ⟨gap, rfl, -⟩ := append_split (htext.symm.trans htext') (by omega)
      rw [size_append] at hfront'
      have hnil : gap = [] := eq_nil_of_size (by omega)
      rw [hnil, List.append_nil]
    subst hstart
    obtain ⟨gap, rfl, -⟩ := append_split
      (List.append_cancel_left (htext.symm.trans htext')) (by omega)
    rw [units_append]
    exact Nat.le_add_right _ _

theorem offset_cases (hend : Boundary text (saturatingU32 (size text))) {start : Nat}
    (hget : (LineIndex.new text).starts[p.line]? = some start) :
    ∃ front middle back, text = front ++ (middle ++ back) ∧ size front = start ∧
      size front + size middle = (LineIndex.new text).stop p.line ∧
      ((∃ pre c post, middle = pre ++ c :: post ∧ walkTo p.character 0 0 middle = some (size pre) ∧
        (LineIndex.new text).offset text p = start + size pre) ∨
      walkTo p.character 0 0 middle = none ∧
        (LineIndex.new text).offset text p = (LineIndex.new text).stop p.line) := by
  have hline : p.line < (splitLines text).length ∧
      saturatingU32 (lineStart text p.line) = start := by
    rw [getElem?_starts] at hget
    split_ifs at hget with hlt
    exact ⟨hlt, Option.some.inj hget⟩
  have hsize := (boundary_start hline.1).le
  have hle : start ≤ (LineIndex.new text).stop p.line := by
    rw [← hline.2]
    rcases Nat.lt_or_ge (p.line + 1) (splitLines text).length with hk | hk
    · have hlt := lineStart_lt (Nat.lt_add_one _) hk
      rw [stop_next hk]
      simp only [saturatingU32]
      omega
    · rw [stop_last hk]
      simp only [saturatingU32]
      omega
  have hstart : Boundary text start := by
    rw [← hline.2]
    exact boundary_saturating hend (boundary_start hline.1)
  obtain ⟨front, middle, back, htext, hfront, hmiddle, -⟩ :=
    hstart.slice (boundary_stop hend p.line) hle
  refine ⟨front, middle, back, htext, hfront, hmiddle, ?_⟩
  have hstop : (LineIndex.new text).stop p.line ≤ maxOffset := by
    simp only [LineIndex.stop, LineIndex.new, saturatingU32]
    omega
  have hoffset := offset_eq hget
  rw [sliced_eq htext hfront hmiddle] at hoffset
  cases hwalk : walkTo p.character 0 0 middle with
  | none =>
      rw [hwalk] at hoffset
      exact .inr ⟨rfl, hoffset⟩
  | some place =>
      obtain ⟨pre, c, post, hpre, hplace⟩ := walkTo_eq_some hwalk
      rw [Nat.zero_add] at hplace
      subst hplace
      rw [hwalk] at hoffset
      rw [hpre, size_append] at hmiddle
      have hfits : start + size pre ≤ maxOffset := by omega
      refine .inl ⟨pre, c, post, hpre, rfl, ?_⟩
      rw [hoffset]
      simp only
      rw [saturatingU32_of_le (by omega), saturatingAdd_of_le hfits]

theorem boundary_of_round_trip (h : ∀ o, Boundary text o → o ≤ maxOffset →
      (LineIndex.new text).offset text ((LineIndex.new text).position text o) = o) :
    Boundary text (saturatingU32 (size text)) := by
  rcases @boundary_or_inside text (saturatingU32 (size text)) (Nat.min_le_left _ _) with
    hend | ⟨before, c, after, htext, hlow, hhigh⟩
  · exact hend
  exfalso
  have hsize : saturatingU32 (size text) = maxOffset := by
    have := congrArg size htext
    rw [size_append, size_cons] at this
    simp only [saturatingU32] at hhigh ⊢
    omega
  rw [hsize] at hlow hhigh
  have hnot : ¬Boundary text maxOffset := by
    intro hboundary
    rw [htext] at hboundary
    have := hboundary.past hlow
    omega
  have ho : Boundary text (size before) := ⟨before, c :: after, htext, rfl⟩
  obtain ⟨start, front, middle, back, hget, -, hfront, hmiddle, hposition, hnext⟩ :=
    position_eq ho hlow.le
  have hstop : (LineIndex.new text).stop ((LineIndex.new text).lineOf (size before)) =
      maxOffset := by
    rcases Nat.lt_or_ge ((LineIndex.new text).lineOf (size before) + 1)
      (splitLines text).length with hk | hk
    · rw [stop_next hk]
      have hlt := lineStart_lt (Nat.lt_add_one _) hk
      rw [getElem?_starts, if_pos (by omega)] at hget
      have hafter : size before <
          lineStart text ((LineIndex.new text).lineOf (size before) + 1) := by
        rcases hnext with heq | hnext
        · obtain rfl := Option.some.inj hget
          simp only [saturatingU32] at heq
          omega
        · have := hnext _ (by rw [getElem?_starts, if_pos hk])
          simp only [saturatingU32] at this
          omega
      have hboundary := boundary_start hk
      have hpast : size before + (charBytes c).length ≤
          lineStart text ((LineIndex.new text).lineOf (size before) + 1) := by
        rw [htext] at hboundary hafter ⊢
        exact hboundary.past hafter
      simp only [saturatingU32]
      omega
    · rw [stop_last hk, hsize]
  have hsliced : sliced text start maxOffset = [] := by
    rw [sliced]
    split_ifs with hgt
    · rfl
    · cases hslice : slice text start maxOffset with
      | none => rfl
      | some found =>
          obtain ⟨first, last, hfound, -, hat⟩ := slice_eq_some hslice
          exact absurd ⟨first ++ found, last, by rw [hfound, List.append_assoc],
            by rw [size_append, hat]⟩ hnot
  have hround := h _ ho hlow.le
  rw [hposition, offset_eq hget] at hround
  simp only [hstop, hsliced, walkTo] at hround
  omega

/-- What the two ways of a conversion are to be to each other, and to a position. -/
structure InverseAt (text : List Char) (p : Position) : Prop where
  round_trip : ∀ o, Boundary text o → o ≤ maxOffset →
    (LineIndex.new text).offset text ((LineIndex.new text).position text o) = o
  monotone : ∀ o o', Boundary text o → Boundary text o' → o ≤ o' → o' ≤ maxOffset →
    ((LineIndex.new text).position text o).le ((LineIndex.new text).position text o')
  boundary : Boundary text ((LineIndex.new text).offset text p)
  on_line : p.line < (LineIndex.new text).lineCount →
    OnLine text p.line ((LineIndex.new text).offset text p)

/-- No character lies across the largest offset, and a position on a line is on one that begins
by then and, where another line follows that does so too, is not past its end. -/
def Within (text : List Char) (p : Position) : Prop :=
  Boundary text (saturatingU32 (size text)) ∧
    ∀ line, (splitLines text)[p.line]? = some line →
      lineStart text p.line ≤ maxOffset ∧
      (p.line + 1 < (splitLines text).length → lineStart text (p.line + 1) ≤ maxOffset →
        p.character ≤ units line)

theorem sliced_line {line : List Char} (h : (splitLines text)[k]? = some line)
    (hk : k + 1 < (splitLines text).length) {start stop : Nat} (hstart : lineStart text k = start)
    (hstop : lineStart text (k + 1) = stop) : sliced text start stop = line ++ ['\n'] := by
  obtain ⟨before, after, htext, hsize, ⟨hlast, -⟩ | ⟨-, rest, rfl⟩⟩ := line_split h
  · rw [List.getElem?_eq_getElem hk] at hlast
    cases hlast
  · have hsucc := lineStart_succ h
    refine @sliced_eq _ before _ rest _ _ (by rw [htext]; simp) (hsize.trans hstart) ?_
    rw [size_append, size_cons, length_newline, size_nil]
    omega

theorem within_of_inverse (h : InverseAt text p) : Within text p := by
  have hend := boundary_of_round_trip h.round_trip
  refine ⟨hend, ?_⟩
  intro line hline
  obtain ⟨hk, -⟩ := List.getElem?_eq_some_iff.mp hline
  have hget : (LineIndex.new text).starts[p.line]? =
      some (saturatingU32 (lineStart text p.line)) := by rw [getElem?_starts, if_pos hk]
  obtain ⟨front, middle, back, htext, hfront, hmiddle, hcases⟩ := offset_cases hend hget
  obtain ⟨line', hline', hlow, hhigh⟩ := h.on_line (by rw [lineCount_eq]; exact hk)
  obtain rfl := Option.some.inj (hline.symm.trans hline')
  have hsize := (boundary_start hk).le
  have hstop : (LineIndex.new text).stop p.line ≤ maxOffset := by
    simp only [LineIndex.stop, LineIndex.new, saturatingU32]
    omega
  constructor
  · -- The offset is no larger than the largest one, and the line begins by then.
    rcases hcases with ⟨pre, c, post, rfl, -, hoffset⟩ | ⟨-, hoffset⟩
    · have hpos := size_pos c post
      rw [size_append] at hmiddle
      simp only [saturatingU32] at hoffset hmiddle hfront
      omega
    · omega
  · intro hnext hfit
    by_contra hpast
    have hstart : saturatingU32 (lineStart text p.line) = lineStart text p.line :=
      saturatingU32_of_le (by have := lineStart_lt (Nat.lt_add_one _) hnext; omega)
    have heq : (LineIndex.new text).stop p.line = lineStart text (p.line + 1) := by
      rw [stop_next hnext, saturatingU32_of_le hfit]
    have hmid : middle = line ++ ['\n'] := by
      rw [← sliced_eq htext hfront hmiddle]
      exact sliced_line hline hnext hstart.symm heq.symm
    have hsucc := lineStart_succ hline
    have hunits := units_le_size line
    have hnone : walkTo p.character 0 0 middle = none := by
      rw [hmid]
      exact (walkTo_eq_none (by
        have : lenUtf16 '\n' = 1 := rfl
        omega)).mpr (by omega)
    rcases hcases with ⟨pre, c, post, -, hsome, -⟩ | ⟨-, hoffset⟩
    · rw [hnone] at hsome
      cases hsome
    · omega

theorem inverse_of_within (h : Within text p) : InverseAt text p := by
  obtain ⟨hend, hline⟩ := h
  refine ⟨fun o ho hle => offset_position hend ho hle,
    fun o o' ho ho' hle hfit => position_monotone ho ho' hle hfit, ?_, ?_⟩
  · cases hget : (LineIndex.new text).starts[p.line]? with
    | none =>
        have hoffset : (LineIndex.new text).offset text p = saturatingU32 (size text) := by
          simp only [LineIndex.offset, hget]
          rfl
        rwa [hoffset]
    | some start =>
        obtain ⟨front, middle, back, htext, hfront, hmiddle, hcases⟩ := offset_cases hend hget
        rcases hcases with ⟨pre, c, post, rfl, -, hoffset⟩ | ⟨-, hoffset⟩
        · rw [hoffset]
          exact ⟨front ++ pre, c :: (post ++ back), by rw [htext]; simp,
            by rw [size_append, hfront]⟩
        · rw [hoffset]
          exact boundary_stop hend p.line
  · intro hcount
    rw [lineCount_eq] at hcount
    have hget : (LineIndex.new text).starts[p.line]? =
        some (saturatingU32 (lineStart text p.line)) := by rw [getElem?_starts, if_pos hcount]
    have hlines := List.getElem?_eq_getElem hcount
    obtain ⟨hfit, hnext⟩ := hline _ hlines
    have hsucc := lineStart_succ hlines
    obtain ⟨front, middle, back, htext, hfront, hmiddle, hcases⟩ := offset_cases hend hget
    rw [saturatingU32_of_le hfit] at hfront hcases
    refine ⟨_, hlines, ?_, ?_⟩
    · rcases hcases with ⟨pre, c, post, -, -, hoffset⟩ | ⟨-, hoffset⟩ <;> omega
    · rcases Nat.lt_or_ge (p.line + 1) (splitLines text).length with hk | hk
      · by_cases hfits : lineStart text (p.line + 1) ≤ maxOffset
        · have heq : (LineIndex.new text).stop p.line = lineStart text (p.line + 1) := by
            rw [stop_next hk, saturatingU32_of_le hfits]
          have hmid := sliced_line hlines hk rfl heq.symm
          rw [sliced_eq htext hfront hmiddle] at hmid
          rcases hcases with ⟨pre, c, post, hpre, -, hoffset⟩ | ⟨hnone, -⟩
          · -- The character found is on the line or is its line break.
            have hsizes := congrArg size (hpre.symm.trans hmid)
            have hpos := charBytes_length_pos c
            rw [size_append, size_append, size_cons, size_cons, length_newline, size_nil] at hsizes
            omega
          · have hunits := units_le_size (splitLines text)[p.line]
            rw [hmid, walkTo_eq_none (by
              have : lenUtf16 '\n' = 1 := rfl
              omega)] at hnone
            have := hnext hk hfits
            omega
        · have heq : (LineIndex.new text).stop p.line = maxOffset := by
            rw [stop_next hk]
            simp only [saturatingU32]
            omega
          rcases hcases with ⟨pre, c, post, rfl, -, hoffset⟩ | ⟨-, hoffset⟩
          · rw [size_append] at hmiddle
            omega
          · omega
      · obtain ⟨before, after, hsplit, hbefore, ⟨-, rfl⟩ | ⟨⟨next, hnext⟩, -⟩⟩ :=
          line_split hlines
        · have hstop := stop_last hk
          have hsizes := congrArg size hsplit
          rw [size_append, size_append, size_nil] at hsizes
          simp only [saturatingU32] at hstop
          rcases hcases with ⟨pre, c, post, rfl, -, hoffset⟩ | ⟨-, hoffset⟩
          · rw [size_append] at hmiddle
            omega
          · omega
        · rw [List.getElem?_eq_none hk] at hnext
          cases hnext

end Inverse

end Lsp
end Zdeceptron
