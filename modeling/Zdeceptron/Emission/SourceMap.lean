import Mathlib.Data.List.Induction
import Mathlib.Tactic.Ring
import Zdeceptron.Lsp.Lines

/-!
# Source maps

A map lists generated positions, each with the place in a source file that it came from.  Every
number is written as its difference to the one before it; `decode` reads the text by the rules of
the format.
-/

namespace Zdeceptron
namespace SourceMap

open Library Library.Utf8
open Zdeceptron.Lsp (units lenUtf16 lenUtf16_le ne_newline_of_mem)

section Format

/-- The number a character stands for in base 64. -/
def ofDigit (c : Char) : Option Nat :=
  let n := c.toNat
  if 65 ≤ n ∧ n ≤ 90 then some (n - 65)
  else if 97 ≤ n ∧ n ≤ 122 then some (n - 71)
  else if 48 ≤ n ∧ n ≤ 57 then some (n + 4)
  else if n = 43 then some 62
  else if n = 47 then some 63
  else none

/-- A generated position and, where there is one, its source, source line and source column. -/
structure Segment where
  line : Nat
  column : Int
  origin : Option (Int × Int × Int)

/-- The running values of a reader, the numbers of the segment it is in, what it has of the number
it is in and the segments it has read. -/
structure Reader where
  line : Nat
  column : Int
  source : Int
  sourceLine : Int
  sourceColumn : Int
  fields : List Int
  bits : Nat
  weight : Nat
  segments : List Segment

def signed (bits : Nat) : Int := if bits % 2 = 1 then -(bits / 2 : Nat) else (bits / 2 : Nat)

def Reader.digit (r : Reader) (value : Nat) : Reader :=
  let bits := r.bits + value % 32 * r.weight
  if value < 32 then { r with fields := r.fields ++ [signed bits], bits := 0, weight := 1 }
  else { r with bits := bits, weight := 32 * r.weight }

/-- The end of a segment: of one number where the position came from nowhere, and of a fifth where
the format has a name. -/
def Reader.close (r : Reader) : Option Reader :=
  match r.weight, r.fields with
  | 1, [] => some r
  | 1, [column] =>
      some { r with
        column := r.column + column
        fields := []
        segments := r.segments ++ [⟨r.line, r.column + column, none⟩] }
  | 1, [column, source, line, sourceColumn] | 1, [column, source, line, sourceColumn, _] =>
      some { r with
        column := r.column + column
        source := r.source + source
        sourceLine := r.sourceLine + line
        sourceColumn := r.sourceColumn + sourceColumn
        fields := []
        segments := r.segments ++ [⟨r.line, r.column + column,
          some (r.source + source, r.sourceLine + line, r.sourceColumn + sourceColumn)⟩] }
  | _, _ => none

def Reader.step (r : Reader) (c : Char) : Option Reader :=
  if c = ';' then r.close.map (fun r => { r with line := r.line + 1, column := 0 })
  else if c = ',' then r.close
  else (ofDigit c).map r.digit

def Reader.start : Reader := ⟨0, 0, 0, 0, 0, [], 0, 1, []⟩

def decode (text : List Char) : Option (List Segment) :=
  ((text.foldlM Reader.step Reader.start).bind Reader.close).map Reader.segments

end Format

section Written

abbrev U32 := Fin (2 ^ 32)

structure Mapping where
  line : U32
  column : U32
  start : U32

structure SourceFile where
  text : List Char
  offset : U32

/-- The files of a map; no vector holds more. -/
structure Sources where
  files : List SourceFile
  bounded : files.length < 2 ^ 63

def fileOf (sources : List SourceFile) (start : Nat) : Option Nat :=
  (sources.zipIdx.reverse.find? (fun (source, _) =>
    decide (source.offset ≤ start ∧ start - source.offset ≤ size source.text))).map Prod.snd

def DIGITS : List Char :=
  ['A', 'B', 'C', 'D', 'E', 'F', 'G', 'H', 'I', 'J', 'K', 'L', 'M', 'N', 'O', 'P', 'Q', 'R',
    'S', 'T', 'U', 'V', 'W', 'X', 'Y', 'Z', 'a', 'b', 'c', 'd', 'e', 'f', 'g', 'h', 'i', 'j',
    'k', 'l', 'm', 'n', 'o', 'p', 'q', 'r', 's', 't', 'u', 'v', 'w', 'x', 'y', 'z', '0', '1',
    '2', '3', '4', '5', '6', '7', '8', '9', '+', '/']

def digit (value : Nat) : Char := DIGITS.getD value 'A'

def vlqDigits (bits : Nat) : List Char :=
  if h : bits / 32 = 0 then [digit (bits % 32)]
  else digit (bits % 32 + 32) :: vlqDigits (bits / 32)
termination_by bits
decreasing_by omega

def vlq (value : Int) : List Char :=
  vlqDigits (2 * value.natAbs % 2 ^ 64 + (if value < 0 then 1 else 0))

def breaks (at' : Nat) (bytes : List Nat) : List Nat :=
  (bytes.zipIdx at').filterMap
    (fun (byte, index) => if byte = 10 then some (index + 1) else none)

def LineIndex.new (text : List Char) : List Nat := 0 :: breaks 0 (bytes text)

/-- The starts ascend, so those up to an offset come first. -/
def LineIndex.locate (starts : List Nat) (text : List Char) (offset : Nat) : Option (Nat × Nat) :=
  (upTo text offset).bind (fun _ =>
    let line := (starts.takeWhile (fun start => decide (start ≤ offset))).length - 1
    let column := units ((slice text (starts.getD line 0) offset).getD [])
    if line < 2 ^ 32 ∧ column < 2 ^ 32 then some (line, column) else none)

structure Encoder where
  line : Nat
  previousColumn : Nat
  previousSource : Nat
  previousSourceLine : Nat
  previousSourceColumn : Nat
  firstOnLine : Bool

def Encoder.advance (e : Encoder) (line : Nat) : Encoder :=
  if e.line < line then { e with line := line, previousColumn := 0, firstOnLine := true } else e

def Encoder.separators (e : Encoder) (line : Nat) : List Char :=
  List.replicate (line - e.line) ';' ++ (if (e.advance line).firstOnLine then [] else [','])

def Encoder.record (e : Encoder) (column source sourceLine sourceColumn : Nat) : Encoder :=
  ⟨e.line, column, source, sourceLine, sourceColumn, false⟩

def delta (value previous : Nat) : List Char := vlq (value - previous)

def encodeFrom (sources : List SourceFile) (e : Encoder) : List Mapping → List Char
  | [] => []
  | m :: ms =>
      match (fileOf sources m.start).bind (fun source =>
        sources[source]?.bind (fun file =>
          (LineIndex.locate (LineIndex.new file.text) file.text (m.start - file.offset)).map
            (fun place => (source, place)))) with
      | none => encodeFrom sources e ms
      | some (source, sourceLine, sourceColumn) =>
          let next := e.advance m.line
          e.separators m.line ++ (delta m.column next.previousColumn ++
            (delta source next.previousSource ++ (delta sourceLine next.previousSourceLine ++
              (delta sourceColumn next.previousSourceColumn ++
                encodeFrom sources (next.record m.column source sourceLine sourceColumn) ms))))

def encode (mappings : List Mapping) (sources : Sources) : List Char :=
  encodeFrom sources.files ⟨0, 0, 0, 0, 0, true⟩ mappings

end Written

section Numbers

variable {r : Reader}

theorem ofDigit_digit : ∀ value < 64, ofDigit (digit value) = some value := by decide +kernel

theorem step_digit {value : Nat} (h : value < 64) :
    r.step (digit value) = some (r.digit value) := by
  have hdigit := ofDigit_digit value h
  have hother : ∀ c, ofDigit c = none → digit value ≠ c := by
    rintro _ hnone rfl
    rw [hnone] at hdigit
    cases hdigit
  rw [Reader.step, if_neg (hother ';' rfl), if_neg (hother ',' rfl), hdigit]
  rfl

theorem read_vlqDigits (bits : Nat) (r : Reader) :
    (vlqDigits bits).foldlM Reader.step r = some { r with
      fields := r.fields ++ [signed (r.bits + bits * r.weight)], bits := 0, weight := 1 } := by
  induction bits using vlqDigits.induct generalizing r with
  | case1 bits h =>
      have hbits : bits % 32 = bits := by omega
      rw [vlqDigits, dif_pos h, hbits, List.foldlM_cons, step_digit (by omega)]
      simp only [Reader.digit, if_pos (show bits < 32 by omega), hbits]
      rfl
  | case2 bits h ih =>
      have hsum : r.bits + bits % 32 * r.weight + bits / 32 * (32 * r.weight) =
          r.bits + bits * r.weight := by
        conv_rhs => rw [← Nat.mod_add_div bits 32]
        ring
      rw [vlqDigits, dif_neg h, List.foldlM_cons, step_digit (by omega)]
      have hdigit : r.digit (bits % 32 + 32) =
          { r with bits := r.bits + bits % 32 * r.weight, weight := 32 * r.weight } := by
        have hmod : (bits % 32 + 32) % 32 = bits % 32 := by omega
        rw [Reader.digit, if_neg (by omega), hmod]
      rw [hdigit]
      exact (ih _).trans (by rw [hsum])

theorem signed_vlq {value : Int} (h : value.natAbs < 2 ^ 63) :
    signed (2 * value.natAbs % 2 ^ 64 + (if value < 0 then 1 else 0)) = value := by
  have hmod : 2 * value.natAbs % 2 ^ 64 = 2 * value.natAbs := Nat.mod_eq_of_lt (by omega)
  rw [hmod, signed]
  split_ifs <;> omega

theorem read_vlq {value : Int} (h : value.natAbs < 2 ^ 63) (hbits : r.bits = 0)
    (hweight : r.weight = 1) :
    (vlq value).foldlM Reader.step r = some { r with fields := r.fields ++ [value] } := by
  rw [vlq, read_vlqDigits, hbits, hweight, Nat.zero_add, Nat.mul_one, signed_vlq h]

end Numbers

section Places

/-- The line and the column in UTF-16 units after the characters of a text. -/
def positionAfter (front : List Char) : Nat × Nat :=
  front.foldl (fun (line, column) c =>
    if c = '\n' then (line + 1, 0) else (line, column + lenUtf16 c)) (0, 0)

theorem breaks_append (at' : Nat) (front back : List Nat) :
    breaks at' (front ++ back) = breaks at' front ++ breaks (at' + front.length) back := by
  rw [breaks, List.zipIdx_append, List.filterMap_append]
  rfl

theorem breaks_char {c : Char} (at' : Nat) :
    breaks at' (charBytes c) = if c = '\n' then [at' + 1] else [] := by
  split_ifs with hc
  · subst hc
    have hbytes : charBytes '\n' = [10] := charBytes_ascii (by decide)
    rw [hbytes]
    rfl
  · refine List.filterMap_eq_nil_iff.mpr ?_
    rintro ⟨b, place⟩ hb
    exact if_neg (ne_newline_of_mem hc (List.fst_mem_of_mem_zipIdx hb))

theorem mem_breaks {at' start : Nat} {bytes : List Nat} (h : start ∈ breaks at' bytes) :
    at' < start ∧ start ≤ at' + bytes.length := by
  obtain ⟨⟨byte, index⟩, hmem, hsome⟩ := List.mem_filterMap.mp h
  obtain ⟨hge, hlt, -⟩ := List.mem_zipIdx hmem
  dsimp only at hsome
  split_ifs at hsome
  cases hsome
  omega

theorem positionAfter_spec (front : List Char) :
    (positionAfter front).1 = (breaks 0 (bytes front)).length ∧
      (positionAfter front).1 ≤ size front ∧ (positionAfter front).2 ≤ size front ∧
      ∃ lines last, front = lines ++ last ∧
        (LineIndex.new front)[(positionAfter front).1]? = some (size lines) ∧
        units last = (positionAfter front).2 := by
  induction front using List.reverseRecOn with
  | nil => exact ⟨rfl, Nat.le_refl _, Nat.le_refl _, [], [], rfl, rfl, rfl⟩
  | append_singleton front c ih =>
      obtain ⟨hcount, hline, hcolumn, lines, last, hfront, hstart, hlast⟩ := ih
      have hbreaks : breaks 0 (bytes (front ++ [c])) =
          breaks 0 (bytes front) ++ if c = '\n' then [size front + 1] else [] := by
        have hchar : bytes [c] = charBytes c := (bytes_cons c []).trans (List.append_nil _)
        rw [bytes_append, breaks_append, hchar, breaks_char, Nat.zero_add]
        rfl
      have hposition : positionAfter (front ++ [c]) =
          if c = '\n' then ((positionAfter front).1 + 1, 0)
          else ((positionAfter front).1, (positionAfter front).2 + lenUtf16 c) := by
        rw [positionAfter, List.foldl_append]
        rfl
      have hsize : size (front ++ [c]) = size front + (charBytes c).length := by
        rw [size_append, size_cons, size_nil, Nat.add_zero]
      have hpos := charBytes_length_pos c
      have hunits := lenUtf16_le c
      rw [LineIndex.new, hbreaks, hposition, hsize]
      split_ifs with hc
      · refine ⟨by rw [List.length_append, ← hcount]; rfl, by dsimp only; omega,
          Nat.zero_le _, front ++ [c], [], (List.append_nil _).symm, ?_, rfl⟩
        have hone : (charBytes c).length = 1 := by
          subst hc
          exact size_ascii (by decide)
        rw [hcount, List.getElem?_cons_succ, List.getElem?_append_right (Nat.le_refl _),
          Nat.sub_self, hsize, hone]
        rfl
      · rw [List.append_nil]
        refine ⟨hcount, by dsimp only; omega, by dsimp only; omega, lines, last ++ [c], ?_,
          hstart, ?_⟩
        · rw [hfront, List.append_assoc]
        · rw [Lsp.units_append, hlast]
          rfl

theorem locate_front (front back : List Char) (h : size front < 2 ^ 32) :
    LineIndex.locate (LineIndex.new (front ++ back)) (front ++ back) (size front) =
      some (positionAfter front) := by
  obtain ⟨hcount, hline, hcolumn, lines, last, hfront, hstart, hlast⟩ := positionAfter_spec front
  have hindex : LineIndex.new (front ++ back) =
      LineIndex.new front ++ breaks (size front) (bytes back) := by
    rw [LineIndex.new, bytes_append, breaks_append, Nat.zero_add]
    rfl
  have hrun : (LineIndex.new (front ++ back)).takeWhile
      (fun start => decide (start ≤ size front)) = LineIndex.new front := by
    rw [hindex]
    refine takeWhile_stop (fun start hmem => decide_eq_true ?_)
      (fun start hmem => decide_eq_false ?_)
    · rcases List.mem_cons.mp hmem with rfl | hmem
      · exact Nat.zero_le _
      · exact (mem_breaks hmem).2.trans (Nat.zero_add _).le
    · exact Nat.not_le.mpr (mem_breaks (List.mem_of_mem_head? hmem)).1
  have hlength : (LineIndex.new front).length - 1 = (positionAfter front).1 := by
    rw [LineIndex.new, List.length_cons, Nat.add_sub_cancel, hcount]
  have hget : (LineIndex.new (front ++ back)).getD (positionAfter front).1 0 = size lines := by
    rw [hindex, List.getD_eq_getElem?_getD,
      List.getElem?_append_left (List.getElem?_eq_some_iff.mp hstart).1, hstart, Option.getD_some]
  have hslice : slice (front ++ back) (size lines) (size front) = some last := by
    rw [hfront, size_append, List.append_assoc]
    exact slice_append lines last back
  rw [LineIndex.locate, upTo_append, Option.bind_some]
  dsimp only
  rw [hrun, hlength, hget, hslice, Option.getD_some, hlast, if_pos ⟨by omega, by omega⟩]

end Places

section RoundTrip

variable {sources : List SourceFile} {e : Encoder} {r : Reader} {segments : List Segment}

/-- A mapping whose span starts at a character of its file, as the segment it is. -/
def Stated (sources : List SourceFile) (m : Mapping) (segment : Segment) : Prop :=
  ∃ source file front back, fileOf sources m.start = some source ∧
    sources[source]? = some file ∧ file.text = front ++ back ∧
    (m.start : Nat) = file.offset + size front ∧
    segment = ⟨m.line, m.column,
      some (source, (positionAfter front).1, (positionAfter front).2)⟩

def Encoder.reader (e : Encoder) (segments : List Segment) : Reader :=
  ⟨e.line, e.previousColumn, e.previousSource, e.previousSourceLine, e.previousSourceColumn, [], 0,
    1, segments⟩

/-- The reader has read what the encoder has written, but for the end of the last segment. -/
structure Agrees (e : Encoder) (r : Reader) (segments : List Segment) : Prop where
  closes : r.close = some (e.reader segments)
  first : e.firstOnLine = true → r = e.reader segments

structure Encoder.Bounded (e : Encoder) : Prop where
  column : e.previousColumn < 2 ^ 63
  source : e.previousSource < 2 ^ 63
  line : e.previousSourceLine < 2 ^ 63
  sourceColumn : e.previousSourceColumn < 2 ^ 63

theorem Encoder.Bounded.advance (h : e.Bounded) (line : Nat) : (e.advance line).Bounded := by
  unfold Encoder.advance
  split_ifs
  · exact { h with column := by dsimp only; omega }
  · exact h

theorem read_newlines (k : Nat) (e : Encoder) (hcolumn : e.previousColumn = 0) :
    (List.replicate k ';').foldlM Reader.step (e.reader segments) =
      some ({ e with line := e.line + k }.reader segments) := by
  induction k generalizing e with
  | zero => rfl
  | succ k ih =>
      have hstep : (e.reader segments).step ';' =
          some ({ e with line := e.line + 1, previousColumn := 0 }.reader segments) := rfl
      have hsum : e.line + 1 + k = e.line + (k + 1) := by omega
      rw [List.replicate_succ, List.foldlM_cons, hstep]
      refine (ih _ rfl).trans ?_
      rw [hcolumn, hsum]

theorem read_separators (h : Agrees e r segments) {line : Nat} (hline : e.line ≤ line) :
    (e.separators line).foldlM Reader.step r = some ((e.advance line).reader segments) := by
  rw [Encoder.separators]
  rcases Nat.lt_or_ge e.line line with hlt | hge
  · have hadvance : e.advance line =
        { e with line := line, previousColumn := 0, firstOnLine := true } := if_pos hlt
    obtain ⟨k, hk⟩ : ∃ k, line - e.line = k + 1 := ⟨line - e.line - 1, by omega⟩
    have hstep : r.step ';' =
        some ({ e with line := e.line + 1, previousColumn := 0, firstOnLine := true }.reader
          segments) := by
      rw [Reader.step, if_pos rfl, h.closes]
      rfl
    have hsum : e.line + 1 + k = line := by omega
    rw [hadvance, if_pos rfl, hk, List.append_nil, List.replicate_succ, List.foldlM_cons, hstep]
    refine (read_newlines k _ rfl).trans ?_
    rw [hsum]
  · obtain rfl := Nat.le_antisymm hline hge
    have hadvance : e.advance e.line = e := if_neg (Nat.lt_irrefl _)
    have hcomma : r.step ',' = some (e.reader segments) := h.closes
    rw [hadvance, Nat.sub_self, List.replicate_zero, List.nil_append]
    by_cases hfirst : e.firstOnLine = true
    · rw [if_pos hfirst, h.first hfirst]
      rfl
    · rw [if_neg hfirst, List.foldlM_cons, hcomma]
      rfl

theorem read_delta {value previous : Nat} (hvalue : value < 2 ^ 63) (hprevious : previous < 2 ^ 63)
    (hbits : r.bits = 0) (hweight : r.weight = 1) (rest : List Char) :
    (delta value previous ++ rest).foldlM Reader.step r =
      rest.foldlM Reader.step { r with fields := r.fields ++ [(value : Int) - previous] } := by
  rw [List.foldlM_append, delta, read_vlq (by omega) hbits hweight]
  rfl

theorem close_segment (segments : List Segment) (e : Encoder) (column source line sourceColumn : Nat) :
    { e.reader segments with
        fields := [(column : Int) - e.previousColumn, (source : Int) - e.previousSource,
          (line : Int) - e.previousSourceLine,
          (sourceColumn : Int) - e.previousSourceColumn] }.close =
      some ((e.record column source line sourceColumn).reader
        (segments ++ [⟨e.line, column, some (source, line, sourceColumn)⟩])) := by
  have hsum : ∀ value previous : Nat, (previous : Int) + (value - previous) = value := by omega
  simp only [Reader.close, Encoder.reader, Encoder.record, hsum]

theorem read_encodeFrom {mappings : List Mapping} {stated : List Segment}
    (hsources : sources.length < 2 ^ 63) (hstated : List.Forall₂ (Stated sources) mappings stated)
    (hsorted : mappings.Pairwise (fun m n => m.line ≤ n.line))
    (hline : ∀ m ∈ mappings, e.line ≤ m.line) (hbounded : e.Bounded) (h : Agrees e r segments) :
    (((encodeFrom sources e mappings).foldlM Reader.step r).bind Reader.close).map
      Reader.segments = some (segments ++ stated) := by
  induction hstated generalizing e r segments with
  | nil =>
      rw [encodeFrom, List.append_nil]
      exact congrArg (Option.map Reader.segments) h.closes
  | @cons m segment mappings stated hm hrest ih =>
      obtain ⟨source, file, front, back, hfile, hget, htext, hstart, rfl⟩ := hm
      obtain ⟨hfirst, hsorted⟩ := List.pairwise_cons.mp hsorted
      have hle := hline m List.mem_cons_self
      have hoffset : (m.start : Nat) - file.offset = size front := by omega
      have hsize : size front < 2 ^ 32 := by
        have := m.start.isLt
        omega
      obtain ⟨-, hsourceLine, hsourceColumn, -⟩ := positionAfter_spec front
      have hplace : (fileOf sources m.start).bind (fun source => sources[source]?.bind (fun file =>
          (LineIndex.locate (LineIndex.new file.text) file.text (m.start - file.offset)).map
            (fun place => (source, place)))) = some (source, positionAfter front) := by
        rw [hfile, Option.bind_some, hget, Option.bind_some, htext, hoffset,
          locate_front front back hsize]
        rfl
      have hsource : source < 2 ^ 63 :=
        (List.getElem?_eq_some_iff.mp hget).1.trans hsources
      have hcolumn := m.column.isLt
      have hnext := hbounded.advance m.line
      have hlineNext : (e.advance m.line).line = m.line := by
        rw [Encoder.advance]
        split_ifs with hlt
        · rfl
        · exact Nat.le_antisymm hle (Nat.le_of_not_lt hlt)
      rw [encodeFrom, hplace]
      dsimp only
      rw [List.foldlM_append, read_separators h hle]
      change Option.map _ (Option.bind (List.foldlM _ _ _) _) = _
      rw [read_delta (by omega) hnext.column rfl rfl, read_delta hsource hnext.source rfl rfl,
        read_delta (by omega) hnext.line rfl rfl, read_delta (by omega) hnext.sourceColumn rfl rfl]
      have hclose := close_segment segments (e.advance m.line) m.column source
        (positionAfter front).1 (positionAfter front).2
      have hrecord : ((e.advance m.line).record m.column source (positionAfter front).1
          (positionAfter front).2).Bounded :=
        ⟨hcolumn.trans (by decide), hsource, (hsourceLine.trans_lt hsize).trans (by decide),
          (hsourceColumn.trans_lt hsize).trans (by decide)⟩
      have hlater : ∀ n ∈ mappings, (e.advance m.line).line ≤ n.line :=
        fun n hn => hlineNext.le.trans (hfirst n hn)
      have hread := ih (e := (e.advance m.line).record m.column source _ _) hsorted hlater hrecord
        ⟨hclose, fun hfalse => nomatch hfalse⟩
      refine hread.trans ?_
      rw [List.append_assoc, hlineNext]
      rfl

end RoundTrip

end SourceMap
end Zdeceptron
