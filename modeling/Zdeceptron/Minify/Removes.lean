import Zdeceptron.Minify.Chars
import Zdeceptron.Store.Value

/-!
# Minifying only ever removes characters

What a scanner writes is what it has taken from its source, in order, with white space
between.  The script scanner stays between characters on every source.  The stylesheet
scanner steps one byte past a character it copies, so it stops the build at the first
character beyond ASCII outside comments and literals, and at no other.

* `minify_removes_iff`: when both scanners return, and that they only remove.
-/

namespace Zdeceptron
namespace Minify

open Library
open Library.Utf8 (bytes size lead charBytes slice)
open Store (isWhitespace)

section Script

def visible (text : List Char) : List Char := text.filter (fun c => !isWhitespace c)

@[simp] theorem visible_append (front back : List Char) :
    visible (front ++ back) = visible front ++ visible back := List.filter_append _ _

theorem visible_gap (gap : Gap) : visible gap.written = [] := by
  cases gap <;> decide

theorem Mode.step_sublist (mode : Mode) (c : Char) (rest : List Char) :
    (visible (written (mode.step c rest).kept)).Sublist (visible (mode.step c rest).taken) := by
  have hcode (rest : List Char) : (visible (written (mode.code c rest).kept)).Sublist
      (visible (mode.code c rest).taken) := by
    have hwritten : visible (written (mode.code c rest).kept) =
        visible (mode.code c rest).taken := by
      have hgap : visible (if mode.fresh = true then [] else mode.gap.written) = [] := by
        split_ifs
        · rfl
        · exact visible_gap mode.gap
      simp only [Mode.code, written, List.flatMap_singleton, Piece.written, visible_append, hgap,
        List.nil_append]
    rw [hwritten]
  unfold Mode.step
  split_ifs
  · unfold Mode.text
    cases rest <;> dsimp only <;> split_ifs <;> exact List.Sublist.refl _
  · exact List.nil_sublist _
  · exact List.nil_sublist _
  · cases rest with
    | nil => exact hcode []
    | cons d tail =>
        dsimp only
        split_ifs
        · unfold Mode.lineComment
          split_ifs
          · simp only [written, List.flatMap_singleton, Piece.written, List.nil_append]
            exact List.Sublist.refl _
          · exact List.nil_sublist _
        · exact List.nil_sublist _
        · exact hcode (d :: tail)

theorem pieces_sublist (mode : Mode) (text : List Char) :
    (visible (written (pieces mode text))).Sublist (visible text) := by
  induction hn : text.length using Nat.strongRecOn generalizing mode text with
  | ind n ih =>
      cases text with
      | nil =>
          rw [pieces]
          exact List.Sublist.refl _
      | cons c rest =>
          have hsplit := congrArg visible (mode.step_append c rest)
          rw [visible_append] at hsplit
          rw [pieces_cons, written_append, visible_append, ← hsplit]
          exact (mode.step_sublist c rest).append
            (ih _ (by rw [← hn]; exact mode.step_shorter c rest) _ _ rfl)

theorem visible_ended (out : List Char) : visible (ended out) = visible out := by
  unfold ended
  split_ifs
  · rfl
  · rw [visible_append]
    exact List.append_nil _

theorem javascript_removes (source : List Char) :
    ∃ out, javascript source = some out ∧ (visible out).Sublist (visible source) := by
  refine ⟨_, javascript_eq source, ?_⟩
  rw [visible_ended]
  exact pieces_sublist Mode.start source

end Script

section Stylesheet

/-- What a stylesheet scanner takes at the character `c`, and what follows it. -/
def sheetTaken (c : Char) (rest : List Char) : List Char × List Char :=
  if c = '/' ∧ rest.head? = some '*' then
    (c :: '*' :: (blockTail rest.tail).1, (blockTail rest.tail).2)
  else if c = '"' ∨ c = '\'' then (c :: (quoted c rest).1, (quoted c rest).2)
  else ([c], rest)

theorem sheetTaken_append (c : Char) (rest : List Char) :
    (sheetTaken c rest).1 ++ (sheetTaken c rest).2 = c :: rest := by
  unfold sheetTaken
  split_ifs with hblock hquote
  · cases rest with
    | nil => cases hblock.2
    | cons d tail =>
        rw [List.head?_cons, Option.some.injEq] at hblock
        obtain ⟨-, rfl⟩ := hblock
        exact congrArg (fun text => c :: '*' :: text) (blockTail_append tail)
  · exact congrArg (c :: ·) (quoted_append c rest)
  · rfl

theorem sheetTaken_shorter (c : Char) (rest : List Char) :
    (sheetTaken c rest).2.length < rest.length + 1 := by
  have hsplit := congrArg List.length (sheetTaken_append c rest)
  have hpos : 0 < (sheetTaken c rest).1.length := by
    unfold sheetTaken
    split_ifs <;> exact Nat.succ_pos _
  rw [List.length_append, List.length_cons] at hsplit
  omega

/-- Every character of a stylesheet outside its comments and its literals is of ASCII. -/
def Confined : List Char → Prop
  | [] => True
  | c :: rest => c.toNat < 128 ∧ Confined (sheetTaken c rest).2
termination_by text => text.length
decreasing_by exact sheetTaken_shorter c rest

theorem confined_cons (c : Char) (rest : List Char) :
    Confined (c :: rest) ↔ c.toNat < 128 ∧ Confined (sheetTaken c rest).2 := by
  rw [Confined]

variable (front : List Char) (gap : Bool) (out : List Char)

def spaced : List Char := if gap = true ∧ out ≠ [] then out ++ [' '] else out

theorem visible_spaced : visible (spaced gap out) = visible out := by
  unfold spaced
  split_ifs
  · rw [visible_append]
    exact List.append_nil _
  · rfl

theorem Sheet.turn_eq {c : Char} (hc : c.toNat < 128) (rest : List Char) :
    ∃ gap' text, (Sheet.mk gap (size front) out).turn (front ++ c :: rest) =
        some (some ⟨gap', size (front ++ (sheetTaken c rest).1), text⟩) ∧
      (visible text).Sublist (visible out ++ visible (sheetTaken c rest).1) := by
  have hlead {d : Char} (hd : d.toNat < 128) : lead c = d.toNat ↔ c = d := Utf8.lead_eq_iff hd
  have hnext : (c = '/' ∧ (bytes (front ++ c :: rest))[size front + 1]? = some '*'.toNat) ↔
      c = '/' ∧ rest.head? = some '*' := by
    refine and_congr_right (fun h => ?_)
    subst h
    exact next_iff front (by decide) rest (by decide)
  have hkept (text : List Char) : (visible (spaced gap out ++ text)).Sublist
      (visible out ++ visible text) := by
    rw [visible_append, visible_spaced]
  unfold Sheet.turn sheetTaken
  rw [show (Sheet.mk gap (size front) out).i = size front from rfl, Utf8.bytes_lead]
  simp only [hlead (d := '/') (by decide), hlead (d := '"') (by decide),
    hlead (d := '\'') (by decide), hnext]
  by_cases hspace : isAsciiWhitespace (lead c) = true
  · have hblock : ¬(c = '/' ∧ rest.head? = some '*') := by
      rintro ⟨rfl, -⟩
      exact absurd hspace (by decide)
    have hquote : ¬(c = '"' ∨ c = '\'') := by
      rintro (rfl | rfl) <;> exact absurd hspace (by decide)
    rw [if_pos hspace, if_neg hblock, if_neg hquote, size_snoc front hc]
    exact ⟨true, out, rfl, List.sublist_append_left _ _⟩
  · rw [if_neg hspace]
    by_cases hblock : c = '/' ∧ rest.head? = some '*'
    · rw [if_pos hblock, if_pos hblock]
      obtain ⟨rfl, hstar⟩ := hblock
      cases rest with
      | nil => cases hstar
      | cons d tail =>
          obtain rfl : d = '*' := Option.some.inj hstar
          have hsize : size front + 2 + size (blockTail tail).1 =
              size (front ++ '/' :: '*' :: (blockTail tail).1) := by
            rw [Utf8.size_append, Utf8.size_cons, Utf8.size_cons,
              Utf8.size_ascii (c := '/') (by decide), Utf8.size_ascii (c := '*') (by decide)]
            omega
          rw [blockEnd_eq front tail (c := '/') (d := '*') (by decide) (by decide), hsize]
          exact ⟨true, out, rfl, List.sublist_append_left _ _⟩
    · rw [if_neg hblock, if_neg hblock]
      by_cases hquote : c = '"' ∨ c = '\''
      · have hslash : c ≠ '\\' := by rcases hquote with rfl | rfl <;> decide
        have hslice := Utf8.slice_append front (c :: (quoted c rest).1) (quoted c rest).2
        rw [List.cons_append, quoted_append, Utf8.size_cons, Utf8.size_ascii hc,
          ← Nat.add_assoc] at hslice
        have hend : size front + 1 + size (quoted c rest).1 =
            size (front ++ c :: (quoted c rest).1) := by
          rw [Utf8.size_append, Utf8.size_cons, Utf8.size_ascii hc, Nat.add_assoc]
        rw [if_pos hquote, if_pos hquote, Utf8.lead_ascii hc, stringEnd_bytes front rest hc hslash,
          hslice, hend]
        exact ⟨false, _, rfl, hkept _⟩
      · have hslice := Utf8.slice_append front [c] rest
        rw [Utf8.size_cons, Utf8.size_nil, Nat.add_zero, List.singleton_append] at hslice
        rw [if_neg hquote, if_neg hquote, charLen_eq, Option.bind_some, hslice, Option.map_some,
          size_snoc front hc]
        exact ⟨false, _, rfl, hkept _⟩

theorem Sheet.turn_high {source : List Char} {i byte : Nat}
    (hbyte : (bytes source)[i]? = some byte) (hhigh : 128 ≤ byte) :
    (Sheet.mk gap i out).turn source =
      (charLen source i).bind (fun length =>
        (slice source i (i + length)).map (fun text =>
          some ⟨false, i + 1, spaced gap out ++ text⟩)) := by
  have hne {d : Char} (hd : d.toNat < 128) : byte ≠ d.toNat := by omega
  have hspace : isAsciiWhitespace byte = false := by
    simp only [isAsciiWhitespace, decide_eq_false_iff_not, List.mem_cons, List.not_mem_nil,
      or_false]
    omega
  have hslash : byte ≠ '/'.toNat := hne (by decide)
  have hquote : ¬(byte = '"'.toNat ∨ byte = '\''.toNat) := by
    rintro (h | h)
    · exact hne (by decide) h
    · exact hne (by decide) h
  unfold Sheet.turn
  simp only [hbyte, hspace, hslash, hquote, false_and, if_false, Bool.false_eq_true]
  rfl

theorem Sheet.turn_stuck {c : Char} (hc : 128 ≤ c.toNat) (rest : List Char) :
    ∃ sheet, (Sheet.mk gap (size front) out).turn (front ++ c :: rest) = some (some sheet) ∧
      sheet.turn (front ++ c :: rest) = none := by
  have hslice := Utf8.slice_append front [c] rest
  rw [Utf8.size_cons, Utf8.size_nil, Nat.add_zero, List.singleton_append] at hslice
  have hfirst := Sheet.turn_high gap out (Utf8.bytes_lead front c rest)
    (Utf8.le_of_mem_charBytes hc (Utf8.lead_mem c))
  rw [charLen_eq, Option.bind_some, hslice] at hfirst
  refine ⟨_, hfirst, ?_⟩
  obtain ⟨tail, htail⟩ := Utf8.charBytes_eq_cons c
  have hlen := Utf8.two_le_charBytes hc
  obtain ⟨b, tail', rfl⟩ : ∃ b tail', tail = b :: tail' := by
    cases tail with
    | nil =>
        rw [htail] at hlen
        exact absurd hlen (by simp)
    | cons b tail' => exact ⟨b, tail', rfl⟩
  have hbyte : (bytes (front ++ c :: rest))[size front + 1]? = some b := by
    rw [Utf8.bytes_append, Utf8.bytes_cons, htail, Utf8.size,
      List.getElem?_append_right (Nat.le_add_right _ _), Nat.add_sub_cancel_left]
    rfl
  have hhigh : 128 ≤ b := charBytes_tail htail List.mem_cons_self
  rw [Sheet.turn_high false _ hbyte hhigh, charLen,
    Utf8.after_inside Nat.one_pos (Nat.lt_of_lt_of_le Nat.one_lt_two hlen)]
  rfl

theorem sheet_loop (text : List Char) :
    (Confined text → ∃ final,
        loop (Sheet.turn (front ++ text)) ⟨gap, size front, out⟩ = some final ∧
          (visible final.out).Sublist (visible out ++ visible text)) ∧
      (¬Confined text → loop (Sheet.turn (front ++ text)) ⟨gap, size front, out⟩ = none) := by
  induction hn : text.length using Nat.strongRecOn generalizing front gap out text with
  | ind n ih =>
      cases text with
      | nil =>
          have hdone : (Sheet.mk gap (size front) out).turn (front ++ []) = some none := by
            unfold Sheet.turn
            rw [List.append_nil, Utf8.bytes_size]
          refine ⟨fun _ => ⟨_, loop_done hdone, List.sublist_append_left _ _⟩, fun hnot => ?_⟩
          exact absurd (by rw [Confined]; trivial) hnot
      | cons c rest =>
          rw [confined_cons]
          by_cases hc : c.toNat < 128
          · obtain ⟨gap', out', hturn, hout⟩ := Sheet.turn_eq front gap out hc rest
            have hsplit : front ++ c :: rest =
                (front ++ (sheetTaken c rest).1) ++ (sheetTaken c rest).2 := by
              rw [List.append_assoc, sheetTaken_append]
            have hvisible := congrArg visible (sheetTaken_append c rest)
            obtain ⟨hreturns, hstops⟩ := ih _ (by rw [← hn]; exact sheetTaken_shorter c rest)
              (front ++ (sheetTaken c rest).1) gap' out' (sheetTaken c rest).2 rfl
            rw [loop_next hturn, hsplit]
            refine ⟨fun h => ?_, fun h => hstops (fun hrest => h ⟨hc, hrest⟩)⟩
            obtain ⟨final, hfinal, hsub⟩ := hreturns h.2
            refine ⟨final, hfinal, ?_⟩
            rw [← hvisible, visible_append, ← List.append_assoc]
            exact hsub.trans (hout.append (List.Sublist.refl _))
          · obtain ⟨sheet, hturn, hstuck⟩ := Sheet.turn_stuck front gap out (Nat.not_lt.mp hc) rest
            refine ⟨fun h => absurd h.1 hc, fun _ => ?_⟩
            rw [loop_next hturn]
            exact loop_fail hstuck

end Stylesheet

section Both

theorem css_removes {source : List Char} (h : Confined source) :
    ∃ out, css source = some out ∧ (visible out).Sublist (visible source) := by
  obtain ⟨final, hloop, hsub⟩ := (sheet_loop [] false [] source).1 h
  have hrun : loop (Sheet.turn source) ⟨false, 0, []⟩ = some final := hloop
  refine ⟨_, by rw [css, hrun, Option.map_some], ?_⟩
  split_ifs
  · exact List.nil_sublist _
  · rw [visible_append, show visible ['\n'] = [] from rfl, List.append_nil]
    exact hsub

theorem css_stops {source : List Char} (h : ¬Confined source) : css source = none := by
  have hrun : loop (Sheet.turn source) ⟨false, 0, []⟩ = none := (sheet_loop [] false [] source).2 h
  rw [css, hrun, Option.map_none]

/-- Both scanners return, with nothing but removals, exactly on the sources whose characters
outside the comments and the literals of a stylesheet are of ASCII. -/
theorem minify_removes_iff (source : List Char) :
    ((∃ out, css source = some out ∧ (visible out).Sublist (visible source)) ∧
        ∃ out, javascript source = some out ∧ (visible out).Sublist (visible source)) ↔
      Confined source := by
  constructor
  · rintro ⟨⟨out, hcss, -⟩, -⟩
    by_contra hnot
    rw [css_stops hnot] at hcss
    cases hcss
  · intro h
    exact ⟨css_removes h, javascript_removes source⟩

/-- The stylesheet scanner does not return on `é!`. -/
theorem css_stops_accent :
    ¬∃ out, css "é!".toList = some out ∧
      (visible out).Sublist (visible "é!".toList) := by
  have hnot : ¬Confined "é!".toList := by
    rw [show "é!".toList = 'é' :: ['!'] from rfl, confined_cons]
    exact fun h => absurd h.1 (by decide)
  rw [css_stops hnot]
  rintro ⟨out, hout, -⟩
  cases hout

end Both

end Minify
end Zdeceptron
