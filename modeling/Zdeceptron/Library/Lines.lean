import Mathlib.Data.List.TakeWhile

/-!
# The lines and the letters of a text
-/

namespace Library

section Spans

variable {α : Type} {p : α → Bool} {front back : List α}

theorem takeWhile_stop (hfront : ∀ a ∈ front, p a = true)
    (hback : ∀ a, back.head? = some a → p a = false) : (front ++ back).takeWhile p = front := by
  rw [List.takeWhile_append_of_pos hfront]
  cases back with
  | nil => simp
  | cons a back => simp [hback a rfl]

theorem dropWhile_stop (hfront : ∀ a ∈ front, p a = true)
    (hback : ∀ a, back.head? = some a → p a = false) : (front ++ back).dropWhile p = back := by
  rw [List.dropWhile_append_of_pos hfront]
  cases back with
  | nil => rfl
  | cons a back => simp [hback a rfl]

theorem head_dropWhile {as : List α} {a : α} (h : (as.dropWhile p).head? = some a) :
    p a = false := by
  have := List.head?_dropWhile_not p as
  rw [h] at this
  simpa using this

end Spans

section Split

def splitLines : List Char → List (List Char)
  | [] => [[]]
  | c :: cs =>
      if c = '\n' then [] :: splitLines cs
      else
        match splitLines cs with
        | [] => [[c]]
        | line :: lines => (c :: line) :: lines

variable (cs : List Char)

theorem splitLines_ne_nil : splitLines cs ≠ [] := by
  cases cs with
  | nil => simp [splitLines]
  | cons c cs =>
      rw [splitLines]
      split
      · simp
      · split <;> simp

theorem splitLines_newline :
    splitLines ('\n' :: cs) = [] :: splitLines cs := by
  rw [splitLines, if_pos rfl]

theorem splitLines_cons {c : Char} {cs line : List Char} {lines : List (List Char)}
    (hc : c ≠ '\n') (h : splitLines cs = line :: lines) :
    splitLines (c :: cs) = (c :: line) :: lines := by
  rw [splitLines, if_neg hc, h]

theorem exists_splitLines :
    ∃ line lines, splitLines cs = line :: lines :=
  List.exists_cons_of_ne_nil (splitLines_ne_nil cs)

end Split

section Returns

def stripReturn (line : List Char) : List Char :=
  if line.getLast? = some '\r' then line.dropLast else line

theorem stripReturn_append (line : List Char) : stripReturn (line ++ ['\r']) = line := by
  simp [stripReturn]

theorem stripReturn_of_not_mem {line : List Char} (h : '\r' ∉ line) :
    stripReturn line = line := by
  rw [stripReturn, if_neg]
  intro hlast
  exact h (List.mem_of_getLast? hlast)

/-- A text with every line feed replaced by carriage return and line feed. -/
def withReturns (cs : List Char) : List Char :=
  cs.flatMap (fun c => if c = '\n' then ['\r', '\n'] else [c])

@[simp] theorem withReturns_nil : withReturns [] = [] := rfl

theorem withReturns_newline (cs : List Char) :
    withReturns ('\n' :: cs) = '\r' :: '\n' :: withReturns cs := rfl

theorem withReturns_cons {c : Char} (hc : c ≠ '\n') (cs : List Char) :
    withReturns (c :: cs) = c :: withReturns cs := by
  rw [withReturns, List.flatMap_cons, if_neg hc]
  rfl

theorem withReturns_append (cs ds : List Char) :
    withReturns (cs ++ ds) = withReturns cs ++ withReturns ds :=
  List.flatMap_append

theorem withReturns_of_not_mem {cs : List Char} (h : '\n' ∉ cs) : withReturns cs = cs := by
  induction cs with
  | nil => rfl
  | cons c cs ih =>
      rw [List.mem_cons, not_or] at h
      rw [withReturns_cons (Ne.symm h.1), ih h.2]

def returned : List (List Char) → List (List Char)
  | [] => []
  | [line] => [line]
  | line :: next :: lines => (line ++ ['\r']) :: returned (next :: lines)

theorem splitLines_withReturns (cs : List Char) :
    splitLines (withReturns cs) = returned (splitLines cs) := by
  induction cs with
  | nil => rfl
  | cons c cs ih =>
      obtain ⟨line, lines, hcs⟩ := exists_splitLines cs
      by_cases hc : c = '\n'
      · subst hc
        rw [withReturns_newline, splitLines_cons (by decide) (splitLines_newline _),
          splitLines_newline, hcs, ih, hcs]
        rfl
      · rw [withReturns_cons hc, splitLines_cons hc hcs]
        rw [hcs] at ih
        cases lines with
        | nil => exact splitLines_cons hc ih
        | cons next lines => exact splitLines_cons hc ih

theorem mem_of_mem_splitLines {cs line : List Char} {c : Char} (h : line ∈ splitLines cs)
    (hc : c ∈ line) : c ∈ cs := by
  induction cs generalizing line with
  | nil =>
      rw [splitLines, List.mem_singleton] at h
      exact absurd hc (h ▸ List.not_mem_nil)
  | cons d cs ih =>
      obtain ⟨first, lines, hcs⟩ := exists_splitLines cs
      by_cases hd : d = '\n'
      · rw [hd, splitLines_newline, List.mem_cons] at h
        rcases h with rfl | h
        · exact absurd hc List.not_mem_nil
        · exact List.mem_cons_of_mem _ (ih h hc)
      · rw [splitLines_cons hd hcs, List.mem_cons] at h
        rcases h with rfl | h
        · rcases List.mem_cons.mp hc with rfl | hc
          · exact List.mem_cons_self
          · exact List.mem_cons_of_mem _ (ih (hcs ▸ List.mem_cons_self) hc)
        · exact List.mem_cons_of_mem _ (ih (hcs ▸ List.mem_cons_of_mem _ h) hc)

theorem map_stripReturn_returned {lines : List (List Char)}
    (h : ∀ line ∈ lines, '\r' ∉ line) : (returned lines).map stripReturn = lines := by
  induction lines with
  | nil => rfl
  | cons line lines ih =>
      cases lines with
      | nil =>
          rw [returned, List.map_singleton, stripReturn_of_not_mem (h line List.mem_cons_self)]
      | cons next lines =>
          rw [returned, List.map_cons, stripReturn_append,
            ih (fun other hother => h other (List.mem_cons_of_mem _ hother))]

theorem stripped_withReturns {cs : List Char} (h : '\r' ∉ cs) :
    (splitLines (withReturns cs)).map stripReturn = (splitLines cs).map stripReturn := by
  have hlines : ∀ line ∈ splitLines cs, '\r' ∉ line := fun line hline hmem =>
    h (mem_of_mem_splitLines hline hmem)
  rw [splitLines_withReturns, map_stripReturn_returned hlines]
  rw [List.map_congr_left (fun line hline => stripReturn_of_not_mem (hlines line hline)),
    List.map_id']

end Returns

section Ascii

variable {c : Char}

theorem isAlpha_iff : c.isAlpha = true ↔
    (65 ≤ c.toNat ∧ c.toNat ≤ 90) ∨ (97 ≤ c.toNat ∧ c.toNat ≤ 122) := by
  have hranges : c.isAlpha = (decide (c.val ≥ 'A'.val ∧ c.val ≤ 'Z'.val) ||
      (c.val ≥ 'a'.val && c.val ≤ 'z'.val)) := rfl
  simp only [hranges, Bool.or_eq_true, Bool.and_eq_true, decide_eq_true_eq, ge_iff_le,
    UInt32.le_iff_toNat_le]
  exact Iff.rfl

theorem isAlphanum_iff : c.isAlphanum = true ↔
    ((65 ≤ c.toNat ∧ c.toNat ≤ 90) ∨ (97 ≤ c.toNat ∧ c.toNat ≤ 122)) ∨
      (48 ≤ c.toNat ∧ c.toNat ≤ 57) := by
  have hdigit : c.isDigit = (decide (c.val ≥ '0'.val) && decide (c.val ≤ '9'.val)) := rfl
  have hparts : c.isAlphanum = (c.isAlpha || c.isDigit) := rfl
  rw [hparts, Bool.or_eq_true, isAlpha_iff, hdigit]
  simp only [Bool.and_eq_true, decide_eq_true_eq, ge_iff_le, UInt32.le_iff_toNat_le]
  exact Iff.rfl

end Ascii

end Library
