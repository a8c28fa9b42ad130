import Zdeceptron.Minify.Chars
import Mathlib.Data.List.TakeWhile

/-!
# Scanning a literal again

A token that is scanned again, with something else after it, is the same token, unless the
source ended inside it; then what is added is part of it.
-/

namespace Zdeceptron
namespace Minify

open Library
open Library.Utf8 (lead)

section Literals

def Ending (tail : List Char) : Prop := tail = [] ∨ tail = ['\n']

theorem quoted_escape (quote d : Char) (rest : List Char) :
    quoted quote ('\\' :: d :: rest) =
      ('\\' :: d :: (quoted quote rest).1, (quoted quote rest).2) := by
  rw [quoted, if_pos rfl]

theorem quoted_close {quote : Char} (hslash : quote ≠ '\\') (rest : List Char) :
    quoted quote (quote :: rest) = ([quote], rest) := by
  cases rest with
  | nil => rfl
  | cons d rest => rw [quoted, if_neg hslash, if_pos rfl]

theorem quoted_other {quote c : Char} (hslash : c ≠ '\\') (hquote : c ≠ quote) (rest : List Char) :
    quoted quote (c :: rest) = (c :: (quoted quote rest).1, (quoted quote rest).2) := by
  cases rest with
  | nil => rfl
  | cons d rest => rw [quoted, if_neg hslash, if_neg hquote]

/-- A literal taken from a text is taken again whatever follows, or the text ended inside it. -/
def Retaken (take : List Char → List Char × List Char) (rest : List Char) : Prop :=
  (∀ x, take ((take rest).1 ++ x) = ((take rest).1, x)) ∨
    (take rest = (rest, []) ∧ ∀ tail, Ending tail → take (rest ++ tail) = (rest ++ tail, []))

theorem quoted_again {quote : Char} (hslash : quote ≠ '\\') (rest : List Char) :
    Retaken (quoted quote) rest := by
  unfold Retaken
  fun_induction quoted quote rest with
  | case1 =>
      right
      refine ⟨rfl, ?_⟩
      rintro tail (rfl | rfl) <;> rfl
  | case2 c =>
      by_cases hquote : c = quote
      · subst hquote
        exact .inl (fun x => quoted_close hslash x)
      · right
        refine ⟨rfl, ?_⟩
        rintro tail (rfl | rfl)
        · rfl
        · by_cases hc : c = '\\'
          · subst hc
            exact quoted_escape quote '\n' []
          · exact quoted_other hc hquote ['\n']
  | case3 d rest ih =>
      rcases ih with hclosed | ⟨htake, hopen⟩
      · left
        intro x
        rw [List.cons_append, List.cons_append, quoted_escape, hclosed]
      · right
        rw [htake]
        refine ⟨rfl, fun tail htail => ?_⟩
        rw [List.cons_append, List.cons_append, quoted_escape, hopen tail htail]
  | case4 d rest hc => exact .inl (fun x => quoted_close hslash x)
  | case5 c d rest hc hquote ih =>
      rcases ih with hclosed | ⟨htake, hopen⟩
      · left
        intro x
        rw [List.cons_append, quoted_other hc hquote, hclosed]
      · right
        rw [htake]
        refine ⟨rfl, fun tail htail => ?_⟩
        rw [List.cons_append, quoted_other hc hquote, hopen tail htail]

theorem regexTail_escape (inClass : Bool) (d : Char) (rest : List Char) :
    regexTail inClass ('\\' :: d :: rest) =
      ('\\' :: d :: (regexTail inClass rest).1, (regexTail inClass rest).2) := by
  rw [regexTail, if_pos rfl]

theorem regexTail_close (rest : List Char) :
    regexTail false ('/' :: rest) = (['/'], rest) := by
  cases rest with
  | nil => rfl
  | cons d rest =>
      rw [regexTail, if_neg (by decide), if_neg (by decide), if_neg (by decide),
        if_pos ⟨rfl, rfl⟩]

/-- Whether a scan is inside a class after the character `c`. -/
def classAfter (inClass : Bool) (c : Char) : Bool :=
  if c = '[' then true else if c = ']' then false else inClass

theorem regexTail_other {inClass : Bool} {c : Char} (hslash : c ≠ '\\')
    (hend : ¬(c = '/' ∧ inClass = false)) (rest : List Char) :
    regexTail inClass (c :: rest) =
      (c :: (regexTail (classAfter inClass c) rest).1, (regexTail (classAfter inClass c) rest).2) := by
  cases rest with
  | nil => rfl
  | cons d rest =>
      rw [regexTail, if_neg hslash]
      unfold classAfter
      split_ifs <;> rfl

theorem regexTail_again (inClass : Bool) (rest : List Char) :
    Retaken (regexTail inClass) rest := by
  induction hn : rest.length using Nat.strongRecOn generalizing inClass rest with
  | ind n ih =>
      subst hn
      unfold Retaken
      cases rest with
      | nil =>
          right
          refine ⟨rfl, ?_⟩
          rintro tail (rfl | rfl) <;> rfl
      | cons c rest =>
          by_cases hslash : c = '\\'
          · subst hslash
            cases rest with
            | nil =>
                right
                refine ⟨rfl, ?_⟩
                rintro tail (rfl | rfl)
                · rfl
                · exact regexTail_escape inClass '\n' []
            | cons d rest =>
                rw [regexTail_escape]
                rcases ih rest.length (by simp only [List.length_cons]; omega) inClass rest rfl with
                  hclosed | ⟨htake, hopen⟩
                · left
                  intro x
                  rw [List.cons_append, List.cons_append, regexTail_escape, hclosed]
                · right
                  rw [htake]
                  refine ⟨rfl, fun tail htail => ?_⟩
                  rw [List.cons_append, List.cons_append, regexTail_escape, hopen tail htail]
          · by_cases hend : c = '/' ∧ inClass = false
            · obtain ⟨rfl, rfl⟩ := hend
              left
              intro x
              rw [regexTail_close]
              exact regexTail_close x
            · rw [regexTail_other hslash hend]
              rcases ih rest.length (by simp only [List.length_cons]; omega)
                (classAfter inClass c) rest rfl with hclosed | ⟨htake, hopen⟩
              · left
                intro x
                rw [List.cons_append, regexTail_other hslash hend, hclosed]
              · right
                rw [htake]
                refine ⟨rfl, fun tail htail => ?_⟩
                rw [List.cons_append, regexTail_other hslash hend, hopen tail htail]

theorem takeWhile_again {p : Char → Bool} {run x : List Char} (hrun : ∀ c ∈ run, p c = true)
    (hx : ∀ e, x.head? = some e → p e = false) :
    (run ++ x).takeWhile p = run ∧ (run ++ x).dropWhile p = x := by
  have hnone : x.takeWhile p = [] ∧ x.dropWhile p = x := by
    cases x with
    | nil => exact ⟨rfl, rfl⟩
    | cons e x =>
        have hfalse := hx e rfl
        exact ⟨List.takeWhile_cons_of_neg (by simp [hfalse]),
          List.dropWhile_cons_of_neg (by simp [hfalse])⟩
  rw [List.takeWhile_append_of_pos hrun, List.dropWhile_append_of_pos hrun, hnone.1, hnone.2,
    List.append_nil]
  exact ⟨rfl, rfl⟩

theorem regexText_again (rest : List Char) :
    (∀ x, (∀ e, x.head? = some e → isFlag e = false) →
        regexText ((regexText rest).1 ++ x) = ((regexText rest).1, x)) ∨
      (regexText rest = (rest, []) ∧
        ∀ tail, Ending tail → regexText (rest ++ tail) = (rest ++ tail, [])) := by
  rcases regexTail_again false rest with hclosed | ⟨htake, hopen⟩
  · left
    intro x hx
    have hrun : ∀ c ∈ (regexTail false rest).2.takeWhile isFlag, isFlag c = true := fun c hc =>
      List.mem_takeWhile_imp hc
    have hagain := takeWhile_again hrun hx
    simp only [regexText, List.append_assoc, hclosed, hagain.1, hagain.2]
  · right
    refine ⟨by simp [regexText, htake], fun tail htail => ?_⟩
    simp [regexText, hopen tail htail]

end Literals

section Tokens

/-- What a text begins with where `rest` has been: the same character, white space or a
slash. -/
def Follows (rest x : List Char) : Prop :=
  ∀ e, x.head? = some e → rest.head? = some e ∨ e = ' ' ∨ e = '\n' ∨ e = '/'

theorem Follows.not_run {p : Char → Bool} (hspace : p ' ' = false) (hbreak : p '\n' = false)
    (hslash : p '/' = false) {rest x : List Char} (h : Follows (rest.dropWhile p) x) (e : Char)
    (he : x.head? = some e) : p e = false := by
  rcases h e he with hhead | rfl | rfl | rfl
  · have hnot := List.head?_dropWhile_not p rest
    rw [hhead] at hnot
    exact hnot
  · exact hspace
  · exact hbreak
  · exact hslash

theorem Mode.token_again (mode : Mode) (c : Char) (rest : List Char) :
    (∀ x, Follows (mode.token c rest).rest x → mode.token c ((mode.token c rest).text.tail ++ x) =
          { mode.token c rest with rest := x }) ∨
      ((mode.token c rest).rest = [] ∧ (mode.token c rest).text = c :: rest ∧
        (mode.token c rest).kind ≠ .division ∧
        ∀ tail, Ending tail → mode.token c (rest ++ tail) =
          { mode.token c rest with text := c :: rest ++ tail }) := by
  unfold Mode.token
  by_cases hstring : c = '"' ∨ c = '\''
  · simp only [if_pos hstring]
    have hslash : c ≠ '\\' := by rcases hstring with rfl | rfl <;> decide
    rcases quoted_again hslash rest with hclosed | ⟨htake, hopen⟩
    · left
      intro x _
      rw [List.tail_cons, hclosed]
    · right
      rw [htake]
      refine ⟨rfl, rfl, by simp, fun tail htail => ?_⟩
      rw [hopen tail htail]
      rfl
  · simp only [if_neg hstring]
    by_cases htick : c = '`'
    · simp only [if_pos htick]
      exact .inl (fun x _ => rfl)
    · simp only [if_neg htick]
      by_cases hregex : c = '/' ∧ startsARegex mode.previous mode.before mode.word = true
      · simp only [if_pos hregex]
        rcases regexText_again rest with hclosed | ⟨htake, hopen⟩
        · left
          intro x hx
          rw [List.tail_cons, hclosed x (hx.not_run (by decide) (by decide) (by decide))]
        · right
          rw [htake]
          refine ⟨rfl, rfl, by simp, fun tail htail => ?_⟩
          rw [hopen tail htail]
          rfl
      · simp only [if_neg hregex]
        by_cases hword : isWordChar c = true ∧ isDigit (lead c) = false
        · simp only [if_pos hword]
          left
          intro x hx
          have hagain := takeWhile_again
            (fun d (hd : d ∈ rest.takeWhile isWordChar) => List.mem_takeWhile_imp hd)
            (hx.not_run (by decide) (by decide) (by decide))
          rw [List.tail_cons, hagain.1, hagain.2]
        · simp only [if_neg hword]
          exact .inl (fun x _ => rfl)

end Tokens

end Minify
end Zdeceptron
