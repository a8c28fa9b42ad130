import Zdeceptron.Lexer.Pieces

/-!
# Unbroken runs

Whether a text has a run longer than the lexer will scan, without the offsets.  On a
text that is a list of pieces the scan for it skips the texts and comments the lexer
finds.
-/

namespace Zdeceptron
namespace Lexer

open Library

section TooLong

/-- Whether a text goes on with a run that is too long, when it has so many characters
so far. -/
def tooLong (cs : List Char) (length : Nat) : Bool :=
  (overLongWithin cs.length cs 0 0 length).isSome

theorem overLongRun_isSome (src : List Char) : (overLongRun src).isSome = tooLong src 0 := rfl

theorem length_skipInner (opener : Char) (escaped : Bool) (cs : List Char) :
    (skipInner opener escaped cs).length ≤ cs.length := by
  induction cs generalizing escaped with
  | nil => simp [skipInner]
  | cons c cs ih =>
      have hescaped := ih true
      have hplain := ih false
      rw [skipInner, List.length_cons]
      split_ifs <;> omega

theorem length_closeBlock {cs body rest : List Char} (h : closeBlock cs = some (body, rest)) :
    rest.length ≤ cs.length := by
  obtain ⟨rfl, -⟩ := closeBlock_eq_some h
  simp only [List.length_append]
  omega

theorem overLongWithin_cons (fuel : Nat) (c : Char) (cs : List Char) (at' start length : Nat) :
    (overLongWithin (fuel + 1) (c :: cs) at' start length).isSome =
      match afterBlock (c :: cs) with
      | some after =>
          (overLongWithin fuel after (at' + byteLen (c :: cs) - byteLen after) start 0).isSome
      | none =>
          if c = '#' || c = '"' then
            (overLongWithin fuel (skipInner c false cs)
              (at' + byteLen (c :: cs) - byteLen (skipInner c false cs)) start 0).isSome
          else if separates c then
            (overLongWithin fuel cs (at' + byteLen (c :: cs) - byteLen cs) start 0).isSome
          else if length + 1 ≤ maxTokenChars then
            (overLongWithin fuel cs (at' + c.utf8Size)
              (if length = 0 then at' else start) (length + 1)).isSome
          else true := by
  rw [overLongWithin]
  cases afterBlock (c :: cs) with
  | some after => rfl
  | none =>
      simp only
      split_ifs <;> rfl

variable {c : Char}

theorem length_afterBlock {cs after : List Char}
    (h : afterBlock (c :: cs) = some after) : after.length ≤ cs.length := by
  unfold afterBlock at h
  split at h
  · rename_i body heq
    cases heq
    obtain ⟨⟨inner, rest⟩, hclose, rfl⟩ := Option.map_eq_some_iff.mp h
    have := length_closeBlock hclose
    simp only [List.length_cons]
    omega
  · cases h

theorem overLongWithin_isSome {fuel fuel' : Nat} {cs : List Char} (h : cs.length ≤ fuel)
    (h' : cs.length ≤ fuel') (at₁ start₁ at₂ start₂ length : Nat) :
    (overLongWithin fuel cs at₁ start₁ length).isSome =
      (overLongWithin fuel' cs at₂ start₂ length).isSome := by
  induction fuel generalizing fuel' cs at₁ start₁ at₂ start₂ length with
  | zero =>
      obtain rfl := List.length_eq_zero_iff.mp (Nat.le_zero.mp h)
      cases fuel' <;> rfl
  | succ fuel ih =>
      cases cs with
      | nil => cases fuel' <;> rfl
      | cons c cs =>
          rw [List.length_cons] at h h'
          obtain ⟨fuel', rfl⟩ : ∃ n, fuel' = n + 1 := ⟨fuel' - 1, by omega⟩
          rw [overLongWithin_cons, overLongWithin_cons]
          cases hafter : afterBlock (c :: cs) with
          | some after =>
              have := length_afterBlock hafter
              exact ih (by omega) (by omega) _ _ _ _ _
          | none =>
              have := length_skipInner c false cs
              simp only
              split
              · exact ih (by omega) (by omega) _ _ _ _ _
              · split
                · exact ih (by omega) (by omega) _ _ _ _ _
                · split
                  · exact ih (by omega) (by omega) _ _ _ _ _
                  · rfl

theorem tooLong_cons (c : Char) (cs : List Char) (length : Nat) :
    tooLong (c :: cs) length =
      match afterBlock (c :: cs) with
      | some after => tooLong after 0
      | none =>
          if c = '#' || c = '"' then tooLong (skipInner c false cs) 0
          else if separates c then tooLong cs 0
          else if length + 1 ≤ maxTokenChars then tooLong cs (length + 1)
          else true := by
  unfold tooLong
  rw [List.length_cons, overLongWithin_cons]
  cases hafter : afterBlock (c :: cs) with
  | some after => exact overLongWithin_isSome (length_afterBlock hafter) (Nat.le_refl _) _ _ _ _ _
  | none =>
      simp only
      split
      · exact overLongWithin_isSome (length_skipInner c false cs) (Nat.le_refl _) _ _ _ _ _
      · split
        · exact overLongWithin_isSome (Nat.le_refl _) (Nat.le_refl _) _ _ _ _ _
        · split
          · exact overLongWithin_isSome (Nat.le_refl _) (Nat.le_refl _) _ _ _ _ _
          · rfl

theorem afterBlock_of_ne (hc : c ≠ '"') (cs : List Char) :
    afterBlock (c :: cs) = none := by
  unfold afterBlock
  split
  · rename_i heq
    exact absurd (List.cons.inj heq).1 hc
  · rfl

theorem tooLong_separates (h : separates c = true) (hcomment : c ≠ '#')
    (hquote : c ≠ '"') (cs : List Char) (length : Nat) : tooLong (c :: cs) length = tooLong cs 0 := by
  rw [tooLong_cons, afterBlock_of_ne hquote]
  simp [h, hcomment, hquote]

end TooLong

section Pieces

/-- The length of the run a text without texts and comments ends in. -/
def runChars : Nat → List Char → Option Nat
  | length, [] => some length
  | length, c :: cs =>
      if separates c then runChars 0 cs
      else if length + 1 ≤ maxTokenChars then runChars (length + 1) cs
      else none

def pieceRun (length : Nat) (piece : Lexeme × List Char) : Option Nat :=
  match piece.1 with
  | .comment => some 0
  | .text _ => some 0
  | _ => runChars length piece.2

def piecesRun : Nat → List (Lexeme × List Char) → Option Nat
  | length, [] => some length
  | length, piece :: pieces => (pieceRun length piece).bind (fun n => piecesRun n pieces)

theorem piecesRun_append (length : Nat) (front back : List (Lexeme × List Char)) :
    piecesRun length (front ++ back) =
      (piecesRun length front).bind (fun n => piecesRun n back) := by
  induction front generalizing length with
  | nil => rfl
  | cons piece front ih =>
      rw [List.cons_append, piecesRun, piecesRun, Option.bind_assoc]
      simp only [ih]

theorem tooLong_plain {slice : List Char} (h : ∀ c ∈ slice, c ≠ '#' ∧ c ≠ '"')
    (rest : List Char) (length : Nat) :
    tooLong (slice ++ rest) length =
      match runChars length slice with
      | none => true
      | some n => tooLong rest n := by
  induction slice generalizing length with
  | nil => rfl
  | cons c slice ih =>
      obtain ⟨hcomment, hquote⟩ := h c List.mem_cons_self
      have hslice := ih (fun d hd => h d (List.mem_cons_of_mem _ hd))
      rw [List.cons_append, tooLong_cons, afterBlock_of_ne hquote, runChars]
      simp only [hcomment, hquote, decide_false, Bool.or_self, Bool.false_eq_true, if_false]
      split
      · exact hslice 0
      · split
        · exact hslice (length + 1)
        · rfl

variable {body rest : List Char}

variable {c : Char}

theorem map_cons_eq_some {result : Option (List Char × List Char)}
    (h : result.map (fun p => (c :: p.1, p.2)) = some (c :: body, rest)) :
    result = some (body, rest) := by
  obtain ⟨⟨inner, behind⟩, hinner, hpair⟩ := Option.map_eq_some_iff.mp h
  cases hpair
  exact hinner

theorem unescape_plain (hc : c ≠ '\\') (cs : List Char) :
    unescape (c :: cs) = (unescape cs).map (c :: ·) := by
  rw [unescape.eq_def]
  simp only [hc, if_false]

theorem newline_not_mem {body rest value : List Char}
    (hclose : closeLine false (body ++ '"' :: rest) = some (body, rest))
    (hvalue : unescape body = some value) : '\n' ∉ body := by
  induction body using unescape.induct generalizing value with
  | case1 => exact List.not_mem_nil
  | case2 => cases hvalue
  | case3 written cs hnone =>
      rw [unescape, if_pos rfl] at hvalue
      simp only [hnone] at hvalue
      cases hvalue
  | case4 written cs escape hsome ih =>
      rw [unescape, if_pos rfl] at hvalue
      simp only [hsome] at hvalue
      obtain ⟨others, hothers, -⟩ := Option.map_eq_some_iff.mp hvalue
      rw [List.cons_append, closeLine, if_pos rfl] at hclose
      have hinner := map_cons_eq_some hclose
      rw [List.cons_append, closeLine] at hinner
      have hrest := ih (map_cons_eq_some hinner) hothers
      have hwritten : written ≠ '\n' := by
        rintro rfl
        rw [show escapes.find? (fun escape => decide (escape.1 = '\n')) = none from rfl] at hsome
        cases hsome
      intro hmem
      rw [List.mem_cons, List.mem_cons] at hmem
      rcases hmem with h | h | h
      · revert h
        decide
      · exact hwritten h.symm
      · exact hrest h
  | case5 c cs hc ih =>
      rw [unescape_plain hc] at hvalue
      obtain ⟨others, hothers, -⟩ := Option.map_eq_some_iff.mp hvalue
      rw [List.cons_append, closeLine, if_neg hc] at hclose
      split_ifs at hclose with hend hquote
      · cases hclose
      · have hrest := ih (map_cons_eq_some hclose) hothers
        intro hmem
        rcases List.mem_cons.mp hmem with rfl | h
        · exact hend (by decide)
        · exact hrest h

theorem skipInner_closed {escaped : Bool}
    (h : closeLine escaped (body ++ '"' :: rest) = some (body, rest)) (hnewline : '\n' ∉ body) :
    skipInner '"' escaped (body ++ '"' :: rest) = rest := by
  induction body generalizing escaped with
  | nil =>
      cases escaped with
      | true =>
          rw [List.nil_append, closeLine] at h
          obtain ⟨_, _, hpair⟩ := Option.map_eq_some_iff.mp h
          cases hpair
      | false => rfl
  | cons c body ih =>
      rw [List.mem_cons, not_or] at hnewline
      have hc : ¬ c = '\n' := Ne.symm hnewline.1
      rw [List.cons_append] at h ⊢
      rw [skipInner, if_neg hc]
      cases escaped with
      | true =>
          rw [closeLine] at h
          exact ih (map_cons_eq_some h) hnewline.2
      | false =>
          rw [closeLine] at h
          split_ifs at h with hslash hend hquote
          · subst hslash
            exact ih (map_cons_eq_some h) hnewline.2
          · cases h
          · have hplain := ih (map_cons_eq_some h) hnewline.2
            simpa [hslash, hquote] using hplain

theorem tooLong_line {body rest value : List Char}
    (hclose : closeLine false (body ++ '"' :: rest) = some (body, rest))
    (hvalue : unescape body = some value) (hblock : ∀ behind, body ++ '"' :: rest ≠
      '"' :: '"' :: behind) (length : Nat) :
    tooLong ('"' :: (body ++ '"' :: rest)) length = tooLong rest 0 := by
  have hnone : afterBlock ('"' :: (body ++ '"' :: rest)) = none := by
    unfold afterBlock
    split
    · rename_i behind heq
      exact absurd (List.cons.inj heq).2 (hblock _)
    · rfl
  rw [tooLong_cons, hnone]
  simp only [decide_true, Bool.or_true, if_true]
  rw [skipInner_closed hclose (newline_not_mem hclose hvalue)]

theorem skipInner_comment (h : ∀ c ∈ body, c ≠ '\n') :
    skipInner '#' false (body ++ '\n' :: rest) = rest := by
  induction body with
  | nil => rfl
  | cons c body ih =>
      have hc := h c List.mem_cons_self
      rw [List.cons_append, skipInner, if_neg hc]
      simpa [hc] using ih (fun d hd => h d (List.mem_cons_of_mem _ hd))

variable {identifiers : Identifiers}

variable {pieces : List (Lexeme × List Char)}

theorem Cut.scan {cs : List Char} (h : Cut identifiers (c :: cs) pieces) :
    ∃ lexeme rest, scan identifiers c cs = (some lexeme, rest) := by
  generalize hsrc : c :: cs = src at h
  cases h with
  | nil => cases hsrc
  | cons hpiece hfollows _ => exact ⟨_, _, scan_of_piece hpiece hfollows hsrc.symm⟩

theorem tooLong_comment (hbody : ∀ c ∈ body, endsComment c = false)
    (hend : ∀ c, rest.head? = some c → endsComment c = true) (hrest : Cut identifiers rest pieces)
    (length : Nat) : tooLong ('#' :: (body ++ rest)) length = tooLong rest 0 := by
  have hplain : ∀ c ∈ body, c ≠ '\n' := by
    rintro c hc rfl
    have := hbody _ hc
    revert this
    decide
  have hreset : tooLong ('#' :: (body ++ rest)) length =
      tooLong (skipInner '#' false (body ++ rest)) 0 := by
    rw [tooLong_cons, afterBlock_of_ne (by decide)]
    rfl
  rw [hreset]
  cases rest with
  | nil =>
      have hskip : ∀ body : List Char, (∀ c ∈ body, c ≠ '\n') → skipInner '#' false body = [] := by
        intro body h
        induction body with
        | nil => rfl
        | cons c body ih =>
            have hc := h c List.mem_cons_self
            rw [skipInner, if_neg hc]
            simpa [hc] using ih (fun d hd => h d (List.mem_cons_of_mem _ hd))
      rw [List.append_nil, hskip body hplain]
  | cons c rest =>
      have hc := hend c rfl
      rw [endsComment, Bool.or_eq_true, decide_eq_true_eq, decide_eq_true_eq] at hc
      rcases hc with rfl | rfl
      · rw [skipInner_comment hplain, tooLong_separates (by decide) (by decide) (by decide)]
      · obtain ⟨lexeme, behind, hscan⟩ := hrest.scan
        have hnewline : ∃ more, rest = '\n' :: more := by
          cases rest with
          | nil => cases hscan
          | cons d more =>
              by_cases hd : d = '\n'
              · exact ⟨more, by rw [hd]⟩
              · unfold Lexer.scan at hscan
                rw [if_neg (by decide), if_pos rfl] at hscan
                split at hscan
                · rename_i heq
                  exact absurd (List.cons.inj heq).1 hd
                · cases hscan
        obtain ⟨more, rfl⟩ := hnewline
        have hskip : body ++ '\r' :: '\n' :: more = (body ++ ['\r']) ++ '\n' :: more := by simp
        rw [hskip, skipInner_comment, tooLong_separates (by decide) (by decide) (by decide),
          tooLong_separates (by decide) (by decide) (by decide)]
        intro d hd
        rcases List.mem_append.mp hd with hd | hd
        · exact hplain d hd
        · rw [List.mem_singleton.mp hd]
          decide

theorem tooLong_of_cut {src : List Char} (h : Cut identifiers src pieces) (length : Nat) :
    tooLong src length = (piecesRun length pieces).isNone := by
  induction h generalizing length with
  | nil => rfl
  | @cons lexeme slice rest pieces hpiece hfollows hrest ih =>
      have hplain : (∀ c ∈ slice, c ≠ '#' ∧ c ≠ '"') →
          pieceRun length (lexeme, slice) = runChars length slice →
          tooLong (slice ++ rest) length =
            (piecesRun length ((lexeme, slice) :: pieces)).isNone := by
        intro hchars hrun
        rw [tooLong_plain hchars, piecesRun, hrun]
        cases runChars length slice with
        | none => rfl
        | some n => exact ih n
      have hreset : tooLong (slice ++ rest) length = tooLong rest 0 →
          pieceRun length (lexeme, slice) = some 0 →
          tooLong (slice ++ rest) length =
            (piecesRun length ((lexeme, slice) :: pieces)).isNone := by
        intro hskip hrun
        rw [hskip, ih 0, piecesRun, hrun]
        rfl
      cases hpiece with
      | newline width =>
          refine hplain ?_ rfl
          intro c hc
          rcases List.mem_cons.mp hc with rfl | hc
          · decide
          · rw [List.eq_of_mem_replicate hc]
            decide
      | «return» width =>
          refine hplain ?_ rfl
          intro c hc
          rcases List.mem_cons.mp hc with rfl | hc
          · decide
          rcases List.mem_cons.mp hc with rfl | hc
          · decide
          · rw [List.eq_of_mem_replicate hc]
            decide
      | space n =>
          refine hplain ?_ rfl
          intro c hc
          rw [List.eq_of_mem_replicate hc]
          decide
      | comment hbody => exact hreset (tooLong_comment hbody hfollows hrest length) rfl
      | whole hne hds _ =>
          exact hplain (fun d hd => ne_of_isDigit (hds d hd)) rfl
      | point hne hds hfsne hfs _ =>
          refine hplain ?_ rfl
          intro c hc
          rw [List.mem_append, List.mem_cons] at hc
          rcases hc with hc | rfl | hc
          · exact ne_of_isDigit (hds c hc)
          · decide
          · exact ne_of_isDigit (hfs c hc)
      | @line body value hclose hvalue =>
          refine hreset ?_ rfl
          have hblock := not_fence hclose hfollows
          rw [List.cons_append, List.append_assoc]
          exact tooLong_line (hclose rest) hvalue hblock length
      | @block body value hclose hvalue =>
          refine hreset ?_ rfl
          have hafter : afterBlock (fence ++ (body ++ (fence ++ rest))) = some rest := by
            show (closeBlock (body ++ (fence ++ rest))).map Prod.snd = some rest
            rw [hclose]
            rfl
          rw [List.append_assoc, List.append_assoc]
          rw [show fence ++ (body ++ (fence ++ rest)) =
            '"' :: ('"' :: '"' :: (body ++ (fence ++ rest))) from rfl] at hafter ⊢
          rw [tooLong_cons, hafter]
      | @word d ds hstart hdigit hcontinue =>
          refine hplain ?_ rfl
          intro c hc
          have hseparates : separates c = false := by
            rcases List.mem_cons.mp hc with rfl | hc
            · exact separates_of_isStart hstart
            · exact identifiers.plain c (hcontinue c hc)
          exact ⟨ne_of_separates (by decide) hseparates, ne_of_separates (by decide) hseparates⟩
      | symbol hat =>
          exact hplain (fun c hc => ne_of_symbol hat hc) rfl

end Pieces

end Lexer
end Zdeceptron
