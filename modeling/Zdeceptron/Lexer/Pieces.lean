import Zdeceptron.Lexer.Raw

/-!
# What a lexeme is made of

`Piece` says which slices a lexeme matches and `Follows` what may stand behind the
slice.  The scan takes a slice exactly when both hold.
-/

namespace Zdeceptron
namespace Lexer

open Library

section Texts

variable {cs body rest : List Char}

theorem closeLine_eq_some {escaped : Bool} (h : closeLine escaped cs = some (body, rest)) :
    cs = body ++ '"' :: rest ∧
      ∀ after, closeLine escaped (body ++ '"' :: after) = some (body, after) := by
  induction cs generalizing escaped body with
  | nil => cases escaped <;> cases h
  | cons c cs ih =>
      -- a character the literal keeps, whatever the reader is in behind it
      have kept {escaped' : Bool} (hstep : ∀ cs, closeLine escaped (c :: cs) =
            (closeLine escaped' cs).map (fun p => (c :: p.1, p.2)))
          (h : (closeLine escaped' cs).map (fun p => (c :: p.1, p.2)) = some (body, rest)) :
          c :: cs = body ++ '"' :: rest ∧
            ∀ after, closeLine escaped (body ++ '"' :: after) = some (body, after) := by
        obtain ⟨⟨inner, behind⟩, hinner, hpair⟩ := Option.map_eq_some_iff.mp h
        cases hpair
        obtain ⟨rfl, hafter⟩ := ih hinner
        refine ⟨rfl, ?_⟩
        intro after
        rw [List.cons_append, hstep, hafter]
        rfl
      cases escaped with
      | true => exact kept (fun _ => rfl) h
      | false =>
          rw [closeLine] at h
          split_ifs at h with hslash hend hquote
          · refine kept (fun after => ?_) h
            rw [closeLine, if_pos hslash]
          · cases h
            subst hquote
            refine ⟨rfl, ?_⟩
            intro after
            rw [List.nil_append, closeLine, if_neg hslash, if_neg hend, if_pos rfl]
          · refine kept (fun after => ?_) h
            rw [closeLine, if_neg hslash, if_neg hend, if_neg hquote]

def fence : List Char := ['"', '"', '"']

theorem closeBlock_fence (rest : List Char) : closeBlock (fence ++ rest) = some ([], rest) :=
  rfl

theorem closeBlock_cons {c : Char} {cs : List Char} (h : ¬ fence <+: c :: cs) :
    closeBlock (c :: cs) = (closeBlock cs).map (fun p => (c :: p.1, p.2)) := by
  rw [closeBlock]
  rintro rest rfl rfl
  exact h ⟨rest, rfl⟩

theorem closeBlock_eq_some (h : closeBlock cs = some (body, rest)) :
    cs = body ++ (fence ++ rest) ∧
      ∀ after, closeBlock (body ++ (fence ++ after)) = some (body, after) := by
  induction cs generalizing body with
  | nil => cases h
  | cons c cs ih =>
      by_cases hfence : fence <+: c :: cs
      · obtain ⟨behind, hbehind⟩ := hfence
        rw [← hbehind, closeBlock_fence] at h
        cases h
        exact ⟨hbehind.symm, closeBlock_fence⟩
      · rw [closeBlock_cons hfence, Option.map_eq_some_iff] at h
        obtain ⟨⟨inner, behind⟩, hinner, hpair⟩ := h
        cases hpair
        obtain ⟨rfl, hafter⟩ := ih hinner
        refine ⟨rfl, ?_⟩
        intro after
        have hnot : ¬ fence <+: c :: (inner ++ (fence ++ after)) := by
          -- the first three characters are within the body and its fence
          rintro hprefix
          refine hfence ?_
          have hlong : fence.length ≤ (c :: (inner ++ fence)).length := by
            simp [fence]
          have hwithin : fence <+: c :: (inner ++ fence) := by
            refine List.prefix_of_prefix_length_le hprefix ?_ hlong
            exact ⟨after, by simp⟩
          refine hwithin.trans ⟨behind, by simp⟩
        rw [List.cons_append, closeBlock_cons hnot, hafter]
        rfl

end Texts

section Pieces

variable (identifiers : Identifiers)

inductive Piece : Lexeme → List Char → Prop
  | newline (width : Nat) : Piece (.lineStart width) ('\n' :: List.replicate width ' ')
  | return (width : Nat) : Piece (.lineStart width) ('\r' :: '\n' :: List.replicate width ' ')
  | space (n : Nat) : Piece .space (List.replicate (n + 1) ' ')
  | comment {body : List Char} : (∀ c ∈ body, endsComment c = false) →
      Piece .comment ('#' :: body)
  | whole {ds : List Char} {value : Float} : ds ≠ [] → (∀ d ∈ ds, d.isDigit = true) →
      number ds = some value → Piece (.number value) ds
  | point {ds fs : List Char} {value : Float} : ds ≠ [] → (∀ d ∈ ds, d.isDigit = true) →
      fs ≠ [] → (∀ f ∈ fs, f.isDigit = true) → number (ds ++ '.' :: fs) = some value →
      Piece (.number value) (ds ++ '.' :: fs)
  | line {body value : List Char} :
      (∀ after, closeLine false (body ++ '"' :: after) = some (body, after)) →
      unescape body = some value → Piece (.text value) ('"' :: (body ++ ['"']))
  | block {body value : List Char} :
      (∀ after, closeBlock (body ++ (fence ++ after)) = some (body, after)) →
      dedentBlock body = some value → Piece (.text value) (fence ++ (body ++ fence))
  | word {c : Char} {cs : List Char} : (identifiers.isStart c || decide (c = '_')) = true →
      c.isDigit = false → (∀ d ∈ cs, identifiers.isContinue d = true) →
      Piece (.word (c :: cs)) (c :: cs)
  | symbol {symbol : Symbol} {slice : List Char} : symbolAt slice = some (symbol, []) →
      Piece (.symbol symbol) slice

/-- Whether a text starts with a point and a digit. -/
def startsFraction : List Char → Bool
  | '.' :: d :: _ => d.isDigit
  | _ => false

/-- What may stand behind the slice of a lexeme. -/
def Follows : Lexeme → List Char → List Char → Prop
  | .lineStart _, _, rest => ∀ c, rest.head? = some c → isSpace c = false
  | .space, _, rest => ∀ c, rest.head? = some c → isSpace c = false
  | .comment, _, rest => ∀ c, rest.head? = some c → endsComment c = true
  | .number _, slice, rest => (∀ c, rest.head? = some c → c.isDigit = false) ∧
      ('.' ∈ slice ∨ startsFraction rest = false)
  | .text _, slice, rest => slice = ['"', '"'] → rest.head? ≠ some '"'
  | .word _, _, rest => ∀ c, rest.head? = some c → identifiers.isContinue c = false
  | .symbol _, slice, rest => slice = ['<'] ∨ slice = ['>'] → rest.head? ≠ some '='

end Pieces

section Symbols

def startsSymbol (c : Char) : Bool := "+-*/<>,.()[]".toList.contains c

theorem symbolAt_eq_some {text rest : List Char} {symbol : Symbol}
    (h : symbolAt text = some (symbol, rest)) :
    text.head?.any startsSymbol = true ∧ ∃ slice, text = slice ++ rest ∧
      symbolAt slice = some (symbol, []) ∧
      (slice = ['<'] ∨ slice = ['>'] → rest.head? ≠ some '=') := by
  unfold symbolAt at h
  split at h
  case h_5 => cases h; exact ⟨rfl, ['<', '='], rfl, rfl, by simp⟩
  case h_6 => cases h; exact ⟨rfl, ['>', '='], rfl, rfl, by simp⟩
  case h_7 hnot =>
    cases h
    refine ⟨rfl, ['<'], rfl, rfl, ?_⟩
    intro _ hhead
    cases rest with
    | nil => cases hhead
    | cons d rest =>
        cases hhead
        exact hnot _ rfl
  case h_8 hnot =>
    cases h
    refine ⟨rfl, ['>'], rfl, rfl, ?_⟩
    intro _ hhead
    cases rest with
    | nil => cases hhead
    | cons d rest =>
        cases hhead
        exact hnot _ rfl
  case h_15 => cases h
  all_goals
    cases h
    refine ⟨rfl, [_], rfl, rfl, ?_⟩
    simp

theorem symbolAt_append {slice rest : List Char} {symbol : Symbol}
    (h : symbolAt slice = some (symbol, []))
    (hfollows : slice = ['<'] ∨ slice = ['>'] → rest.head? ≠ some '=') :
    symbolAt (slice ++ rest) = some (symbol, rest) := by
  unfold symbolAt at h
  split at h
  case h_7 =>
    cases h
    cases rest with
    | nil => rfl
    | cons d rest =>
        have hd : d ≠ '=' := fun hd => hfollows (.inl rfl) (by rw [hd]; rfl)
        simp [symbolAt, hd]
  case h_8 =>
    cases h
    cases rest with
    | nil => rfl
    | cons d rest =>
        have hd : d ≠ '=' := fun hd => hfollows (.inr rfl) (by rw [hd]; rfl)
        simp [symbolAt, hd]
  case h_15 => cases h
  all_goals
    cases h
    rfl

theorem symbolAt_isSome (c : Char) (cs : List Char) :
    (symbolAt (c :: cs)).isSome = startsSymbol c := by
  cases hsymbol : startsSymbol c with
  | false =>
      cases h : symbolAt (c :: cs) with
      | none => rfl
      | some p =>
          have := (symbolAt_eq_some h).1
          rw [List.head?_cons, Option.any_some, hsymbol] at this
          cases this
  | true =>
      have hmem : c ∈ "+-*/<>,.()[]".toList := by simpa [startsSymbol] using hsymbol
      have hcases : c = '+' ∨ c = '-' ∨ c = '*' ∨ c = '/' ∨ c = '<' ∨ c = '>' ∨ c = ',' ∨
          c = '.' ∨ c = '(' ∨ c = ')' ∨ c = '[' ∨ c = ']' := by simpa using hmem
      rcases hcases with rfl | rfl | rfl | rfl | rfl | rfl | rfl | rfl | rfl | rfl | rfl | rfl
      case inr.inr.inr.inr.inl =>
        unfold symbolAt
        split <;> simp_all
      case inr.inr.inr.inr.inr.inl =>
        unfold symbolAt
        split <;> simp_all
      all_goals rfl

end Symbols

section Digits

theorem digits_cases (cs : List Char) :
    (digits cs = (cs.takeWhile Char.isDigit, cs.dropWhile Char.isDigit) ∧
        startsFraction (cs.dropWhile Char.isDigit) = false) ∨
      ∃ fs rest, cs.dropWhile Char.isDigit = '.' :: (fs ++ rest) ∧ fs ≠ [] ∧
        (∀ f ∈ fs, f.isDigit = true) ∧ (∀ d, rest.head? = some d → d.isDigit = false) ∧
        digits cs = (cs.takeWhile Char.isDigit ++ '.' :: fs, rest) := by
  unfold digits
  split
  · rename_i d rest hdrop
    by_cases hd : d.isDigit = true
    · refine .inr ⟨(d :: rest).takeWhile Char.isDigit, (d :: rest).dropWhile Char.isDigit,
        ?_, ?_, ?_, ?_, ?_⟩
      · rw [List.takeWhile_append_dropWhile, hdrop]
      · simp [hd]
      · exact fun f hf => List.mem_takeWhile_imp hf
      · exact fun e he => head_dropWhile he
      · rw [if_pos hd]
    · rw [if_neg hd, hdrop]
      exact .inl ⟨rfl, by simpa [startsFraction] using hd⟩
  · rename_i hnot
    refine .inl ⟨rfl, ?_⟩
    unfold startsFraction
    split
    · rename_i d rest hdrop
      exact absurd hdrop (hnot d rest)
    · rfl

variable {ds fs rest : List Char}

theorem digits_whole (hds : ∀ d ∈ ds, d.isDigit = true)
    (hrest : ∀ c, rest.head? = some c → c.isDigit = false)
    (hfraction : startsFraction rest = false) : digits (ds ++ rest) = (ds, rest) := by
  have htake := takeWhile_stop hds hrest
  have hdrop := dropWhile_stop hds hrest
  rcases digits_cases (ds ++ rest) with ⟨h, -⟩ | ⟨fs, behind, hbehind, hne, hfs, -, -⟩
  · rw [h, htake, hdrop]
  · rw [hdrop] at hbehind
    obtain ⟨f, others, rfl⟩ := List.exists_cons_of_ne_nil hne
    rw [hbehind] at hfraction
    rw [List.cons_append, startsFraction, hfs f List.mem_cons_self] at hfraction
    cases hfraction

theorem digits_point (hds : ∀ d ∈ ds, d.isDigit = true) (hne : fs ≠ [])
    (hfs : ∀ f ∈ fs, f.isDigit = true) (hrest : ∀ c, rest.head? = some c → c.isDigit = false) :
    digits (ds ++ '.' :: (fs ++ rest)) = (ds ++ '.' :: fs, rest) := by
  have hpoint : ∀ c, ('.' :: (fs ++ rest)).head? = some c → c.isDigit = false := by
    rintro c ⟨⟩
    rfl
  have htake := takeWhile_stop hds hpoint
  have hdrop := dropWhile_stop hds hpoint
  obtain ⟨f, others, rfl⟩ := List.exists_cons_of_ne_nil hne
  rcases digits_cases (ds ++ '.' :: (f :: others ++ rest)) with
    ⟨-, hfraction⟩ | ⟨gs, behind, hbehind, -, hgs, hstop, h⟩
  · rw [hdrop, List.cons_append, startsFraction, hfs f List.mem_cons_self] at hfraction
    cases hfraction
  · rw [h, htake]
    rw [hdrop] at hbehind
    have hsame : f :: others ++ rest = gs ++ behind := (List.cons.inj hbehind).2
    have hfirst := takeWhile_stop hfs hrest
    have hsecond := dropWhile_stop hfs hrest
    rw [hsame, takeWhile_stop hgs hstop] at hfirst
    rw [hsame, dropWhile_stop hgs hstop] at hsecond
    rw [hfirst, hsecond]

theorem point_not_mem (hds : ∀ d ∈ ds, d.isDigit = true) : '.' ∉ ds := by
  intro hmem
  have := hds _ hmem
  revert this
  decide

end Digits

section Scan

variable {identifiers : Identifiers} {c : Char} {cs rest slice : List Char} {lexeme : Lexeme}

theorem isStart_of_separates (h : separates c = true) :
    (identifiers.isStart c || decide (c = '_')) = false := by
  have hcontinue : identifiers.isContinue c = false := by
    by_contra hne
    rw [Bool.not_eq_false] at hne
    rw [identifiers.plain c hne] at h
    cases h
  have hstart : identifiers.isStart c = false := by
    by_contra hne
    rw [Bool.not_eq_false] at hne
    rw [identifiers.goesOn c hne] at hcontinue
    cases hcontinue
  rw [hstart, Bool.false_or, decide_eq_false_iff_not]
  rintro rfl
  revert h
  decide

theorem separates_of_isStart (h : (identifiers.isStart c || decide (c = '_')) = true) :
    separates c = false := by
  by_contra hne
  rw [Bool.not_eq_false] at hne
  rw [isStart_of_separates hne] at h
  cases h

theorem startsSymbol_spec (h : startsSymbol c = true) :
    separates c = true ∧ c ≠ '\n' ∧ c ≠ '\r' ∧ c ≠ ' ' ∧ c ≠ '#' ∧ c.isDigit = false ∧ c ≠ '"' := by
  have hmem : c ∈ "+-*/<>,.()[]".toList := by
    simpa [startsSymbol] using h
  have hall : "+-*/<>,.()[]".toList.all (fun d => decide (separates d = true ∧ d ≠ '\n' ∧
      d ≠ '\r' ∧ d ≠ ' ' ∧ d ≠ '#' ∧ d.isDigit = false ∧ d ≠ '"')) = true := rfl
  exact of_decide_eq_true (List.all_eq_true.mp hall c hmem)

theorem ne_of_separates {d : Char} (hd : separates d = true) (h : separates c = false) :
    c ≠ d := by
  rintro rfl
  rw [hd] at h
  cases h

theorem replicate_takeWhile (cs : List Char) :
    List.replicate (cs.takeWhile isSpace).length ' ' = cs.takeWhile isSpace := by
  symm
  refine List.eq_replicate_of_mem ?_
  intro d hd
  simpa [isSpace] using List.mem_takeWhile_imp hd

theorem scan_digit (hc : c.isDigit = true) :
    scan identifiers c cs = ((number (digits (c :: cs)).1).map .number, (digits (c :: cs)).2) := by
  have hne : ∀ {d : Char}, d.isDigit = false → c ≠ d := by
    rintro d hd rfl
    rw [hd] at hc
    cases hc
  unfold scan
  rw [if_neg (hne rfl), if_neg (hne rfl), if_neg (hne rfl), if_neg (hne rfl), if_pos hc]

theorem piece_of_number (hc : c.isDigit = true)
    (h : (number (digits (c :: cs)).1).map Lexeme.number = some lexeme) :
    ∃ slice, c :: cs = slice ++ (digits (c :: cs)).2 ∧ Piece identifiers lexeme slice ∧
      Follows identifiers lexeme slice (digits (c :: cs)).2 := by
  obtain ⟨value, hvalue, rfl⟩ := Option.map_eq_some_iff.mp h
  have hds : ∀ d ∈ (c :: cs).takeWhile Char.isDigit, d.isDigit = true :=
    fun d hd => List.mem_takeWhile_imp hd
  have hne : (c :: cs).takeWhile Char.isDigit ≠ [] := by simp [hc]
  have hsplit : (c :: cs).takeWhile Char.isDigit ++ (c :: cs).dropWhile Char.isDigit = c :: cs :=
    List.takeWhile_append_dropWhile
  rcases digits_cases (c :: cs) with
    ⟨hdigits, hfraction⟩ | ⟨fs, rest, hdrop, hfsne, hfs, hrest, hdigits⟩
  · rw [hdigits] at hvalue ⊢
    exact ⟨_, hsplit.symm, .whole hne hds hvalue, fun d => head_dropWhile, .inr hfraction⟩
  · rw [hdigits] at hvalue ⊢
    refine ⟨(c :: cs).takeWhile Char.isDigit ++ '.' :: fs, ?_,
      .point hne hds hfsne hfs hvalue, hrest, .inl (by simp)⟩
    rw [List.append_assoc, List.cons_append, ← hdrop, hsplit]

theorem scan_fence : scan identifiers '"' ('"' :: '"' :: cs) =
    match closeBlock cs with
    | none => (none, cs)
    | some (body, after) => ((dedentBlock body).map .text, after) := rfl

theorem scan_quote (h : ∀ behind, cs ≠ '"' :: '"' :: behind) :
    scan identifiers '"' cs =
      match closeLine false cs with
      | none => (none, cs)
      | some (body, after) => ((unescape body).map .text, after) := by
  unfold scan
  rw [if_neg (by decide), if_neg (by decide), if_neg (by decide), if_neg (by decide),
    if_neg (by decide), if_pos rfl]
  split
  · exact absurd rfl (h _)
  · rfl

theorem piece_of_quote (h : scan identifiers '"' cs = (some lexeme, rest)) :
    ∃ slice, '"' :: cs = slice ++ rest ∧ Piece identifiers lexeme slice ∧
      Follows identifiers lexeme slice rest := by
  unfold scan at h
  rw [if_neg (by decide), if_neg (by decide), if_neg (by decide), if_neg (by decide),
    if_neg (by decide), if_pos rfl] at h
  split at h
  · rename_i behind
    split at h
    · cases h
    · rename_i body after hbody
      obtain ⟨hlexeme, rfl⟩ := Prod.mk.inj h
      obtain ⟨value, hvalue, rfl⟩ := Option.map_eq_some_iff.mp hlexeme
      obtain ⟨rfl, hclose⟩ := closeBlock_eq_some hbody
      refine ⟨fence ++ (body ++ fence), by simp [fence], .block hclose hvalue, ?_⟩
      intro hslice
      have := congrArg List.length hslice
      simp [fence] at this
  · rename_i hblock
    split at h
    · cases h
    · rename_i body after hbody
      obtain ⟨hlexeme, rfl⟩ := Prod.mk.inj h
      obtain ⟨value, hvalue, rfl⟩ := Option.map_eq_some_iff.mp hlexeme
      obtain ⟨rfl, hclose⟩ := closeLine_eq_some hbody
      refine ⟨'"' :: (body ++ ['"']), by simp, .line hclose hvalue, ?_⟩
      intro hslice hhead
      cases body with
      | nil =>
          obtain ⟨others, rfl⟩ := List.head?_eq_some_iff.mp hhead
          exact hblock _ rfl
      | cons d body =>
          have := congrArg List.length hslice
          simp at this

theorem piece_of_scan (h : scan identifiers c cs = (some lexeme, rest)) :
    ∃ slice, c :: cs = slice ++ rest ∧ Piece identifiers lexeme slice ∧
      Follows identifiers lexeme slice rest := by
  by_cases hq : c = '"'
  · subst hq
    exact piece_of_quote h
  unfold scan at h
  split_ifs at h with hnewline hreturn hspace hcomment hdigit hstart
  · cases h
    subst hnewline
    refine ⟨'\n' :: List.replicate (cs.takeWhile isSpace).length ' ', ?_, .newline _,
      fun _ => head_dropWhile⟩
    rw [replicate_takeWhile, List.cons_append, List.takeWhile_append_dropWhile]
  · split at h
    · rename_i behind
      cases h
      subst hreturn
      refine ⟨'\r' :: '\n' :: List.replicate (behind.takeWhile isSpace).length ' ', ?_,
        .return _, fun _ => head_dropWhile⟩
      rw [replicate_takeWhile, List.cons_append, List.cons_append,
        List.takeWhile_append_dropWhile]
    · cases h
  · cases h
    subst hspace
    refine ⟨List.replicate ((cs.takeWhile isSpace).length + 1) ' ', ?_, .space _,
      fun _ => head_dropWhile⟩
    rw [List.replicate_succ, replicate_takeWhile, List.cons_append,
      List.takeWhile_append_dropWhile]
  · cases h
    subst hcomment
    refine ⟨'#' :: cs.takeWhile (fun c => !endsComment c), ?_, .comment ?_, ?_⟩
    · rw [List.cons_append, List.takeWhile_append_dropWhile]
    · intro d hd
      simpa using List.mem_takeWhile_imp hd
    · intro d hd
      simpa using head_dropWhile hd
  · obtain ⟨hlexeme, rfl⟩ := Prod.mk.inj h
    exact piece_of_number hdigit hlexeme
  · cases h
    refine ⟨c :: cs.takeWhile identifiers.isContinue, ?_, .word hstart (by simpa using hdigit) ?_,
      fun _ => head_dropWhile⟩
    · rw [List.cons_append, List.takeWhile_append_dropWhile]
    · exact fun d hd => List.mem_takeWhile_imp hd
  · split at h
    · cases h
    · rename_i symbol behind hsymbol
      cases h
      obtain ⟨-, slice, hslice, hat, hfollows⟩ := symbolAt_eq_some hsymbol
      exact ⟨slice, hslice, .symbol hat, hfollows⟩

theorem not_fence {body : List Char}
    (hclose : ∀ after, closeLine false (body ++ '"' :: after) = some (body, after))
    (hfollows : '"' :: (body ++ ['"']) = ['"', '"'] → rest.head? ≠ some '"') :
    ∀ behind, body ++ '"' :: rest ≠ '"' :: '"' :: behind := by
  intro behind heq
  cases body with
  | nil =>
      obtain ⟨-, hrest⟩ := List.cons.inj heq
      exact hfollows rfl (by rw [hrest]; rfl)
  | cons d body =>
      obtain ⟨rfl, -⟩ := List.cons.inj heq
      have := hclose []
      rw [List.cons_append, closeLine, if_neg (by decide), if_neg (by decide), if_pos rfl]
        at this
      cases this

theorem scan_line {body value : List Char}
    (hclose : ∀ after, closeLine false (body ++ '"' :: after) = some (body, after))
    (hvalue : unescape body = some value)
    (hfollows : '"' :: (body ++ ['"']) = ['"', '"'] → rest.head? ≠ some '"') :
    scan identifiers '"' (body ++ '"' :: rest) = (some (.text value), rest) := by
  rw [scan_quote (not_fence hclose hfollows), hclose]
  simp only [hvalue]
  rfl

theorem ne_of_isDigit (h : c.isDigit = true) : c ≠ '#' ∧ c ≠ '"' := by
  constructor
  · rintro rfl
    revert h
    decide
  · rintro rfl
    revert h
    decide

theorem newline_ne_symbol {symbol : Symbol} (h : symbolAt slice = some (symbol, [])) :
    '\n' ∉ slice := by
  unfold symbolAt at h
  split at h
  case h_15 => cases h
  all_goals
    cases h
    decide

theorem ne_of_symbol {symbol : Symbol} (h : symbolAt slice = some (symbol, []))
    (hc : c ∈ slice) : c ≠ '#' ∧ c ≠ '"' := by
  have hall : slice.all (fun d => decide (d ≠ '#' ∧ d ≠ '"')) = true := by
    unfold symbolAt at h
    split at h
    case h_15 => cases h
    all_goals
      cases h
      rfl
  exact of_decide_eq_true (List.all_eq_true.mp hall c hc)

theorem scan_of_piece (hpiece : Piece identifiers lexeme slice)
    (hfollows : Follows identifiers lexeme slice rest) (htext : slice ++ rest = c :: cs) :
    scan identifiers c cs = (some lexeme, rest) := by
  have hspaces : ∀ n, ∀ d ∈ List.replicate n ' ', isSpace d = true := by
    intro n d hd
    rw [List.eq_of_mem_replicate hd]
    rfl
  cases hpiece with
  | newline width =>
      rw [List.cons_append] at htext
      obtain ⟨rfl, rfl⟩ := List.cons.inj htext
      unfold scan
      rw [if_pos rfl, takeWhile_stop (hspaces _) hfollows, dropWhile_stop (hspaces _) hfollows,
        List.length_replicate]
  | «return» width =>
      rw [List.cons_append] at htext
      obtain ⟨rfl, rfl⟩ := List.cons.inj htext
      unfold scan
      rw [if_neg (by decide), if_pos rfl]
      show (some (Lexeme.lineStart ((List.replicate width ' ' ++ rest).takeWhile isSpace).length),
        (List.replicate width ' ' ++ rest).dropWhile isSpace) = _
      rw [takeWhile_stop (hspaces _) hfollows, dropWhile_stop (hspaces _) hfollows,
        List.length_replicate]
  | space n =>
      rw [List.replicate_succ, List.cons_append] at htext
      obtain ⟨rfl, rfl⟩ := List.cons.inj htext
      unfold scan
      rw [if_neg (by decide), if_neg (by decide), if_pos rfl,
        dropWhile_stop (hspaces _) hfollows]
  | @comment body hbody =>
      have hinner : ∀ d ∈ body, (!endsComment d) = true := by simpa using hbody
      have hstop : ∀ d, rest.head? = some d → (!endsComment d) = false := by
        intro d hd
        rw [hfollows d hd]
        rfl
      rw [List.cons_append] at htext
      obtain ⟨rfl, rfl⟩ := List.cons.inj htext
      unfold scan
      rw [if_neg (by decide), if_neg (by decide), if_neg (by decide), if_pos rfl,
        dropWhile_stop hinner hstop]
  | whole hne hds hvalue =>
      have hc : c.isDigit = true := by
        obtain ⟨d, ds, rfl⟩ := List.exists_cons_of_ne_nil hne
        obtain ⟨rfl, -⟩ := List.cons.inj htext
        exact hds _ List.mem_cons_self
      have hfraction := hfollows.2.resolve_left (point_not_mem hds)
      rw [scan_digit hc, ← htext, digits_whole hds hfollows.1 hfraction, hvalue]
      rfl
  | @point ds fs value hne hds hfsne hfs hvalue =>
      have hc : c.isDigit = true := by
        obtain ⟨d, ds, rfl⟩ := List.exists_cons_of_ne_nil hne
        obtain ⟨rfl, -⟩ := List.cons.inj htext
        exact hds _ List.mem_cons_self
      rw [scan_digit hc, ← htext, List.append_assoc, List.cons_append,
        digits_point hds hfsne hfs hfollows.1, hvalue]
      rfl
  | @line body value hclose hvalue =>
      rw [List.cons_append, List.append_assoc] at htext
      obtain ⟨rfl, rfl⟩ := List.cons.inj htext
      exact scan_line hclose hvalue hfollows
  | @block body value hclose hvalue =>
      rw [List.append_assoc, List.append_assoc] at htext
      obtain ⟨rfl, rfl⟩ := List.cons.inj htext
      show scan identifiers '"' ('"' :: '"' :: (body ++ (fence ++ rest))) = _
      rw [scan_fence, hclose]
      simp only [hvalue]
      rfl
  | @word d ds hstart hdigit hcontinue =>
      rw [List.cons_append] at htext
      obtain ⟨rfl, rfl⟩ := List.cons.inj htext
      have hplain := separates_of_isStart hstart
      have hne : ∀ {e : Char}, separates e = true → d ≠ e := fun hd => ne_of_separates hd hplain
      unfold scan
      rw [if_neg (hne (by decide)), if_neg (hne (by decide)), if_neg (hne (by decide)),
        if_neg (hne (by decide)), if_neg (by simp [hdigit]), if_neg (hne (by decide)),
        if_pos hstart, takeWhile_stop hcontinue hfollows, dropWhile_stop hcontinue hfollows]
  | @symbol symbol text hat =>
      have hscan := symbolAt_append hat hfollows
      rw [htext] at hscan
      obtain ⟨hhead, -⟩ := symbolAt_eq_some hscan
      obtain ⟨hseparates, hnewline, hreturn, hspace, hcomment, hdigit, hquote⟩ :=
        startsSymbol_spec (by simpa using hhead)
      have hnot : (identifiers.isStart c || decide (c = '_')) = false :=
        isStart_of_separates hseparates
      unfold scan
      rw [if_neg hnewline, if_neg hreturn, if_neg hspace, if_neg hcomment,
        if_neg (by simp [hdigit]), if_neg hquote, if_neg (by simp [hnot]), hscan]

end Scan

section Cuts

variable {identifiers : Identifiers} {lexeme : Lexeme} {slice rest : List Char}
  {src : List Char} {pieces : List (Lexeme × List Char)}

theorem Piece.ne_nil (h : Piece identifiers lexeme slice) : slice ≠ [] := by
  cases h with
  | whole hne => exact hne
  | symbol hat =>
      rintro rfl
      cases hat
  | _ => simp [fence]

/-- A text as a list of pieces, each of which what follows may follow. -/
inductive Cut (identifiers : Identifiers) : List Char → List (Lexeme × List Char) → Prop
  | nil : Cut identifiers [] []
  | cons {lexeme : Lexeme} {slice rest : List Char} {pieces : List (Lexeme × List Char)} :
      Piece identifiers lexeme slice → Follows identifiers lexeme slice rest →
      Cut identifiers rest pieces → Cut identifiers (slice ++ rest) ((lexeme, slice) :: pieces)

theorem Cut.flatten (h : Cut identifiers src pieces) :
    (pieces.map Prod.snd).flatten = src := by
  induction h with
  | nil => rfl
  | cons _ _ _ ih => rw [List.map_cons, List.flatten_cons, ih]

theorem matchedWithin_of_cut (h : Cut identifiers src pieces) {fuel : Nat}
    (hfuel : src.length ≤ fuel) :
    matchedWithin identifiers fuel src = pieces.map (fun p => (some p.1, p.2)) := by
  induction h generalizing fuel with
  | nil => cases fuel <;> rfl
  | @cons lexeme slice rest pieces hpiece hfollows _ ih =>
      obtain ⟨c, cs, hcs⟩ := List.exists_cons_of_ne_nil
        (List.append_ne_nil_of_left_ne_nil hpiece.ne_nil rest)
      have hpos := List.length_pos_of_ne_nil hpiece.ne_nil
      rw [List.length_append] at hfuel
      cases fuel with
      | zero => omega
      | succ fuel =>
          have htake : (slice ++ rest).take ((slice ++ rest).length - rest.length) = slice := by
            rw [List.length_append, Nat.add_sub_cancel, List.take_left]
          rw [hcs] at htake ⊢
          rw [matchedWithin, scan_of_piece hpiece hfollows hcs]
          simp only [htake, List.map_cons]
          rw [ih (by omega)]

theorem cut_of_matchedWithin {fuel : Nat} (hfuel : src.length ≤ fuel)
    (h : ∀ m ∈ matchedWithin identifiers fuel src, m.1 ≠ none) :
    ∃ pieces, Cut identifiers src pieces := by
  induction fuel generalizing src with
  | zero =>
      obtain rfl := List.length_eq_zero_iff.mp (Nat.le_zero.mp hfuel)
      exact ⟨[], .nil⟩
  | succ fuel ih =>
      cases src with
      | nil => exact ⟨[], .nil⟩
      | cons c cs =>
          rw [matchedWithin] at h
          have hhead := h _ List.mem_cons_self
          obtain ⟨lexeme, hlexeme⟩ := Option.ne_none_iff_exists'.mp hhead
          obtain ⟨slice, hslice, hpiece, hfollows⟩ := piece_of_scan
            (show scan identifiers c cs = (some lexeme, (scan identifiers c cs).2) from
              Prod.ext hlexeme rfl)
          have hpos := List.length_pos_of_ne_nil hpiece.ne_nil
          have hlength := congrArg List.length hslice
          rw [List.length_append] at hlength
          have hrest : (scan identifiers c cs).2.length ≤ fuel := by
            omega
          obtain ⟨pieces, hpieces⟩ := ih hrest (fun m hm => h m (List.mem_cons_of_mem _ hm))
          rw [hslice]
          exact ⟨(lexeme, slice) :: pieces, .cons hpiece hfollows hpieces⟩

theorem matched_of_cut (h : Cut identifiers src pieces) :
    matched identifiers src = pieces.map (fun p => (some p.1, p.2)) :=
  matchedWithin_of_cut h (Nat.le_refl _)

theorem exists_cut_iff :
    (∃ pieces, Cut identifiers src pieces) ↔ ∀ m ∈ matched identifiers src, m.1 ≠ none := by
  constructor
  · rintro ⟨pieces, h⟩ m hm
    rw [matched_of_cut h, List.mem_map] at hm
    obtain ⟨p, -, rfl⟩ := hm
    simp
  · exact cut_of_matchedWithin (Nat.le_refl _)

end Cuts

end Lexer
end Zdeceptron
