import Zdeceptron.Lexer.Alike
import Zdeceptron.Lexer.Runs

/-!
# A break inside a logical line

Spaces between two tokens become a line break with more spaces, at a place where the
layout pass goes on with the logical line.  The lexemes around the break are the same,
the raw pass sees a line start between the two words, and the layout pass drops it.

* `kinds_broken_iff`: the tokens are the same unless the break parts `take` from `first`.
-/

namespace Zdeceptron
namespace Lexer

open Library

section Raw

theorem rawFrom_append (out : List (RawToken × Span)) (offset : Nat)
    (ms ms' : List (Option Lexeme × List Char)) :
    rawFrom out offset (ms ++ ms') =
      rawFrom (rawFrom out offset ms) (offset + byteLen (ms.map Prod.snd).flatten) ms' := by
  induction ms generalizing out offset with
  | nil => rfl
  | cons m ms ih =>
      obtain ⟨lexeme, slice⟩ := m
      rw [List.cons_append, rawFrom, rawFrom, List.map_cons, List.flatten_cons, byteLen_append,
        ← Nat.add_assoc]
      split
      · exact ih _ _
      · exact ih _ _

variable {out : List (RawToken × Span)}

theorem pushRaw_frame (hout : out ≠ [])
    (under : List (RawToken × Span)) (token : RawToken) (span : Span) :
    pushRaw (out ++ under) token span = pushRaw out token span ++ under := by
  obtain ⟨raw, out, rfl⟩ := List.exists_cons_of_ne_nil hout
  rw [List.cons_append]
  unfold pushRaw
  split_ifs
  · split
    · rename_i heq
      obtain ⟨rfl, rfl⟩ := List.cons.inj heq
      rfl
    · rename_i hnot
      split
      · rename_i heq
        obtain ⟨rfl, rfl⟩ := List.cons.inj heq
        exact absurd rfl (hnot _ _)
      · rfl
  · rfl

theorem pushRaw_ne_nil (out : List (RawToken × Span)) (token : RawToken) (span : Span) :
    pushRaw out token span ≠ [] := by
  unfold pushRaw
  split_ifs
  · split <;> simp
  · simp

theorem rawFrom_frame (hout : out ≠ [])
    (under : List (RawToken × Span)) (offset : Nat) (ms : List (Option Lexeme × List Char)) :
    rawFrom (out ++ under) offset ms = rawFrom out offset ms ++ under := by
  induction ms generalizing out offset with
  | nil => rfl
  | cons m ms ih =>
      obtain ⟨lexeme, slice⟩ := m
      rw [rawFrom, rawFrom, List.head?_append_of_ne_nil _ hout]
      split
      · exact ih hout _
      · rw [pushRaw_frame hout]
        exact ih (pushRaw_ne_nil _ _ _) _

theorem rawFrom_first (kind : TokenKind) (span : Span) (offset : Nat)
    (ms : List (Option Lexeme × List Char)) :
    ∃ later kind' span', rawFrom [(.kw kind, span)] offset ms = later ++ [(.kw kind', span')] ∧
      (kind ≠ .keyword .is → kind' = kind) := by
  suffices hall : ∀ out,
      (∃ later kind' span', out = later ++ [(.kw kind', span')] ∧
        (kind ≠ .keyword .is → kind' = kind)) →
      ∃ later kind' span', rawFrom out offset ms = later ++ [(.kw kind', span')] ∧
        (kind ≠ .keyword .is → kind' = kind) from
    hall _ ⟨[], kind, span, rfl, fun _ => rfl⟩
  induction ms generalizing offset with
  | nil => exact fun out hout => hout
  | cons m ms ih =>
      rintro out ⟨later, kind', span', rfl, hkind⟩
      obtain ⟨lexeme, slice⟩ := m
      rw [rawFrom]
      split
      · exact ih _ _ ⟨later, kind', span', rfl, hkind⟩
      · rename_i token _
        refine ih _ _ ?_
        cases later with
        | nil =>
            by_cases hmerge : token = .kw (.keyword .not) ∧ kind' = .keyword .is
            · obtain ⟨rfl, rfl⟩ := hmerge
              refine ⟨[], _, _, pushRaw_merge _ _ _, ?_⟩
              intro hne
              exact absurd (hkind hne).symm hne
            · refine ⟨[_], kind', span', pushRaw_keep ?_, hkind⟩
              intro htoken hlast
              obtain ⟨⟩ := Option.some.inj hlast
              exact hmerge ⟨htoken, rfl⟩
        | cons other later =>
            rw [pushRaw_frame (by simp)]
            exact ⟨_, kind', span', rfl, hkind⟩

theorem rawFrom_token {last : RawToken} {lexeme : Lexeme} {kind : TokenKind}
    (hkind : rawToken (some last) (some lexeme) = some (.kw kind))
    (hkeep : kind = .keyword .not → last ≠ .kw (.keyword .is)) (span : Span)
    (out : List (RawToken × Span)) (offset : Nat) (slice : List Char)
    (ms : List (Option Lexeme × List Char)) :
    rawFrom ((last, span) :: out) offset ((some lexeme, slice) :: ms) =
      rawFrom [(.kw kind, ⟨offset, offset + byteLen slice⟩)] (offset + byteLen slice) ms ++
        (last, span) :: out := by
  have hpush : pushRaw ((last, span) :: out) (.kw kind) ⟨offset, offset + byteLen slice⟩ =
      [(.kw kind, ⟨offset, offset + byteLen slice⟩)] ++ (last, span) :: out := by
    refine pushRaw_keep ?_
    intro htoken hlast
    exact hkeep (RawToken.kw.inj htoken) (Option.some.inj hlast)
  rw [rawFrom, List.head?_cons, Option.map_some, hkind, ← rawFrom_frame (by simp), ← hpush]

end Raw

section Layout

theorem layout_append (raws : List (RawToken × Span)) (kind : TokenKind) (span : Span)
    (more : List (RawToken × Span)) (st : Layout) :
    layout (raws ++ (.kw kind, span) :: more) st =
      (layout (raws ++ [(.kw kind, span)]) st).bind (layout more) := by
  induction raws generalizing st with
  | nil => rfl
  | cons raw raws ih =>
      obtain ⟨token, span'⟩ := raw
      have hblank : isBlank (raws ++ (.kw kind, span) :: more) =
          isBlank (raws ++ [(.kw kind, span)]) := by
        rcases raws with _ | ⟨⟨other, _⟩, _⟩
        · rfl
        · cases other <;> rfl
      rw [List.cons_append, List.cons_append]
      cases token with
      | error => rfl
      | kw other => exact ih _
      | lineStart width =>
          rw [layout, layout, hblank]
          split
          · exact ih _
          · cases st.lineStart width span' with
            | error error => rfl
            | ok st => exact ih _

theorem layout_suspended {st : Layout} {width : Nat} (h : st.suspends width = true)
    (span : Span) {more : List (RawToken × Span)} (hmore : isBlank more = false) :
    layout ((.lineStart width, span) :: more) st = layout more st := by
  rw [layout, hmore]
  unfold Layout.lineStart
  rw [h]
  rfl

def RawToken.kind? : RawToken → Option TokenKind
  | .kw kind => some kind
  | .lineStart _ => none
  | .error => none

def contents (raws : List (RawToken × Span)) : List TokenKind :=
  (raws.filterMap (fun raw => raw.1.kind?)).filter (fun kind => !kind.isLayout)

theorem contents_append (raws more : List (RawToken × Span)) :
    contents (raws ++ more) = contents raws ++ contents more := by
  unfold contents
  rw [List.filterMap_append, List.filter_append]

theorem contents_lineStart (width : Nat) (span : Span) (raws : List (RawToken × Span)) :
    contents ((.lineStart width, span) :: raws) = contents raws := rfl

theorem contents_kw {kind : TokenKind} (h : kind.isLayout = false) (span : Span)
    (raws : List (RawToken × Span)) :
    contents ((.kw kind, span) :: raws) = kind :: contents raws :=
  List.filter_cons_of_pos (by simpa using h)

def solid (tokens : List Token) : List TokenKind :=
  (tokens.map Token.kind).filter (fun kind => !kind.isLayout)

theorem solid_layoutToken {kind : TokenKind} (h : kind.isLayout = true) (span : Span)
    (tokens : List Token) : solid (⟨kind, span⟩ :: tokens) = solid tokens := by
  unfold solid
  rw [List.map_cons, List.filter_cons_of_neg (by simpa using h)]

theorem solid_newline (out : List Token) (span : Span) :
    solid (if out = [] then [] else ⟨.newline, span⟩ :: out) = solid out := by
  split
  · subst_vars
    rfl
  · exact solid_layoutToken rfl _ _

theorem solid_closeLevels (width : Nat) (span : Span) (levels : List Nat) (out : List Token) :
    solid (closeLevels width span levels out).2 = solid out := by
  induction levels generalizing out with
  | nil => rfl
  | cons level levels ih =>
      rw [closeLevels]
      split
      · exact (ih _).trans (solid_layoutToken rfl _ _)
      · rfl

theorem solid_lineStart {st st' : Layout} {width : Nat} {span : Span}
    (h : st.lineStart width span = .ok st') : solid st'.out = solid st.out := by
  have hnewline := solid_newline st.out span
  unfold Layout.lineStart at h
  simp only at h
  generalize (if st.out = [] then [] else ⟨.newline, span⟩ :: st.out) = out at h hnewline
  split_ifs at h
  · cases h
    rfl
  · cases h
    exact (solid_layoutToken rfl _ _).trans hnewline
  · cases h
    exact (solid_closeLevels _ _ _ _).trans hnewline
  · cases h
    exact hnewline

theorem solid_layout {raws : List (RawToken × Span)} {st st' : Layout}
    (h : layout raws st = .ok st') : solid st'.out = (contents raws).reverse ++ solid st.out := by
  induction raws generalizing st with
  | nil =>
      cases h
      rfl
  | cons raw raws ih =>
      obtain ⟨token, span⟩ := raw
      cases token with
      | error => cases h
      | kw kind =>
          rw [ih h]
          cases hkind : kind.isLayout with
          | true =>
              have hcontents : contents ((.kw kind, span) :: raws) = contents raws :=
                List.filter_cons_of_neg (by simpa using hkind)
              rw [hcontents]
              exact congrArg _ (solid_layoutToken hkind _ _)
          | false =>
              have hsolid : solid (st.content kind span).out = kind :: solid st.out := by
                show solid (⟨kind, span⟩ :: st.out) = _
                unfold solid
                rw [List.map_cons, List.filter_cons_of_pos (by simpa using hkind)]
              rw [hsolid, contents_kw hkind, List.reverse_cons, List.append_assoc]
              rfl
      | lineStart width =>
          rw [contents_lineStart]
          rw [layout] at h
          split at h
          · exact ih h
          · cases hline : st.lineStart width span with
            | error error =>
                rw [hline] at h
                cases h
            | ok next =>
                rw [hline] at h
                rw [ih h, solid_lineStart hline]

theorem solid_finish (st : Layout) (eof : Span) :
    solid (st.finish eof) = (solid st.out).reverse := by
  have hdedents : ∀ n (tokens : List Token),
      solid (List.replicate n ⟨.dedent, eof⟩ ++ tokens) = solid tokens := by
    intro n tokens
    induction n with
    | zero => rfl
    | succ n ih => exact (solid_layoutToken rfl _ _).trans ih
  have hreverse : ∀ tokens : List Token, solid tokens.reverse = (solid tokens).reverse := by
    intro tokens
    unfold solid
    rw [List.map_reverse, List.filter_reverse]
  unfold Layout.finish
  rw [hreverse, solid_layoutToken rfl, hdedents, solid_newline]

theorem kinds_contents {identifiers : Identifiers} {src : List Char} {tokens : List TokenKind}
    (h : kinds identifiers src = some tokens) :
    tokens.filter (fun kind => !kind.isLayout) = contents (tokenizeRaw identifiers src) := by
  obtain ⟨hleading, hruns⟩ := kinds_isSome (by rw [h]; rfl)
  rw [kinds_eq hleading hruns] at h
  cases hlayout : layout (tokenizeRaw identifiers src) .initial with
  | error error =>
      rw [hlayout] at h
      cases h
  | ok st =>
      rw [hlayout] at h
      simp only at h
      cases hexponent : exponentLiteral (st.finish ⟨byteLen src, byteLen src⟩) with
      | some error =>
          rw [hexponent] at h
          cases h
      | none =>
          rw [hexponent] at h
          obtain rfl := Option.some.inj h
          have hsolid := solid_layout hlayout
          rw [show solid Layout.initial.out = [] from rfl, List.append_nil] at hsolid
          show solid (st.finish _) = _
          rw [solid_finish, hsolid, List.reverse_reverse]

end Layout

section Words

def Lexeme.isToken : Lexeme → Bool
  | .lineStart _ => false
  | .space => false
  | .comment => false
  | .number _ => true
  | .text _ => true
  | .word _ => true
  | .symbol _ => true

variable {lexeme : Lexeme} {last last' : Option RawToken}

theorem rawToken_isToken (h : lexeme.isToken = true) (last : Option RawToken) :
    ∃ kind, rawToken last (some lexeme) = some (.kw kind) := by
  cases lexeme with
  | lineStart _ => cases h
  | space => cases h
  | comment => cases h
  | number _ | text _ | word _ | symbol _ => exact ⟨_, rfl⟩

variable {keyword : Keyword}

theorem wordToKind_eq_keyword {word : List Char} (h : wordToKind word = .keyword keyword) :
    ∃ entry ∈ keywords, entry.1.toList = word ∧ entry.2 = keyword := by
  unfold wordToKind at h
  split at h
  · rename_i entry hentry
    cases h
    have hword := List.find?_some hentry
    exact ⟨entry, List.mem_of_find?_eq_some hentry, by simpa using hword, rfl⟩
  · cases h

theorem demoteFirst_eq_keyword {kind : TokenKind} {word : List Char}
    (h : demoteFirst kind word last = .keyword keyword) : kind = .keyword keyword := by
  unfold demoteFirst at h
  split_ifs at h <;> exact h

theorem word_of_keyword {spelling : String}
    (hspelling : ∀ entry ∈ keywords, entry.2 = keyword → entry.1 = spelling)
    (h : rawToken last (some lexeme) = some (.kw (.keyword keyword))) :
    lexeme = .word spelling.toList := by
  cases lexeme with
  | word word =>
      have hkind : demoteFirst (wordToKind word) word last = .keyword keyword := by
        simpa [rawToken] using h
      obtain ⟨entry, hentry, rfl, hkeyword⟩ := wordToKind_eq_keyword (demoteFirst_eq_keyword hkind)
      rw [hspelling entry hentry hkeyword]
  | _ => simp [rawToken] at h

theorem rawToken_congr (h : lexeme = .word "first".toList →
    last ≠ some (.kw (.keyword .take)) ∧ last' ≠ some (.kw (.keyword .take))) :
    rawToken last (some lexeme) = rawToken last' (some lexeme) := by
  cases lexeme with
  | word word =>
      show some (RawToken.kw (demoteFirst _ _ _)) = some (RawToken.kw (demoteFirst _ _ _))
      by_cases hfirst : wordToKind word = .keyword .first
      · obtain ⟨entry, hentry, rfl, hkeyword⟩ := wordToKind_eq_keyword hfirst
        have hspelling : ∀ entry ∈ keywords, entry.2 = .first → entry.1 = "first" := by decide
        rw [hspelling entry hentry hkeyword] at h
        unfold demoteFirst
        rw [if_neg (h rfl).1, if_neg (h rfl).2]
      · unfold demoteFirst
        rw [if_neg hfirst, if_neg hfirst]
  | _ => rfl

theorem head_pushRaw (out : List (RawToken × Span)) (kind : TokenKind) (span : Span) :
    ∃ kind' span' rest, pushRaw out (.kw kind) span = (.kw kind', span') :: rest ∧
      (kind' = kind ∨ kind = .keyword .not ∧ kind' = .keyword .isNot) := by
  by_cases hmerge : kind = .keyword .not ∧ out.head?.map Prod.fst = some (.kw (.keyword .is))
  · obtain ⟨rfl, hlast⟩ := hmerge
    rcases out with _ | ⟨⟨token, isSpan⟩, rest⟩
    · cases hlast
    · obtain rfl : token = .kw (.keyword .is) := Option.some.inj hlast
      exact ⟨_, _, rest, pushRaw_merge _ _ _, .inr ⟨rfl, rfl⟩⟩
  · refine ⟨kind, span, out, pushRaw_keep ?_, .inl rfl⟩
    intro hkind hlast
    obtain ⟨⟩ := hkind
    exact hmerge ⟨rfl, hlast⟩

end Words

section Cuts

inductive LineBreak
  | lf
  | crlf
deriving DecidableEq

def LineBreak.chars : LineBreak → List Char
  | .lf => ['\n']
  | .crlf => ['\r', '\n']

def LineBreak.slice (lineBreak : LineBreak) (width : Nat) : List Char :=
  lineBreak.chars ++ List.replicate width ' '

def slices {α : Type} (ms : List (α × List Char)) : List Char := (ms.map Prod.snd).flatten

theorem slices_append {α : Type} (ms ms' : List (α × List Char)) :
    slices (ms ++ ms') = slices ms ++ slices ms' := by
  unfold slices
  rw [List.map_append, List.flatten_append]

theorem slices_cons {α : Type} (m : α × List Char) (ms : List (α × List Char)) :
    slices (m :: ms) = m.2 ++ slices ms := rfl

variable {identifiers : Identifiers} {lexeme left : Lexeme} {slice spaces leftSlice : List Char}

theorem LineBreak.piece (lineBreak : LineBreak) (width : Nat) :
    Piece identifiers (.lineStart width) (lineBreak.slice width) := by
  cases lineBreak with
  | lf => exact .newline width
  | crlf => exact .return width

theorem LineBreak.head (lineBreak : LineBreak) (width : Nat) :
    ∃ c cs, lineBreak.slice width = c :: cs ∧ (c = '\n' ∨ c = '\r') := by
  cases lineBreak with
  | lf => exact ⟨'\n', _, rfl, .inl rfl⟩
  | crlf => exact ⟨'\r', _, rfl, .inr rfl⟩

theorem spaces_of_piece (h : Piece identifiers .space spaces) :
    ∃ n, spaces = List.replicate (n + 1) ' ' := by
  cases h with
  | space n => exact ⟨n, rfl⟩

theorem Follows.congr {rest rest' : List Char} (hhead : rest.head? = rest'.head?)
    (hfraction : startsFraction rest = startsFraction rest')
    (h : Follows identifiers lexeme slice rest) : Follows identifiers lexeme slice rest' := by
  cases lexeme <;> simpa only [Follows, hhead, hfraction] using h

theorem startsFraction_append {front : List Char} (hfront : front ≠ []) {c d : Char}
    (hc : c.isDigit = false) (hd : d.isDigit = false) (cs ds : List Char) :
    startsFraction (front ++ c :: cs) = startsFraction (front ++ d :: ds) := by
  have hend : ∀ {e : Char}, e.isDigit = false → ∀ (f : Char) (es : List Char),
      startsFraction (f :: e :: es) = false := by
    intro e he f es
    unfold startsFraction
    split
    · rename_i heq
      obtain ⟨rfl, -⟩ := List.cons.inj (List.cons.inj heq).2
      exact he
    · rfl
  rcases front with _ | ⟨f, _ | ⟨g, front⟩⟩
  · exact absurd rfl hfront
  · exact (hend hc f cs).trans (hend hd f ds).symm
  · rw [List.cons_append, List.cons_append, List.cons_append, List.cons_append]
    by_cases hf : f = '.'
    · subst hf
      rfl
    · unfold startsFraction
      simp [hf]

theorem follows_lineBreak (htoken : left.isToken = true) (lineBreak : LineBreak) (width : Nat)
    (rest : List Char) :
    Follows identifiers left leftSlice (lineBreak.slice width ++ rest) := by
  obtain ⟨c, cs, hcs, hc⟩ := lineBreak.head width
  rw [hcs, List.cons_append]
  have hseparates : separates c = true := by
    rcases hc with rfl | rfl <;> decide
  have hdigit : c.isDigit = false := by
    rcases hc with rfl | rfl <;> decide
  have hquote : c ≠ '"' := by
    rcases hc with rfl | rfl <;> decide
  have hequals : c ≠ '=' := by
    rcases hc with rfl | rfl <;> decide
  have hpoint : c ≠ '.' := by
    rcases hc with rfl | rfl <;> decide
  cases left with
  | lineStart _ => cases htoken
  | space => cases htoken
  | comment => cases htoken
  | number value =>
      refine ⟨?_, .inr ?_⟩
      · rintro d ⟨⟩
        exact hdigit
      · unfold startsFraction
        split
        · rename_i heq
          exact absurd (List.cons.inj heq).1 hpoint
        · rfl
  | text value =>
      rintro - ⟨⟩
      exact hquote rfl
  | word word =>
      rintro d ⟨⟩
      by_contra hcontinue
      rw [Bool.not_eq_false] at hcontinue
      rw [identifiers.plain c hcontinue] at hseparates
      cases hseparates
  | symbol symbol =>
      rintro - ⟨⟩
      exact hequals rfl

variable {src : List Char}

theorem Cut.piece {pieces : List (Lexeme × List Char)}
    (h : Cut identifiers src pieces) {lexeme : Lexeme} {slice : List Char}
    (hpiece : (lexeme, slice) ∈ pieces) : Piece identifiers lexeme slice := by
  induction h with
  | nil => exact absurd hpiece List.not_mem_nil
  | cons hfirst _ _ ih =>
      rcases List.mem_cons.mp hpiece with heq | hpiece
      · obtain ⟨rfl, rfl⟩ := Prod.mk.inj heq
        exact hfirst
      · exact ih hpiece

variable {front back : List (Lexeme × List Char)}

theorem Cut.broken
    (h : Cut identifiers src (front ++ (left, leftSlice) :: (.space, spaces) :: back))
    (htoken : left.isToken = true) (lineBreak : LineBreak) (width : Nat) :
    Cut identifiers
      (slices (front ++ (left, leftSlice) :: (.lineStart width, lineBreak.slice width) :: back))
      (front ++ (left, leftSlice) :: (.lineStart width, lineBreak.slice width) :: back) := by
  induction front generalizing src with
  | nil =>
      cases h with
      | cons hleft _ h =>
          cases h with
          | cons _ hspace hback =>
              have hrest : slices back = _ := hback.flatten
              rw [List.nil_append, slices_cons, slices_cons, hrest]
              exact .cons hleft (follows_lineBreak htoken _ _ _)
                (.cons (lineBreak.piece width) hspace hback)
  | cons piece front ih =>
      rw [List.cons_append] at h ⊢
      rw [slices_cons]
      cases h with
      | @cons lexeme slice rest _ hpiece hfollows hrest =>
          refine .cons hpiece ?_ (ih hrest)
          have hleftPiece : Piece identifiers left leftSlice := hrest.piece (by simp)
          have hleft := hleftPiece.ne_nil
          have hspaces : Piece identifiers .space spaces := hrest.piece (by simp)
          obtain ⟨n, rfl⟩ := spaces_of_piece hspaces
          obtain ⟨c, cs, hcs, hc⟩ := lineBreak.head width
          have hdigit : c.isDigit = false := by
            rcases hc with rfl | rfl <;> decide
          have hne : slices front ++ leftSlice ≠ [] := List.append_ne_nil_of_right_ne_nil _ hleft
          have hold : rest = (slices front ++ leftSlice) ++
              ' ' :: (List.replicate n ' ' ++ slices back) := by
            rw [← hrest.flatten]
            show slices _ = _
            rw [slices_append, slices_cons, slices_cons, List.append_assoc]
            rfl
          have hnew : slices (front ++ (left, leftSlice) ::
              (.lineStart width, lineBreak.slice width) :: back) =
                (slices front ++ leftSlice) ++ c :: (cs ++ slices back) := by
            rw [slices_append, slices_cons, slices_cons, List.append_assoc, hcs]
            rfl
          rw [hold] at hfollows
          rw [hnew]
          refine hfollows.congr ?_ (startsFraction_append hne (by decide) hdigit _ _)
          rw [List.head?_append_of_ne_nil _ hne, List.head?_append_of_ne_nil _ hne]

theorem piecesRun_broken (front back : List (Lexeme × List Char))
    (hspaces : Piece identifiers .space spaces) (lineBreak : LineBreak) (width length : Nat) :
    piecesRun length (front ++ (.lineStart width, lineBreak.slice width) :: back) =
      piecesRun length (front ++ (.space, spaces) :: back) := by
  obtain ⟨n, rfl⟩ := spaces_of_piece hspaces
  have hreset : ∀ n length, runChars length (List.replicate (n + 1) ' ') = some 0 := by
    intro n
    induction n with
    | zero => exact fun _ => rfl
    | succ n ih =>
        intro length
        rw [List.replicate_succ, runChars, if_pos (by decide)]
        exact ih 0
  have hbreak : ∀ length, runChars length (lineBreak.slice width) = some 0 := by
    intro length
    cases width with
    | zero => cases lineBreak <;> rfl
    | succ width =>
        cases lineBreak with
        | lf => exact hreset width 0
        | crlf => exact hreset width 0
  rw [piecesRun_append, piecesRun_append]
  refine congrArg _ (funext fun n => ?_)
  rw [piecesRun, piecesRun]
  show (runChars _ _).bind _ = (runChars _ _).bind _
  rw [hreset, hbreak]

theorem token_head
    (h : Cut identifiers src (front ++ (left, leftSlice) :: back)) (htoken : left.isToken = true) :
    ∃ c ∈ leftSlice, isSpace c = false := by
  induction front generalizing src with
  | nil =>
      cases h with
      | @cons _ _ rest _ hleft hfollows _ =>
          obtain ⟨c, cs, rfl⟩ := List.exists_cons_of_ne_nil hleft.ne_nil
          refine ⟨c, List.mem_cons_self, ?_⟩
          by_contra hspace
          obtain rfl : c = ' ' := by simpa [isSpace] using hspace
          have hscan := scan_of_piece hleft hfollows rfl
          obtain ⟨hlexeme, -⟩ := Prod.mk.inj hscan
          rw [← Option.some.inj hlexeme] at htoken
          cases htoken
  | cons piece front ih =>
      cases h with
      | cons _ _ hrest => exact ih hrest

theorem leadingIndentation_append {front : List Char} (h : ∃ c ∈ front, isSpace c = false)
    (rest rest' : List Char) :
    leadingIndentation (front ++ rest) = leadingIndentation (front ++ rest') := by
  obtain ⟨d, hd, hspace⟩ := h
  have hne : front.dropWhile isSpace ≠ [] := by
    intro hnil
    have hall := List.dropWhile_eq_nil_iff.mp hnil d hd
    rw [hspace] at hall
    cases hall
  obtain ⟨c, cs, hcs⟩ := List.exists_cons_of_ne_nil hne
  have hsplit : front = front.takeWhile isSpace ++ c :: cs := by
    rw [← hcs, List.takeWhile_append_dropWhile]
  have hspaces : ∀ e ∈ front.takeWhile isSpace, isSpace e = true :=
    fun e he => List.mem_takeWhile_imp he
  have hstop : ∀ rest : List Char, ∀ e, (c :: cs ++ rest).head? = some e → isSpace e = false := by
    rintro rest e ⟨⟩
    exact head_dropWhile (by rw [hcs]; rfl)
  rw [hsplit, List.append_assoc, List.append_assoc]
  unfold leadingIndentation
  rw [takeWhile_stop hspaces (hstop rest), dropWhile_stop hspaces (hstop rest),
    takeWhile_stop hspaces (hstop rest'), dropWhile_stop hspaces (hstop rest')]
  rfl

end Cuts

section Places

/-- Spaces between two tokens of a text, where a bracket is open or the last token is a
comma. -/
structure Place (identifiers : Identifiers) (src : List Char) where
  front : List (Option Lexeme × List Char)
  left : Lexeme
  leftSlice : List Char
  spaces : List Char
  right : Lexeme
  rightSlice : List Char
  back : List (Option Lexeme × List Char)
  state : Layout
  cut : matched identifiers src =
    front ++ (some left, leftSlice) :: (some .space, spaces) :: (some right, rightSlice) :: back
  leftToken : left.isToken = true
  rightToken : right.isToken = true
  apart : ¬ (left = .word "is".toList ∧ right = .word "not".toList)
  reached :
    layout (rawFrom [] 0 (front ++ [(some left, leftSlice)])).reverse .initial = .ok state
  goesOn : 0 < state.openBrackets ∨ state.continued = true

variable {identifiers : Identifiers} {src : List Char}

def Place.broken (place : Place identifiers src) (lineBreak : LineBreak) (width : Nat) :
    List Char :=
  slices place.front ++ place.leftSlice ++ lineBreak.slice width ++ place.rightSlice ++
    slices place.back

def Moved (place n m offset offset' : Nat) : Prop :=
  (offset = offset' ∧ offset ≤ place) ∨
    ∃ k, offset = place + n + k ∧ offset' = place + m + k

theorem moved_inj {place n m : Nat} (hn : 0 < n) (hm : 0 < m) (a b a' b' : Nat)
    (ha : Moved place n m a a') (hb : Moved place n m b b') : a = b ↔ a' = b' := by
  rcases ha with ⟨rfl, ha⟩ | ⟨k, rfl, rfl⟩
  · rcases hb with ⟨rfl, hb⟩ | ⟨l, rfl, rfl⟩
    · exact Iff.rfl
    · omega
  · rcases hb with ⟨rfl, hb⟩ | ⟨l, rfl, rfl⟩
    · omega
    · omega

theorem paired_front {place n m : Nat} (offset : Nat) (ms : List (Option Lexeme × List Char))
    (h : offset + byteLen (slices ms) ≤ place) : Paired (Moved place n m) offset offset ms ms := by
  induction ms generalizing offset with
  | nil => exact .nil (.inl ⟨rfl, by omega⟩)
  | cons piece ms ih =>
      rw [slices_cons, byteLen_append] at h
      exact .cons (.inl ⟨rfl, by omega⟩) (ih _ (by omega))

theorem paired_back {place n m : Nat} (k : Nat) (ms : List (Option Lexeme × List Char)) :
    Paired (Moved place n m) (place + n + k) (place + m + k) ms ms := by
  induction ms generalizing k with
  | nil => exact .nil (.inr ⟨k, rfl, rfl⟩)
  | cons piece ms ih =>
      refine .cons (.inr ⟨k, rfl, rfl⟩) ?_
      rw [Nat.add_assoc, Nat.add_assoc (place + m)]
      exact ih _

theorem rawFrom_left {left : Lexeme} (htoken : left.isToken = true)
    (front : List (Option Lexeme × List Char)) (leftSlice : List Char) :
    ∃ last written kind span rest, rawToken last (some left) = some (.kw written) ∧
      rawFrom [] 0 (front ++ [(some left, leftSlice)]) = (.kw kind, span) :: rest ∧
      (kind = written ∨ written = .keyword .not ∧ kind = .keyword .isNot) := by
  rw [rawFrom_append]
  generalize rawFrom [] 0 front = out
  generalize 0 + byteLen (front.map Prod.snd).flatten = offset
  obtain ⟨written, hwritten⟩ := rawToken_isToken htoken (out.head?.map Prod.fst)
  obtain ⟨kind, span, rest, hpush, hcases⟩ :=
    head_pushRaw out written ⟨offset, offset + byteLen leftSlice⟩
  refine ⟨out.head?.map Prod.fst, written, kind, span, rest, hwritten, ?_, hcases⟩
  rw [rawFrom, hwritten]
  exact hpush

theorem rawFrom_space (out : List (RawToken × Span)) (offset : Nat) (spaces : List Char)
    (ms : List (Option Lexeme × List Char)) :
    rawFrom out offset ((some .space, spaces) :: ms) =
      rawFrom out (offset + byteLen spaces) ms := rfl

theorem rawFrom_lineStart (out : List (RawToken × Span)) (offset width : Nat)
    (slice : List Char) (ms : List (Option Lexeme × List Char)) :
    rawFrom out offset ((some (.lineStart width), slice) :: ms) =
      rawFrom ((.lineStart width, ⟨offset, offset + byteLen slice⟩) :: out)
        (offset + byteLen slice) ms := by
  rw [rawFrom]
  show rawFrom (pushRaw _ _ _) _ _ = _
  rw [pushRaw_keep (by rintro ⟨⟩)]

theorem slices_map (pieces : List (Lexeme × List Char)) :
    slices (pieces.map (fun p => (some p.1, p.2))) = slices pieces := by
  unfold slices
  rw [List.map_map]
  rfl

theorem Place.exists_cut (place : Place identifiers src)
    (h : (kinds identifiers src).isSome = true) :
    ∃ front back, place.front = front.map (fun p => (some p.1, p.2)) ∧
      place.back = back.map (fun p => (some p.1, p.2)) ∧
      Cut identifiers src (front ++ (place.left, place.leftSlice) ::
        (.space, place.spaces) :: (place.right, place.rightSlice) :: back) := by
  have hvalid : ∀ m ∈ matched identifiers src, m.1 ≠ none := by
    intro m hm hnone
    rw [kinds_of_error ⟨m, hm, hnone⟩] at h
    cases h
  obtain ⟨pieces, hpieces⟩ := exists_cut_iff.mpr hvalid
  have hcut := place.cut
  rw [matched_of_cut hpieces] at hcut
  obtain ⟨front, others, rfl, hfront, hothers⟩ := List.map_eq_append_iff.mp hcut
  obtain ⟨left, others, rfl, hleft, hothers⟩ := List.map_eq_cons_iff.mp hothers
  obtain ⟨space, others, rfl, hspace, hothers⟩ := List.map_eq_cons_iff.mp hothers
  obtain ⟨right, back, rfl, hright, hback⟩ := List.map_eq_cons_iff.mp hothers
  refine ⟨front, back, hfront.symm, hback.symm, ?_⟩
  obtain ⟨hl, hls⟩ := Prod.mk.inj hleft
  obtain ⟨hs, hss⟩ := Prod.mk.inj hspace
  obtain ⟨hr, hrs⟩ := Prod.mk.inj hright
  rw [← Option.some.inj hl, ← hls, ← hss, ← Option.some.inj hr, ← hrs, ← Option.some.inj hs]
  exact hpieces

theorem Place.broken_scanned (place : Place identifiers src)
    (h : (kinds identifiers src).isSome = true) (lineBreak : LineBreak) (width : Nat) :
    leadingIndentation (place.broken lineBreak width) = none ∧
      overLongRun (place.broken lineBreak width) = none ∧
      matched identifiers (place.broken lineBreak width) =
        place.front ++ (some place.left, place.leftSlice) ::
          (some (.lineStart width), lineBreak.slice width) ::
            (some place.right, place.rightSlice) :: place.back := by
  obtain ⟨hleading, hruns⟩ := kinds_isSome h
  obtain ⟨front, back, hfront, hback, hcut⟩ := place.exists_cut h
  have htext : place.broken lineBreak width = slices (front ++ (place.left, place.leftSlice) ::
      (.lineStart width, lineBreak.slice width) :: (place.right, place.rightSlice) :: back) := by
    unfold Place.broken
    rw [hfront, hback, slices_map, slices_map, slices_append, slices_cons, slices_cons,
      slices_cons]
    simp only [List.append_assoc]
  have hbroken := hcut.broken place.leftToken lineBreak width
  rw [← htext] at hbroken
  refine ⟨?_, ?_, ?_⟩
  · obtain ⟨c, hc, hspace⟩ := token_head hcut place.leftToken
    have hsrc : src = (slices front ++ place.leftSlice) ++
        (place.spaces ++ (place.rightSlice ++ slices back)) := by
      refine hcut.flatten.symm.trans ?_
      show slices _ = _
      rw [slices_append, slices_cons, slices_cons, slices_cons, List.append_assoc]
    have hsame := congrArg leadingIndentation hsrc
    rw [hleading] at hsame
    rw [hsame, htext, slices_append, slices_cons, ← List.append_assoc]
    exact leadingIndentation_append ⟨c, List.mem_append_right _ hc, hspace⟩ _ _
  · have hspaces : Piece identifiers .space place.spaces := hcut.piece (by simp)
    rw [← Option.isNone_iff_eq_none, ← Option.not_isSome, overLongRun_isSome, tooLong_of_cut hcut]
      at hruns
    rw [← Option.isNone_iff_eq_none, ← Option.not_isSome, overLongRun_isSome,
      tooLong_of_cut hbroken]
    have hsame := piecesRun_broken (front ++ [(place.left, place.leftSlice)])
      ((place.right, place.rightSlice) :: back) hspaces lineBreak width 0
    rw [List.append_assoc, List.append_assoc] at hsame
    exact hsame ▸ hruns
  · rw [matched_of_cut hbroken, hfront, hback]
    simp only [List.map_append, List.map_cons]

def Place.offset (place : Place identifiers src) : Nat :=
  byteLen (slices (place.front ++ [(some place.left, place.leftSlice)]))

theorem Place.byteLen_broken (place : Place identifiers src) (lineBreak : LineBreak) (width : Nat) :
    byteLen (place.broken lineBreak width) = place.offset + byteLen (lineBreak.slice width) +
      (byteLen place.rightSlice + byteLen (slices place.back)) := by
  unfold Place.broken Place.offset
  simp only [slices_append, byteLen_append, slices_cons]
  simp only [slices, List.map_nil, List.flatten_nil, byteLen_nil]
  omega

theorem Place.byteLen_src (place : Place identifiers src)
    (h : (kinds identifiers src).isSome = true) :
    byteLen src = place.offset + byteLen place.spaces +
      (byteLen place.rightSlice + byteLen (slices place.back)) ∧ 0 < byteLen place.spaces := by
  obtain ⟨front, back, hfront, hback, hcut⟩ := place.exists_cut h
  have hspaces : Piece identifiers .space place.spaces := hcut.piece (by simp)
  refine ⟨?_, byteLen_pos hspaces.ne_nil⟩
  have hsrc : slices _ = src := hcut.flatten
  refine (congrArg byteLen hsrc.symm).trans ?_
  unfold Place.offset
  rw [hfront, hback]
  simp only [slices_append, byteLen_append, slices_cons, slices_map]
  simp only [slices, List.map_nil, List.flatten_nil, byteLen_nil]
  omega

section Passes

variable (place : Place identifiers src) {kind kindR : TokenKind} {span : Span}
  {rest : List (RawToken × Span)}

theorem Place.raw_src
    (hbefore : rawFrom [] 0 (place.front ++ [(some place.left, place.leftSlice)]) =
      (.kw kind, span) :: rest)
    (hright : rawToken (some (.kw kind)) (some place.right) = some (.kw kindR))
    (hapart : kindR = .keyword .not → kind ≠ .keyword .is) {offset stop : Nat}
    (hoffset : offset = place.offset + byteLen place.spaces)
    (hstop : stop = offset + byteLen place.rightSlice) :
    tokenizeRaw identifiers src = ((.kw kind, span) :: rest).reverse ++
      (rawFrom [(.kw kindR, ⟨offset, stop⟩)] stop place.back).reverse := by
  subst hoffset hstop
  unfold tokenizeRaw
  rw [place.cut, ← List.singleton_append, ← List.append_assoc, rawFrom_append, hbefore,
    rawFrom_space, rawFrom_token hright, List.reverse_append, Nat.zero_add]
  · rfl
  · intro hnot his
    exact hapart hnot (RawToken.kw.inj his)

theorem Place.raw_broken (h : (kinds identifiers src).isSome = true) (lineBreak : LineBreak)
    {width : Nat} (hbefore : rawFrom [] 0 (place.front ++ [(some place.left, place.leftSlice)]) =
      (.kw kind, span) :: rest)
    (hright : rawToken (some (.lineStart width)) (some place.right) = some (.kw kindR))
    {offset stop : Nat} (hoffset : offset = place.offset + byteLen (lineBreak.slice width))
    (hstop : stop = offset + byteLen place.rightSlice) :
    tokenizeRaw identifiers (place.broken lineBreak width) = ((.kw kind, span) :: rest).reverse ++
        (.lineStart width, ⟨place.offset, offset⟩) ::
          (rawFrom [(.kw kindR, ⟨offset, stop⟩)] stop place.back).reverse := by
  subst hoffset hstop
  obtain ⟨-, -, hmatched⟩ := place.broken_scanned h lineBreak width
  unfold tokenizeRaw
  rw [hmatched, ← List.singleton_append, ← List.append_assoc, rawFrom_append, hbefore,
    rawFrom_lineStart, rawFrom_token hright, List.reverse_append, Nat.zero_add,
    List.reverse_cons, List.append_assoc]
  · rfl
  · rintro - ⟨⟩

theorem Place.layout_behind
    (hbefore : rawFrom [] 0 (place.front ++ [(some place.left, place.leftSlice)]) =
      (.kw kind, span) :: rest) (more : List (RawToken × Span)) :
    layout (((.kw kind, span) :: rest).reverse ++ more) .initial = layout more place.state := by
  have hreached := place.reached
  rw [hbefore, List.reverse_cons] at hreached
  rw [List.reverse_cons, List.append_assoc, List.singleton_append, layout_append, hreached]
  rfl

theorem Place.suspends {width : Nat} (hwidth : place.state.logicalIndent < width) :
    place.state.suspends width = true := by
  unfold Layout.suspends
  rcases place.goesOn with hopen | hcontinued
  · simp [hopen, hwidth]
  · simp [hcontinued, hwidth]

theorem Place.state_alike {n m : Nat} :
    Layout.Alike (Moved place.offset n m) place.state place.state := by
  have hpaired : Paired (Moved place.offset n m) 0 0
      (place.front ++ [(some place.left, place.leftSlice)])
      (place.front ++ [(some place.left, place.leftSlice)]) :=
    paired_front 0 _ (by rw [Nat.zero_add]; rfl)
  have hraw : List.Forall₂ (RawAlike (Moved place.offset n m))
      (rawFrom [] 0 (place.front ++ [(some place.left, place.leftSlice)]))
      (rawFrom [] 0 (place.front ++ [(some place.left, place.leftSlice)])) :=
    rawFrom_alike hpaired .nil
  have hlayout := layout_alike (List.rel_reverse hraw) Layout.Alike.initial
  rw [place.reached] at hlayout
  cases hlayout with
  | ok hstate => exact hstate

end Passes

theorem left_word {left : Lexeme} {last : Option RawToken} {written kind : TokenKind}
    {keyword : Keyword} {spelling : String} (hne : keyword ≠ .isNot)
    (hspelling : ∀ entry ∈ keywords, entry.2 = keyword → entry.1 = spelling)
    (hwritten : rawToken last (some left) = some (.kw written))
    (hcases : kind = written ∨ written = .keyword .not ∧ kind = .keyword .isNot)
    (hkind : kind = .keyword keyword) : left = .word spelling.toList := by
  rcases hcases with rfl | ⟨-, hnot⟩
  · rw [hkind] at hwritten
    exact word_of_keyword hspelling hwritten
  · rw [hnot] at hkind
    exact absurd (TokenKind.keyword.inj hkind).symm hne

theorem Place.kinds_broken (place : Place identifiers src)
    (h : (kinds identifiers src).isSome = true) (lineBreak : LineBreak) {width : Nat}
    (hwidth : place.state.logicalIndent < width)
    (hfirst : ¬ (place.left = .word "take".toList ∧ place.right = .word "first".toList)) :
    kinds identifiers (place.broken lineBreak width) = kinds identifiers src := by
  obtain ⟨hleading, hruns⟩ := kinds_isSome h
  obtain ⟨hleading', hruns', hmatched'⟩ := place.broken_scanned h lineBreak width
  obtain ⟨last, written, kind, span, rest, hwritten, hbefore, hcases⟩ :=
    rawFrom_left place.leftToken place.front place.leftSlice
  obtain ⟨kindR, hright⟩ := rawToken_isToken place.rightToken (some (.kw kind))
  have hright' : rawToken (some (.lineStart width)) (some place.right) = some (.kw kindR) := by
    rw [← hright]
    refine rawToken_congr ?_
    intro hword
    refine ⟨by rintro ⟨⟩, ?_⟩
    intro htake
    have hkind : kind = .keyword .take := RawToken.kw.inj (Option.some.inj htake)
    exact hfirst ⟨left_word (by decide) (by decide) hwritten hcases hkind, hword⟩
  have hapart : kindR = .keyword .not → kind ≠ .keyword .is := by
    rintro rfl his
    exact place.apart ⟨left_word (by decide) (by decide) hwritten hcases his,
      word_of_keyword (by decide) hright⟩
  have hsrc := place.raw_src hbefore hright hapart rfl rfl
  have hbroken := place.raw_broken h lineBreak hbefore hright' rfl rfl
  generalize hn : byteLen place.spaces = n at hsrc
  generalize hm : byteLen (lineBreak.slice width) = m at hbroken
  have hblank : isBlank (rawFrom [(.kw kindR, ⟨place.offset + m,
      place.offset + m + byteLen place.rightSlice⟩)]
        (place.offset + m + byteLen place.rightSlice) place.back).reverse = false := by
    obtain ⟨later, kind', span', hfirst, -⟩ := rawFrom_first kindR ⟨place.offset + m,
      place.offset + m + byteLen place.rightSlice⟩
        (place.offset + m + byteLen place.rightSlice) place.back
    rw [hfirst, List.reverse_append]
    rfl
  have hspan : SpanAlike (Moved place.offset m n)
      ⟨place.offset + m, place.offset + m + byteLen place.rightSlice⟩
      ⟨place.offset + n, place.offset + n + byteLen place.rightSlice⟩ :=
    ⟨.inr ⟨0, rfl, rfl⟩, .inr ⟨_, rfl, rfl⟩⟩
  have hlayout : ResultAlike (Moved place.offset m n)
      (layout (tokenizeRaw identifiers (place.broken lineBreak width)) .initial)
      (layout (tokenizeRaw identifiers src) .initial) := by
    rw [hsrc, hbroken, place.layout_behind hbefore, place.layout_behind hbefore,
      layout_suspended (place.suspends hwidth) _ hblank]
    refine layout_alike (List.rel_reverse ?_) place.state_alike
    exact rawFrom_alike (paired_back _ _) (.cons ⟨rfl, hspan⟩ .nil)
  obtain ⟨hlength, hspaces⟩ := place.byteLen_src h
  have hlength' := place.byteLen_broken lineBreak width
  rw [hn] at hlength hspaces
  rw [hm] at hlength'
  have hbreak : 0 < m := by
    obtain ⟨c, cs, hcs, -⟩ := lineBreak.head width
    rw [← hm, hcs]
    exact byteLen_pos (by simp)
  exact kinds_eq_of_alike (moved_inj hbreak hspaces) hleading' hleading hruns' hruns hlayout
    (.inr ⟨_, hlength', hlength⟩)

theorem wordToKind_first : wordToKind "first".toList = .keyword .first := by decide +kernel

theorem Place.kinds_broken_first (place : Place identifiers src)
    (h : (kinds identifiers src).isSome = true) (lineBreak : LineBreak) (width : Nat)
    (hleft : place.left = .word "take".toList) (hright : place.right = .word "first".toList) :
    kinds identifiers (place.broken lineBreak width) ≠ kinds identifiers src := by
  obtain ⟨last, written, kind, span, rest, hwritten, hbefore, hcases⟩ :=
    rawFrom_left place.leftToken place.front place.leftSlice
  obtain rfl : kind = .keyword .take := by
    rw [hleft] at hwritten
    obtain rfl : TokenKind.keyword .take = written := RawToken.kw.inj (Option.some.inj hwritten)
    rcases hcases with hkind | ⟨hnot, -⟩
    · exact hkind
    · cases hnot
  have hfirst : rawToken (some (.kw (.keyword .take))) (some place.right) =
      some (.kw (.keyword .first)) := by
    rw [hright, rawToken, wordToKind_first]
    rfl
  have hname : rawToken (some (.lineStart width)) (some place.right) =
      some (.kw (.ident "first".toList)) := by
    rw [hright, rawToken, wordToKind_first]
    rfl
  have hsrc := place.raw_src hbefore hfirst (by rintro ⟨⟩) rfl rfl
  have hbroken := place.raw_broken h lineBreak hbefore hname rfl rfl
  obtain ⟨tokens, htokens⟩ := Option.isSome_iff_exists.mp h
  intro hsame
  have hcontents := (kinds_contents htokens).symm.trans (kinds_contents (hsame.trans htokens))
  obtain ⟨later, kind, span', hlater, hkept⟩ := rawFrom_first (.keyword .first)
    ⟨place.offset + byteLen place.spaces,
      place.offset + byteLen place.spaces + byteLen place.rightSlice⟩
    (place.offset + byteLen place.spaces + byteLen place.rightSlice) place.back
  obtain ⟨later', kind', span'', hlater', hkept'⟩ := rawFrom_first (.ident "first".toList)
    ⟨place.offset + byteLen (lineBreak.slice width),
      place.offset + byteLen (lineBreak.slice width) + byteLen place.rightSlice⟩
    (place.offset + byteLen (lineBreak.slice width) + byteLen place.rightSlice) place.back
  obtain rfl := hkept (by rintro ⟨⟩)
  obtain rfl := hkept' (by rintro ⟨⟩)
  rw [hsrc, hbroken, hlater, hlater', contents_append, contents_append, List.reverse_append,
    List.reverse_append, contents_lineStart] at hcontents
  have htail := List.append_cancel_left hcontents
  rw [List.reverse_singleton, List.reverse_singleton, List.singleton_append,
    List.singleton_append, contents_kw rfl, contents_kw rfl] at htail
  exact absurd (List.cons.inj htail).1 (by rintro ⟨⟩)

/-- A break inside a bracket or behind a comma is not layout, but between `take` and
`first` it is. -/
theorem kinds_broken_iff (place : Place identifiers src)
    (h : (kinds identifiers src).isSome = true) (lineBreak : LineBreak) {width : Nat}
    (hwidth : place.state.logicalIndent < width) :
    kinds identifiers (place.broken lineBreak width) = kinds identifiers src ↔
      ¬ (place.left = .word "take".toList ∧ place.right = .word "first".toList) := by
  constructor
  · rintro hsame ⟨hleft, hright⟩
    exact place.kinds_broken_first h lineBreak width hleft hright hsame
  · exact place.kinds_broken h lineBreak hwidth

def sumPlace : Place asciiIdentifiers "(a + b)".toList where
  front := (matched asciiIdentifiers "(a + b)".toList).take 1
  left := .word "a".toList
  leftSlice := "a".toList
  spaces := " ".toList
  right := .symbol .plus
  rightSlice := "+".toList
  back := (matched asciiIdentifiers "(a + b)".toList).drop 4
  state := ⟨[⟨.ident "a".toList, ⟨1, 2⟩⟩, ⟨.symbol .lParen, ⟨0, 1⟩⟩], [0], 1, 0⟩
  cut := by decide +kernel
  leftToken := rfl
  rightToken := rfl
  apart := by decide
  reached := by decide +kernel
  goesOn := .inl (by decide)

theorem kinds_broken_sum :
    kinds asciiIdentifiers (sumPlace.broken .crlf 2) =
      kinds asciiIdentifiers "(a + b)".toList :=
  (kinds_broken_iff sumPlace (by decide +kernel) .crlf (by decide)).mpr (by decide)

def firstPlace : Place asciiIdentifiers "(take first 2 of xs)".toList where
  front := (matched asciiIdentifiers "(take first 2 of xs)".toList).take 1
  left := .word "take".toList
  leftSlice := "take".toList
  spaces := " ".toList
  right := .word "first".toList
  rightSlice := "first".toList
  back := (matched asciiIdentifiers "(take first 2 of xs)".toList).drop 4
  state := ⟨[⟨.keyword .take, ⟨1, 5⟩⟩, ⟨.symbol .lParen, ⟨0, 1⟩⟩], [0], 1, 0⟩
  cut := by decide +kernel
  leftToken := rfl
  rightToken := rfl
  apart := by decide
  reached := by decide +kernel
  goesOn := .inl (by decide)

theorem kinds_broken_take :
    (kinds asciiIdentifiers "(take first 2 of xs)".toList).isSome = true ∧
      firstPlace.state.logicalIndent < 2 ∧
      kinds asciiIdentifiers (firstPlace.broken .lf 2) ≠
        kinds asciiIdentifiers "(take first 2 of xs)".toList := by
  decide +kernel

end Places

end Lexer
end Zdeceptron
