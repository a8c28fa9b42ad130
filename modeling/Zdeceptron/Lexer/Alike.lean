import Mathlib.Data.List.Forall2
import Zdeceptron.Lexer.Layout

/-!
# Texts that are read alike

The passes look at a span for one thing only: whether a name starts where a number
stops.  Two texts with the same lexemes, whose slice ends correspond, get the same kinds
of token.
-/

namespace Zdeceptron
namespace Lexer

section Kinds

/-- The kinds of a text's tokens, if it has no error. -/
def kinds (identifiers : Identifiers) (src : List Char) : Option (List TokenKind) :=
  (tokenize identifiers src).toOption.map (·.map Token.kind)

end Kinds

section Raw

variable {R : Nat → Nat → Prop}

def SpanAlike (R : Nat → Nat → Prop) (span span' : Span) : Prop :=
  R span.start span'.start ∧ R span.stop span'.stop

def RawAlike (R : Nat → Nat → Prop) (raw raw' : RawToken × Span) : Prop :=
  raw.1 = raw'.1 ∧ SpanAlike R raw.2 raw'.2

/-- The same lexemes with slices whose ends correspond. -/
inductive Paired (R : Nat → Nat → Prop) :
    Nat → Nat → List (Option Lexeme × List Char) → List (Option Lexeme × List Char) → Prop
  | nil {offset offset' : Nat} : R offset offset' → Paired R offset offset' [] []
  | cons {offset offset' : Nat} {lexeme : Option Lexeme} {slice slice' : List Char}
      {ms ms' : List (Option Lexeme × List Char)} : R offset offset' →
      Paired R (offset + byteLen slice) (offset' + byteLen slice') ms ms' →
      Paired R offset offset' ((lexeme, slice) :: ms) ((lexeme, slice') :: ms')

variable {ms ms' : List (Option Lexeme × List Char)} {offset offset' : Nat}

theorem Paired.start (h : Paired R offset offset' ms ms') : R offset offset' := by
  cases h with
  | nil h => exact h
  | cons h _ => exact h

variable {out out' : List (RawToken × Span)}

theorem head_alike (h : List.Forall₂ (RawAlike R) out out') :
    out.head?.map Prod.fst = out'.head?.map Prod.fst := by
  cases h with
  | nil => rfl
  | cons hraw _ => exact congrArg some hraw.1

theorem pushRaw_merge (isSpan span : Span) (rest : List (RawToken × Span)) :
    pushRaw ((.kw (.keyword .is), isSpan) :: rest) (.kw (.keyword .not)) span =
      (.kw (.keyword .isNot), isSpan.to span) :: rest := rfl

variable {token : RawToken}

theorem pushRaw_keep {out : List (RawToken × Span)} {span : Span}
    (h : token = .kw (.keyword .not) → out.head?.map Prod.fst ≠ some (.kw (.keyword .is))) :
    pushRaw out token span = (token, span) :: out := by
  unfold pushRaw
  split_ifs with htoken
  · split
    · exact absurd rfl (h htoken)
    · rfl
  · rfl

theorem pushRaw_alike {span span' : Span}
    (h : List.Forall₂ (RawAlike R) out out') (hspan : SpanAlike R span span') :
    List.Forall₂ (RawAlike R) (pushRaw out token span) (pushRaw out' token span') := by
  by_cases hmerge : token = .kw (.keyword .not) ∧
      out.head?.map Prod.fst = some (.kw (.keyword .is))
  · obtain ⟨rfl, hhead⟩ := hmerge
    cases h with
    | nil => cases hhead
    | @cons raw raw' rest rest' hraw hrest =>
        obtain ⟨kind, spans⟩ := raw
        obtain ⟨kind', spans'⟩ := raw'
        obtain ⟨rfl, hstart, -⟩ := hraw
        obtain rfl := Option.some.inj hhead
        exact .cons ⟨rfl, hstart, hspan.2⟩ hrest
  · rw [not_and] at hmerge
    rw [pushRaw_keep hmerge, pushRaw_keep (head_alike h ▸ hmerge)]
    exact .cons ⟨rfl, hspan⟩ h

theorem rawFrom_alike (hms : Paired R offset offset' ms ms')
    (h : List.Forall₂ (RawAlike R) out out') :
    List.Forall₂ (RawAlike R) (rawFrom out offset ms) (rawFrom out' offset' ms') := by
  induction hms generalizing out out' with
  | nil _ => exact h
  | @cons offset offset' lexeme slice slice' ms ms' hstart hrest ih =>
      rw [rawFrom, rawFrom, head_alike h]
      split
      · exact ih h
      · exact ih (pushRaw_alike h ⟨hstart, hrest.start⟩)

theorem error_mem_pushRaw {out : List (RawToken × Span)} {span : Span}
    (h : ∃ raw ∈ out, raw.1 = .error) : ∃ raw ∈ pushRaw out token span, raw.1 = .error := by
  obtain ⟨raw, hraw, herror⟩ := h
  unfold pushRaw
  split_ifs
  · split
    · rename_i isSpan rest
      rcases List.mem_cons.mp hraw with rfl | hraw
      · cases herror
      · exact ⟨raw, List.mem_cons_of_mem _ hraw, herror⟩
    · exact ⟨raw, List.mem_cons_of_mem _ hraw, herror⟩
  · exact ⟨raw, List.mem_cons_of_mem _ hraw, herror⟩

theorem error_mem_rawFrom {ms : List (Option Lexeme × List Char)} (offset : Nat)
    (out : List (RawToken × Span)) (h : (∃ raw ∈ out, raw.1 = .error) ∨ ∃ m ∈ ms, m.1 = none) :
    ∃ raw ∈ rawFrom out offset ms, raw.1 = .error := by
  induction ms generalizing offset out with
  | nil => exact h.resolve_right (by simp)
  | cons m ms ih =>
      obtain ⟨lexeme, slice⟩ := m
      rw [rawFrom]
      rcases h with hout | ⟨m, hm, hnone⟩
      · split
        · exact ih _ _ (.inl hout)
        · exact ih _ _ (.inl (error_mem_pushRaw hout))
      · rcases List.mem_cons.mp hm with rfl | hm
        · obtain rfl : lexeme = none := hnone
          refine ih _ _ (.inl ?_)
          rw [pushRaw_keep (by rintro ⟨⟩)]
          exact ⟨_, List.mem_cons_self, rfl⟩
        · split
          · exact ih _ _ (.inr ⟨m, hm, hnone⟩)
          · exact ih _ _ (.inr ⟨m, hm, hnone⟩)

end Raw

section Layout

variable {R : Nat → Nat → Prop}

def TokenAlike (R : Nat → Nat → Prop) (token token' : Token) : Prop :=
  token.kind = token'.kind ∧ SpanAlike R token.span token'.span

/-- States that differ in the spans only. -/
structure Layout.Alike (R : Nat → Nat → Prop) (st st' : Layout) : Prop where
  out : List.Forall₂ (TokenAlike R) st.out st'.out
  levels : st.levels = st'.levels
  openBrackets : st.openBrackets = st'.openBrackets
  logicalIndent : st.logicalIndent = st'.logicalIndent

theorem Layout.Alike.initial : Layout.Alike R .initial .initial := ⟨.nil, rfl, rfl, rfl⟩

variable {st st' : Layout} {span span' : Span}

theorem Layout.Alike.content (h : Layout.Alike R st st') (kind : TokenKind)
    (hspan : SpanAlike R span span') :
    Layout.Alike R (st.content kind span) (st'.content kind span') where
  out := .cons ⟨rfl, hspan⟩ h.out
  levels := h.levels
  openBrackets := by
    unfold Layout.content
    rw [h.openBrackets]
  logicalIndent := h.logicalIndent

theorem continued_alike {out out' : List Token} (h : List.Forall₂ (TokenAlike R) out out') :
    out.head?.any (fun token => decide (token.kind = .symbol .comma)) =
      out'.head?.any (fun token => decide (token.kind = .symbol .comma)) := by
  cases h with
  | nil => rfl
  | cons htoken _ => simp only [List.head?_cons, Option.any_some, htoken.1]

theorem Layout.Alike.suspends (h : Layout.Alike R st st') (width : Nat) :
    st.suspends width = st'.suspends width := by
  have hcontinued : st.continued = st'.continued := continued_alike h.out
  unfold Layout.suspends
  rw [hcontinued, h.openBrackets, h.logicalIndent]

theorem closeLevels_alike (width : Nat) (hspan : SpanAlike R span span') (levels : List Nat)
    {out out' : List Token} (h : List.Forall₂ (TokenAlike R) out out') :
    (closeLevels width span levels out).1 = (closeLevels width span' levels out').1 ∧
      List.Forall₂ (TokenAlike R) (closeLevels width span levels out).2
        (closeLevels width span' levels out').2 := by
  induction levels generalizing out out' with
  | nil => exact ⟨rfl, h⟩
  | cons level levels ih =>
      rw [closeLevels, closeLevels]
      split
      · exact ih (.cons ⟨rfl, hspan⟩ h)
      · exact ⟨rfl, h⟩

inductive ResultAlike (R : Nat → Nat → Prop) :
    Except LexError Layout → Except LexError Layout → Prop
  | error (error error' : LexError) : ResultAlike R (.error error) (.error error')
  | ok {st st' : Layout} : Layout.Alike R st st' → ResultAlike R (.ok st) (.ok st')

theorem nil_iff_of_alike {out out' : List Token} (h : List.Forall₂ (TokenAlike R) out out') :
    out = [] ↔ out' = [] := by
  cases h with
  | nil => exact Iff.rfl
  | cons _ _ => simp

theorem newline_alike {out out' : List Token} (h : List.Forall₂ (TokenAlike R) out out')
    (hspan : SpanAlike R span span') :
    List.Forall₂ (TokenAlike R) (if out = [] then [] else ⟨.newline, span⟩ :: out)
      (if out' = [] then [] else ⟨.newline, span'⟩ :: out') := by
  simp only [nil_iff_of_alike h]
  split
  · exact .nil
  · exact .cons ⟨rfl, hspan⟩ h

theorem Layout.Alike.lineStart (h : Layout.Alike R st st') (width : Nat)
    (hspan : SpanAlike R span span') :
    ResultAlike R (st.lineStart width span) (st'.lineStart width span') := by
  have hout := newline_alike h.out hspan
  unfold Layout.lineStart
  simp only [h.suspends width, h.levels]
  generalize (if st.out = [] then [] else ⟨.newline, span⟩ :: st.out) = out at hout ⊢
  generalize (if st'.out = [] then [] else ⟨.newline, span'⟩ :: st'.out) = out' at hout ⊢
  have hclosed := closeLevels_alike width hspan st'.levels hout
  split
  · exact .ok h
  · split
    · exact .ok ⟨.cons ⟨rfl, hspan⟩ hout, rfl, rfl, rfl⟩
    · split
      · simp only [hclosed.1]
        split
        · exact .ok ⟨hclosed.2, rfl, rfl, rfl⟩
        · exact .error _ _
      · exact .ok ⟨hout, rfl, rfl, rfl⟩

variable {raws raws' : List (RawToken × Span)}

theorem isBlank_alike
    (h : List.Forall₂ (RawAlike R) raws raws') : isBlank raws = isBlank raws' := by
  cases h with
  | nil => rfl
  | @cons raw raw' _ _ hraw _ =>
      obtain ⟨token, span⟩ := raw
      obtain ⟨token', span'⟩ := raw'
      obtain ⟨rfl, -⟩ := hraw
      cases token <;> rfl

theorem layout_alike (hraws : List.Forall₂ (RawAlike R) raws raws') (h : Layout.Alike R st st') :
    ResultAlike R (layout raws st) (layout raws' st') := by
  induction hraws generalizing st st' with
  | nil => exact .ok h
  | @cons raw raw' rest rest' hraw hrest ih =>
      obtain ⟨token, span⟩ := raw
      obtain ⟨token', span'⟩ := raw'
      obtain ⟨rfl, hspan⟩ := hraw
      cases token with
      | error => exact .error _ _
      | kw kind => exact ih (h.content kind hspan)
      | lineStart width =>
          rw [layout, layout, isBlank_alike hrest]
          split
          · exact ih h
          · have hline := h.lineStart width hspan
            revert hline
            generalize st.lineStart width span = result
            generalize st'.lineStart width span' = result'
            intro hline
            cases hline with
            | error _ _ => exact .error _ _
            | ok hst => exact ih hst

theorem layout_error {raws : List (RawToken × Span)} (h : ∃ raw ∈ raws, raw.1 = .error)
    (st : Layout) : ∃ error, layout raws st = .error error := by
  induction raws generalizing st with
  | nil =>
      obtain ⟨raw, hraw, -⟩ := h
      exact absurd hraw List.not_mem_nil
  | cons raw raws ih =>
      obtain ⟨token, span⟩ := raw
      obtain ⟨other, hother, herror⟩ := h
      cases token with
      | error => exact ⟨_, rfl⟩
      | kw kind =>
          rcases List.mem_cons.mp hother with rfl | hother
          · cases herror
          · exact ih ⟨other, hother, herror⟩ _
      | lineStart width =>
          rcases List.mem_cons.mp hother with rfl | hother
          · cases herror
          · have hrest := ih ⟨other, hother, herror⟩
            rw [layout]
            split
            · exact hrest st
            · split
              · exact ⟨_, rfl⟩
              · exact hrest _

end Layout

section Tokens

variable {R : Nat → Nat → Prop}

variable {tokens tokens' : List Token}

theorem exponentLiteral_alike (hR : ∀ a b a' b', R a a' → R b b' → (a = b ↔ a' = b'))
    (h : List.Forall₂ (TokenAlike R) tokens tokens') :
    (exponentLiteral tokens).isSome = (exponentLiteral tokens').isSome := by
  induction h with
  | nil => rfl
  | @cons number number' rest rest' hnumber hrest ih =>
      cases hrest with
      | nil => rfl
      | @cons next next' rest rest' hnext hrest =>
          have hadjacent := hR _ _ _ _ hnext.2.1 hnumber.2.2
          rw [exponentLiteral, exponentLiteral, hnumber.1, hnext.1]
          simp only [hadjacent]
          split
          · split
            · rfl
            · exact ih
          · exact ih

theorem map_kind_alike (h : List.Forall₂ (TokenAlike R) tokens tokens') :
    tokens.map Token.kind = tokens'.map Token.kind := by
  induction h with
  | nil => rfl
  | cons htoken _ ih => rw [List.map_cons, List.map_cons, htoken.1, ih]

theorem Layout.Alike.finish {st st' : Layout} (h : Layout.Alike R st st') {eof eof' : Span}
    (heof : SpanAlike R eof eof') :
    List.Forall₂ (TokenAlike R) (st.finish eof) (st'.finish eof') := by
  unfold Layout.finish
  rw [h.levels]
  refine List.rel_reverse ?_
  refine .cons ⟨rfl, heof⟩ (List.rel_append ?_ (newline_alike h.out heof))
  induction st'.levels.length - 1 with
  | zero => exact .nil
  | succ n ih => exact .cons ⟨rfl, heof⟩ ih

variable {identifiers : Identifiers} {src : List Char}

theorem kinds_eq
    (hleading : leadingIndentation src = none) (hruns : overLongRun src = none) :
    kinds identifiers src =
      match layout (tokenizeRaw identifiers src) .initial with
      | .error _ => none
      | .ok st =>
          match exponentLiteral (st.finish ⟨byteLen src, byteLen src⟩) with
          | some _ => none
          | none => some ((st.finish ⟨byteLen src, byteLen src⟩).map Token.kind) := by
  unfold kinds tokenize
  rw [hleading, hruns]
  cases layout (tokenizeRaw identifiers src) .initial with
  | error error => rfl
  | ok st =>
      simp only
      cases exponentLiteral (st.finish ⟨byteLen src, byteLen src⟩) <;> rfl

theorem kinds_of_leading
    (h : (leadingIndentation src).isSome = true) : kinds identifiers src = none := by
  obtain ⟨width, hwidth⟩ := Option.isSome_iff_exists.mp h
  unfold kinds tokenize
  rw [hwidth]
  rfl

theorem kinds_of_overLong (h : (overLongRun src).isSome = true) : kinds identifiers src = none := by
  obtain ⟨run, hrun⟩ := Option.isSome_iff_exists.mp h
  cases hleading : leadingIndentation src with
  | some width => exact kinds_of_leading (by rw [hleading]; rfl)
  | none =>
      unfold kinds tokenize
      rw [hleading, hrun]
      rfl

theorem kinds_isSome (h : (kinds identifiers src).isSome = true) :
    leadingIndentation src = none ∧ overLongRun src = none := by
  constructor
  · by_contra hne
    rw [kinds_of_leading (Option.isSome_iff_ne_none.mpr hne)] at h
    cases h
  · by_contra hne
    rw [kinds_of_overLong (Option.isSome_iff_ne_none.mpr hne)] at h
    cases h

theorem kinds_of_error
    (h : ∃ m ∈ matched identifiers src, m.1 = none) : kinds identifiers src = none := by
  by_contra hne
  obtain ⟨hleading, hruns⟩ := kinds_isSome (Option.isSome_iff_ne_none.mpr hne)
  obtain ⟨raw, hraw, herror⟩ := error_mem_rawFrom 0 [] (.inr h)
  obtain ⟨error, hlayout⟩ := layout_error ⟨raw, List.mem_reverse.mpr hraw, herror⟩ .initial
  rw [kinds_eq hleading hruns, show layout (tokenizeRaw identifiers src) .initial = _ from hlayout]
    at hne
  exact hne rfl

theorem kinds_eq_of_alike {src src' : List Char}
    (hR : ∀ a b a' b', R a a' → R b b' → (a = b ↔ a' = b'))
    (hleading : leadingIndentation src = none) (hleading' : leadingIndentation src' = none)
    (hruns : overLongRun src = none) (hruns' : overLongRun src' = none)
    (hlayout : ResultAlike R (layout (tokenizeRaw identifiers src) .initial)
      (layout (tokenizeRaw identifiers src') .initial)) (heof : R (byteLen src) (byteLen src')) :
    kinds identifiers src = kinds identifiers src' := by
  rw [kinds_eq hleading hruns, kinds_eq hleading' hruns']
  revert hlayout
  generalize layout (tokenizeRaw identifiers src) .initial = result
  generalize layout (tokenizeRaw identifiers src') .initial = result'
  intro hlayout
  cases hlayout with
  | error _ _ => rfl
  | @ok st st' hst =>
      have htokens := hst.finish (show SpanAlike R ⟨byteLen src, byteLen src⟩
        ⟨byteLen src', byteLen src'⟩ from ⟨heof, heof⟩)
      have hexponent := exponentLiteral_alike hR htokens
      have hkinds := map_kind_alike htokens
      simp only
      cases he : exponentLiteral (st.finish ⟨byteLen src, byteLen src⟩) with
      | some error =>
          rw [he, Option.isSome_some, eq_comm, Option.isSome_iff_exists] at hexponent
          obtain ⟨error', he'⟩ := hexponent
          rw [he']
      | none =>
          rw [he, Option.isSome_none, eq_comm, Option.isSome_eq_false_iff,
            Option.isNone_iff_eq_none] at hexponent
          rw [hexponent, hkinds]

end Tokens

end Lexer
end Zdeceptron
