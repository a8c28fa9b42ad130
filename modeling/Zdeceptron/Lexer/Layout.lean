import Zdeceptron.Lexer.Raw

/-!
# The layout pass

Line starts become `Newline`, `Indent` and `Dedent`.  While a bracket is open, and after
a comma, a line indented further than the logical line is no line of its own.
-/

namespace Zdeceptron
namespace Lexer

section Errors

inductive Reason
  | indentedFirstLine
  | overLongRun (length : Nat)
  | invalidCharacter
  | unmatchedIndent (width : Nat)
  | exponentLiteral
deriving DecidableEq

structure LexError where
  reason : Reason
  span : Span
deriving DecidableEq

def leadingIndentation (src : List Char) : Option Nat :=
  let width := (src.takeWhile isSpace).length
  if width = 0 then none
  else
    match src.dropWhile isSpace with
    | [] => none
    | c :: _ => if c = '\n' then none else some width

/-- Whether a name written right behind a number makes it an exponent literal. -/
def isExponent : List Char → Bool
  | [] => false
  | c :: cs => (decide (c = 'e') || decide (c = 'E')) && cs.all Char.isDigit

def exponentLiteral : List Token → Option LexError
  | number :: next :: tokens =>
      match number.kind, next.kind with
      | .number _, .ident name =>
          if next.span.start = number.span.stop ∧ isExponent name then
            some ⟨.exponentLiteral, number.span.to next.span⟩
          else exponentLiteral (next :: tokens)
      | _, _ => exponentLiteral (next :: tokens)
  | _ => none

end Errors

section Layout

/-- The state of the pass: the tokens so far, newest first, the indentations of the
open blocks, innermost first, the brackets open and the indentation of the line the
logical line began on. -/
structure Layout where
  out : List Token
  levels : List Nat
  openBrackets : Nat
  logicalIndent : Nat
deriving DecidableEq

def Layout.initial : Layout := ⟨[], [0], 0, 0⟩

def Layout.content (st : Layout) (kind : TokenKind) (span : Span) : Layout where
  out := ⟨kind, span⟩ :: st.out
  levels := st.levels
  openBrackets :=
    match kind with
    | .symbol .lParen => st.openBrackets + 1
    | .symbol .lBracket => st.openBrackets + 1
    | .symbol .rParen => st.openBrackets - 1
    | .symbol .rBracket => st.openBrackets - 1
    | _ => st.openBrackets
  logicalIndent := st.logicalIndent

def Layout.continued (st : Layout) : Bool :=
  st.out.head?.any (fun token => decide (token.kind = .symbol .comma))

def Layout.suspends (st : Layout) (width : Nat) : Bool :=
  (decide (0 < st.openBrackets) || st.continued) && decide (st.logicalIndent < width)

def closeLevels (width : Nat) (span : Span) : List Nat → List Token → List Nat × List Token
  | [], out => ([], out)
  | level :: levels, out =>
      if width < level then closeLevels width span levels (⟨.dedent, span⟩ :: out)
      else (level :: levels, out)

def Layout.lineStart (st : Layout) (width : Nat) (span : Span) : Except LexError Layout :=
  if st.suspends width then .ok st
  else
    let out := if st.out = [] then [] else ⟨.newline, span⟩ :: st.out
    let current := st.levels.headD 0
    if current < width then .ok ⟨⟨.indent, span⟩ :: out, width :: st.levels, 0, width⟩
    else if width < current then
      let closed := closeLevels width span st.levels out
      if closed.1.headD 0 = width then .ok ⟨closed.2, closed.1, 0, width⟩
      else .error ⟨.unmatchedIndent width, span⟩
    else .ok ⟨out, st.levels, 0, width⟩

def isBlank : List (RawToken × Span) → Bool
  | [] => true
  | (.lineStart _, _) :: _ => true
  | _ => false

def layout : List (RawToken × Span) → Layout → Except LexError Layout
  | [], st => .ok st
  | (.error, span) :: _, _ => .error ⟨.invalidCharacter, span⟩
  | (.kw kind, span) :: rest, st => layout rest (st.content kind span)
  | (.lineStart width, span) :: rest, st =>
      if isBlank rest then layout rest st
      else
        match st.lineStart width span with
        | .error error => .error error
        | .ok st => layout rest st

/-- Close the file: one `Newline`, then one `Dedent` per open level. -/
def Layout.finish (st : Layout) (eof : Span) : List Token :=
  (⟨.eof, eof⟩ :: (List.replicate (st.levels.length - 1) ⟨.dedent, eof⟩ ++
    if st.out = [] then [] else ⟨.newline, eof⟩ :: st.out)).reverse

def tokenize (identifiers : Identifiers) (src : List Char) : Except LexError (List Token) :=
  match leadingIndentation src with
  | some width => .error ⟨.indentedFirstLine, ⟨0, width⟩⟩
  | none =>
      match overLongRun src with
      | some (span, length) => .error ⟨.overLongRun length, span⟩
      | none =>
          match layout (tokenizeRaw identifiers src) .initial with
          | .error error => .error error
          | .ok st =>
              let tokens := st.finish ⟨byteLen src, byteLen src⟩
              match exponentLiteral tokens with
              | some error => .error error
              | none => .ok tokens

end Layout

end Lexer
end Zdeceptron
