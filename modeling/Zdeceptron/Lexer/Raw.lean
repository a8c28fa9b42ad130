import Zdeceptron.Library.Lines
import Zdeceptron.Lexer.Token
import Zdeceptron.Store.Value

/-!
# The raw pass

The lexeme rules cut a text into matched slices, longest match first.  The raw pass
drops spaces and comments, keeps every line start with its width, and merges or demotes
a word by the raw token before it.
-/

namespace Zdeceptron
namespace Lexer

open Library
open Store (isWhitespace)

section Rules

def separates (c : Char) : Bool :=
  isWhitespace c || "+-*/<>,.()[]\"#".toList.contains c

/-- The characters an identifier starts and goes on with.  It may go on with what it
may start with, and with nothing that has a rule of its own. -/
structure Identifiers where
  isStart : Char → Bool
  isContinue : Char → Bool
  goesOn : ∀ c, isStart c = true → isContinue c = true
  plain : ∀ c, isContinue c = true → separates c = false

def asciiIdentifiers : Identifiers where
  isStart c := c.isAlpha
  isContinue c := c.isAlphanum || decide (c = '_')
  goesOn := by
    intro c hc
    simp [Char.isAlphanum, hc]
  plain := by
    have hsmall : ∀ n < 128, ((Char.ofNat n).isAlphanum || decide (Char.ofNat n = '_')) = true →
        separates (Char.ofNat n) = false := by decide
    intro c hc
    have hlt : c.toNat < 128 := by
      rw [Bool.or_eq_true, decide_eq_true_eq] at hc
      rcases hc with hc | rfl
      · have hrange := isAlphanum_iff.mp hc
        omega
      · decide
    rw [← Char.ofNat_toNat c] at hc ⊢
    exact hsmall c.toNat hlt hc

inductive Lexeme
  | lineStart (width : Nat)
  | space
  | comment
  | number (value : Float)
  | text (value : List Char)
  | word (word : List Char)
  | symbol (symbol : Symbol)
deriving DecidableEq

def isSpace (c : Char) : Bool := decide (c = ' ')

def endsComment (c : Char) : Bool := decide (c = '\n') || decide (c = '\r')

end Rules

section Numbers

def codes (text : List Char) : List Nat := text.map Char.toNat

def roundedQuotient (n d : Nat) : Nat :=
  if 2 * (n % d) < d ∨ (2 * (n % d) = d ∧ n / d % 2 = 0) then n / d else n / d + 1

def held (value : Float) : Option (List Nat) :=
  match value.toModel.unpack with
  | .zero .negative => some [45, 48]
  | .zero .positive => some [48]
  | .finite .negative m e _ => some (45 :: digitCodes (whole m e))
  | .finite .positive m e _ => some (digitCodes (whole m e))
  | _ => none
where
  whole (m : Nat) (e : Int) : Nat :=
    if 0 ≤ e then m * 2 ^ e.toNat else roundedQuotient m (2 ^ (-e).toNat)

def exactlyHolds (digits : List Nat) (value : Float) : Bool :=
  let written := digits.dropWhile (fun d => decide (d = 48))
  decide (held value = some (if written = [] then [48] else written))

/-- A numeric literal, refused when it is a whole number the value cannot hold. -/
def number (text : List Char) : Option Float :=
  let value := ofDecimal (readUnsigned (codes text)).1
  if '.' ∈ text then some value
  else if exactlyHolds (codes text) value then some value
  else none

def digits (cs : List Char) : List Char × List Char :=
  match cs.dropWhile Char.isDigit with
  | '.' :: d :: rest =>
      if d.isDigit then
        (cs.takeWhile Char.isDigit ++ '.' :: (d :: rest).takeWhile Char.isDigit,
          (d :: rest).dropWhile Char.isDigit)
      else (cs.takeWhile Char.isDigit, '.' :: d :: rest)
  | rest => (cs.takeWhile Char.isDigit, rest)

end Numbers

section Texts

def escapes : List (Char × Char) := [('n', '\n'), ('t', '\t'), ('"', '"'), ('\\', '\\')]

def unescape : List Char → Option (List Char)
  | [] => some []
  | c :: cs =>
      if c = '\\' then
        match cs with
        | [] => none
        | written :: rest =>
            match escapes.find? (fun escape => decide (escape.1 = written)) with
            | none => none
            | some escape => (unescape rest).map (escape.2 :: ·)
      else (unescape cs).map (c :: ·)

def closeLine : Bool → List Char → Option (List Char × List Char)
  | _, [] => none
  | true, c :: cs => (closeLine false cs).map (fun p => (c :: p.1, p.2))
  | false, c :: cs =>
      if c = '\\' then (closeLine true cs).map (fun p => (c :: p.1, p.2))
      else if endsComment c then none
      else if c = '"' then some ([], cs)
      else (closeLine false cs).map (fun p => (c :: p.1, p.2))

def closeBlock : List Char → Option (List Char × List Char)
  | [] => none
  | c :: cs =>
      match c, cs with
      | '"', '"' :: '"' :: rest => some ([], rest)
      | _, _ => (closeBlock cs).map (fun p => (c :: p.1, p.2))

def dedentLine (margin line : List Char) : Option (List Char) :=
  if margin.isPrefixOf line then some (line.drop margin.length)
  else if line.all isSpace then some []
  else none

/-- The lines of a block literal, with the closing delimiter's indentation removed from
each. -/
def dedentBlock (body : List Char) : Option (List Char) :=
  match (splitLines body).map stripReturn with
  | [] => none
  | [_] => none
  | first :: line :: lines =>
      let margin := (line :: lines).getLast (by simp)
      if first.all isSpace && margin.all isSpace then
        ((line :: lines).dropLast.mapM (dedentLine margin)).map (List.intercalate ['\n'])
      else none

end Texts

section Scan

variable (identifiers : Identifiers)

def symbolAt : List Char → Option (Symbol × List Char)
  | '+' :: rest => some (.plus, rest)
  | '-' :: rest => some (.minus, rest)
  | '*' :: rest => some (.star, rest)
  | '/' :: rest => some (.slash, rest)
  | '<' :: '=' :: rest => some (.lessEq, rest)
  | '>' :: '=' :: rest => some (.greaterEq, rest)
  | '<' :: rest => some (.less, rest)
  | '>' :: rest => some (.greater, rest)
  | ',' :: rest => some (.comma, rest)
  | '.' :: rest => some (.dot, rest)
  | '(' :: rest => some (.lParen, rest)
  | ')' :: rest => some (.rParen, rest)
  | '[' :: rest => some (.lBracket, rest)
  | ']' :: rest => some (.rBracket, rest)
  | _ => none

/-- The lexeme at the front of a text, or that there is none, and what follows the
bytes it took. -/
def scan (c : Char) (cs : List Char) : Option Lexeme × List Char :=
  if c = '\n' then
    (some (.lineStart (cs.takeWhile isSpace).length), cs.dropWhile isSpace)
  else if c = '\r' then
    match cs with
    | '\n' :: rest =>
        (some (.lineStart (rest.takeWhile isSpace).length), rest.dropWhile isSpace)
    | _ => (none, cs)
  else if c = ' ' then (some .space, cs.dropWhile isSpace)
  else if c = '#' then (some .comment, cs.dropWhile (fun c => !endsComment c))
  else if c.isDigit then
    ((number (digits (c :: cs)).1).map .number, (digits (c :: cs)).2)
  else if c = '"' then
    match cs with
    | '"' :: '"' :: rest =>
        match closeBlock rest with
        | none => (none, rest)
        | some (body, after) => ((dedentBlock body).map .text, after)
    | _ =>
        match closeLine false cs with
        | none => (none, cs)
        | some (body, after) => ((unescape body).map .text, after)
  else if identifiers.isStart c || decide (c = '_') then
    (some (.word (c :: cs.takeWhile identifiers.isContinue)),
      cs.dropWhile identifiers.isContinue)
  else
    match symbolAt (c :: cs) with
    | none => (none, cs)
    | some (symbol, rest) => (some (.symbol symbol), rest)

def matchedWithin : Nat → List Char → List (Option Lexeme × List Char)
  | 0, _ => []
  | _, [] => []
  | fuel + 1, c :: cs =>
      let result := scan identifiers c cs
      (result.1, (c :: cs).take ((c :: cs).length - result.2.length)) ::
        matchedWithin fuel result.2

def matched (src : List Char) : List (Option Lexeme × List Char) :=
  matchedWithin identifiers src.length src

end Scan

section Raw

inductive RawToken
  | kw (kind : TokenKind)
  | lineStart (width : Nat)
  | error
deriving DecidableEq

/-- `first` is a keyword after `take` only. -/
def demoteFirst (kind : TokenKind) (word : List Char) (last : Option RawToken) : TokenKind :=
  if kind = .keyword .first then
    if last = some (.kw (.keyword .take)) then kind else .ident word
  else kind

def rawToken (last : Option RawToken) : Option Lexeme → Option RawToken
  | none => some .error
  | some (.lineStart width) => some (.lineStart width)
  | some .space => none
  | some .comment => none
  | some (.number value) => some (.kw (.number value))
  | some (.text value) => some (.kw (.text value))
  | some (.word word) => some (.kw (demoteFirst (wordToKind word) word last))
  | some (.symbol symbol) => some (.kw (.symbol symbol))

/-- Add a raw token to the ones before it, newest first.  `is` followed by `not` is a
single operator. -/
def pushRaw (out : List (RawToken × Span)) (token : RawToken) (span : Span) :
    List (RawToken × Span) :=
  if token = .kw (.keyword .not) then
    match out with
    | (.kw (.keyword .is), isSpan) :: rest =>
        (.kw (.keyword .isNot), isSpan.to span) :: rest
    | _ => (token, span) :: out
  else (token, span) :: out

def rawFrom (out : List (RawToken × Span)) (offset : Nat) :
    List (Option Lexeme × List Char) → List (RawToken × Span)
  | [] => out
  | (lexeme, slice) :: rest =>
      let span : Span := ⟨offset, offset + byteLen slice⟩
      match rawToken (out.head?.map Prod.fst) lexeme with
      | none => rawFrom out span.stop rest
      | some token => rawFrom (pushRaw out token span) span.stop rest

def tokenizeRaw (identifiers : Identifiers) (src : List Char) : List (RawToken × Span) :=
  (rawFrom [] 0 (matched identifiers src)).reverse

end Raw

section Runs

def maxTokenChars : Nat := 1024

def skipInner (opener : Char) : Bool → List Char → List Char
  | _, [] => []
  | escaped, inner :: cs =>
      if inner = '\n' then cs
      else if escaped then skipInner opener false cs
      else if opener = '"' && decide (inner = '\\') then skipInner opener true cs
      else if inner = (if opener = '#' then '\n' else '"') then cs
      else skipInner opener false cs

def afterBlock : List Char → Option (List Char)
  | '"' :: '"' :: '"' :: body => (closeBlock body).map Prod.snd
  | _ => none

/-- Whether the run a text goes on with is too long, when it has so many characters so
far, with where it starts and how long it is. -/
def overLongWithin : Nat → List Char → Nat → Nat → Nat → Option (Span × Nat)
  | 0, _, _, _, _ => none
  | _, [], _, _, _ => none
  | fuel + 1, c :: cs, at', start, length =>
      let skipTo (rest : List Char) :=
        overLongWithin fuel rest (at' + byteLen (c :: cs) - byteLen rest) start 0
      match afterBlock (c :: cs) with
      | some after => skipTo after
      | none =>
          if c = '#' || c = '"' then skipTo (skipInner c false cs)
          else if separates c then skipTo cs
          else
            let start := if length = 0 then at' else start
            if length + 1 ≤ maxTokenChars then
              overLongWithin fuel cs (at' + c.utf8Size) start (length + 1)
            else
              let run := cs.takeWhile (fun next => !separates next)
              some (⟨start, at' + c.utf8Size + byteLen run⟩, length + 1 + run.length)

def overLongRun (src : List Char) : Option (Span × Nat) :=
  overLongWithin src.length src 0 0 0

end Runs

end Lexer
end Zdeceptron
