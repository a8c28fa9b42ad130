import Zdeceptron.Library.Loop
import Zdeceptron.Library.Utf8

/-!
# Minifying a script and a stylesheet

Both scanners walk the bytes of their source and copy slices of it, dropping comments and
runs of white space.  A slice that does not start and end between two characters stops the
build, and here gives `none`.
-/

namespace Zdeceptron
namespace Minify

open Library
open Library.Utf8 (bytes slice after)

section Bytes

def isAlphabetic (byte : Nat) : Bool :=
  decide (65 ≤ byte ∧ byte ≤ 90) || decide (97 ≤ byte ∧ byte ≤ 122)

def isDigit (byte : Nat) : Bool := decide (48 ≤ byte ∧ byte ≤ 57)

def isWord (byte : Nat) : Bool :=
  isAlphabetic byte || isDigit byte || decide (byte = '_'.toNat) || decide (byte = '$'.toNat) ||
    decide (byte = '\\'.toNat) || decide (126 < byte)

def isAsciiWhitespace (byte : Nat) : Bool :=
  decide (byte ∈ [0x20, 0x09, 0x0A, 0x0C, 0x0D])

/-- The length in bytes of the character starting at `start`. -/
def charLen (source : List Char) (start : Nat) : Option Nat :=
  (after source start).map (fun rest =>
    match rest with
    | c :: _ => (Utf8.charBytes c).length
    | [] => 1)

/-- Where the bytes `pattern` are first found, counted from the start of `text`. -/
def find (pattern : List Char) : List Char → Option Nat
  | [] => if pattern = [] then some 0 else none
  | c :: text =>
      if pattern.isPrefixOf (c :: text) then some 0
      else (find pattern text).map ((Utf8.charBytes c).length + ·)

end Bytes

section Literals

/-- `string_end` from the byte `i`, of which `rest` are the bytes. -/
def stringEndFrom (quote : Nat) : List Nat → Nat → Nat
  | [], i => i
  | [_], i => i + 1
  | byte :: next :: rest, i =>
      if byte = '\\'.toNat then stringEndFrom quote rest (i + 2)
      else if byte = quote then i + 1
      else stringEndFrom quote (next :: rest) (i + 1)

/-- One past the closing quote of the string literal starting at `start`. -/
def stringEnd (source : List Nat) (start quote : Nat) : Nat :=
  stringEndFrom quote (source.drop (start + 1)) (start + 1)

/-- The loop of `regex_end` up to the closing slash, from the byte `i`. -/
def regexBody (inClass : Bool) : List Nat → Nat → Nat
  | [], i => i
  | [byte], i => if byte = '\\'.toNat then i + 2 else i + 1
  | byte :: next :: rest, i =>
      if byte = '\\'.toNat then regexBody inClass rest (i + 2)
      else if byte = '['.toNat then regexBody true (next :: rest) (i + 1)
      else if byte = ']'.toNat then regexBody false (next :: rest) (i + 1)
      else if byte = '/'.toNat ∧ inClass = false then i + 1
      else regexBody inClass (next :: rest) (i + 1)

/-- One past the last flag of the regular expression starting at `start`. -/
def regexEnd (source : List Nat) (start : Nat) : Nat :=
  let i := regexBody false (source.drop (start + 1)) (start + 1)
  min (i + ((source.drop i).takeWhile isAlphabetic).length) source.length

end Literals

section Script

inductive Frame
  | text
  | substitution (depth : Nat)
  deriving DecidableEq

inductive Gap
  | none
  | space
  | newline
  deriving DecidableEq

def Gap.max : Gap → Gap → Gap
  | .newline, _ => .newline
  | _, .newline => .newline
  | .space, _ => .space
  | _, .space => .space
  | .none, .none => .none

def Gap.written : Gap → List Char
  | .none => []
  | .space => [' ']
  | .newline => ['\n']

/-- The keywords a `/` may follow and still open a regular expression. -/
def regexKeywords : List (List Char) :=
  ["return", "typeof", "instanceof", "in", "of", "new", "delete", "void", "do", "else", "case",
    "yield", "await", "throw"].map String.toList

/-- Whether the `/` at this point opens a regular expression rather than being a
division. -/
def startsARegex (previous before : Nat) (word : List Char) : Bool :=
  if isWord previous then decide (word ∈ regexKeywords)
  else if previous = 0 then true
  else if previous = '+'.toNat ∨ previous = '-'.toNat then decide (previous ≠ before)
  else decide (previous ∈ "(,=:[!&|?{};*%<>~^".toList.map Char.toNat)

/-- A scan of a script, `stack` top first. -/
structure Scan where
  stack : List Frame
  gap : Gap
  previous : Nat
  before : Nat
  word : List Char
  i : Nat
  out : List Char

variable (source : List Char)

/-- A copy of the source up to `stop`. -/
def Scan.copy (scan : Scan) (stop : Nat) : Option Scan :=
  (slice source scan.i stop).map (fun text =>
    { scan with i := stop, out := scan.out ++ text })

/-- The arm of a template's text, where white space is content and there is no comment. -/
def Scan.text (scan : Scan) : Option Scan :=
  let byte := (bytes source)[scan.i]?
  if byte = some '\\'.toNat ∧ scan.i + 1 < (bytes source).length then
    (charLen source (scan.i + 1)).bind (fun length => scan.copy source (scan.i + 1 + length))
  else if byte = some '`'.toNat then
    some { scan with
      out := scan.out ++ ['`'], stack := scan.stack.tail, previous := '`'.toNat, i := scan.i + 1 }
  else if byte = some '$'.toNat ∧ (bytes source)[scan.i + 1]? = some '{'.toNat then
    some { scan with
      out := scan.out ++ ['$', '{']
      stack := .substitution 0 :: scan.stack
      before := '$'.toNat
      previous := '{'.toNat
      word := []
      i := scan.i + 2 }
  else (charLen source scan.i).bind (fun length => scan.copy source (scan.i + length))

/-- Where the line of the byte `i` ends. -/
def lineEnd (i : Nat) : Option Nat :=
  (after source i).map (fun rest =>
    match find ['\n'] rest with
    | some offset => i + offset
    | none => (bytes source).length)

/-- A comment to the end of its line; a pragma survives, and the line break is left to be
seen. -/
def Scan.lineComment (scan : Scan) : Option Scan :=
  (lineEnd source scan.i).bind (fun stop =>
    if (bytes source)[scan.i + 2]? = some '#'.toNat then
      (scan.copy source stop).map (fun scan => { scan with gap := .newline })
    else some { scan with i := stop })

/-- One past the block comment starting at `i`. -/
def blockEnd (i : Nat) : Option Nat :=
  (after source (i + 2)).map (fun rest =>
    match find ['*', '/'] rest with
    | some offset => i + 2 + offset + 2
    | none => (bytes source).length)

def Scan.blockComment (scan : Scan) : Option Scan :=
  (blockEnd source scan.i).bind (fun stop =>
    (slice source scan.i stop).map (fun text =>
      { scan with
        gap := if text.contains '\n' then .newline else scan.gap.max .space
        i := stop }))

def Scan.settle (scan : Scan) : Scan :=
  { scan with
    out := if scan.out = [] then scan.out else scan.out ++ scan.gap.written
    gap := .none }

def moved (byte : Nat) : List Frame → List Frame
  | .substitution depth :: stack =>
      if byte = '{'.toNat then .substitution (depth + 1) :: stack
      else if byte = '}'.toNat then
        match depth with
        | depth + 1 => .substitution depth :: stack
        | 0 => stack
      else .substitution depth :: stack
  | stack => stack

/-- The bytes of an identifier from `i` on. -/
def wordEnd (i : Nat) : Nat := i + (((bytes source).drop i).takeWhile isWord).length

def Scan.code (scan : Scan) (byte : Nat) : Option Scan :=
  if byte = '"'.toNat ∨ byte = '\''.toNat then
    (scan.copy source (stringEnd (bytes source) scan.i byte)).map (fun next =>
      { next with before := scan.previous, previous := byte, word := [] })
  else if byte = '`'.toNat then
    some { scan with
      out := scan.out ++ ['`']
      stack := .text :: scan.stack
      before := scan.previous
      previous := '`'.toNat
      word := []
      i := scan.i + 1 }
  else if byte = '/'.toNat ∧ startsARegex scan.previous scan.before scan.word = true then
    (scan.copy source (regexEnd (bytes source) scan.i)).map (fun next =>
      { next with before := scan.previous, previous := '/'.toNat, word := [] })
  else if isWord byte = true ∧ isDigit byte = false then
    (slice source scan.i (wordEnd source scan.i)).bind (fun word =>
      ((bytes source)[wordEnd source scan.i - 1]?).map (fun previous =>
        { scan with
          out := scan.out ++ word
          word := word
          before := scan.previous
          previous := previous
          i := wordEnd source scan.i }))
  else
    (charLen source scan.i).bind (fun length =>
      (scan.copy source (scan.i + length)).map (fun next =>
        { next with
          stack := moved byte scan.stack, before := scan.previous, previous := byte, word := [] }))

/-- One turn of the loop of `javascript`. -/
def Scan.turn (scan : Scan) : Option (Option Scan) :=
  match (bytes source)[scan.i]? with
  | none => some none
  | some byte =>
      (if scan.stack.head? = some .text then scan.text source
      else if byte = ' '.toNat ∨ byte = '\t'.toNat then
        some { scan with gap := scan.gap.max .space, i := scan.i + 1 }
      else if byte = '\n'.toNat ∨ byte = '\r'.toNat then
        some { scan with gap := .newline, i := scan.i + 1 }
      else if byte = '/'.toNat ∧ (bytes source)[scan.i + 1]? = some '/'.toNat then
        scan.lineComment source
      else if byte = '/'.toNat ∧ (bytes source)[scan.i + 1]? = some '*'.toNat then
        scan.blockComment source
      else scan.settle.code source byte).map some

def ended (out : List Char) : List Char :=
  if out = [] ∨ out.getLast? = some '\n' then out else out ++ ['\n']

def javascript : Option (List Char) :=
  (loop (Scan.turn source) ⟨[], .none, 0, 0, [], 0, []⟩).map (fun scan => ended scan.out)

end Script

section Stylesheet

structure Sheet where
  gap : Bool
  i : Nat
  out : List Char

variable (source : List Char)

/-- One turn of the loop of `css`. -/
def Sheet.turn (sheet : Sheet) : Option (Option Sheet) :=
  match (bytes source)[sheet.i]? with
  | none => some none
  | some byte =>
      if isAsciiWhitespace byte = true then
        some (some { sheet with gap := true, i := sheet.i + 1 })
      else if byte = '/'.toNat ∧ (bytes source)[sheet.i + 1]? = some '*'.toNat then
        (blockEnd source sheet.i).map (fun stop => some { sheet with gap := true, i := stop })
      else
        let out := if sheet.gap = true ∧ sheet.out ≠ [] then sheet.out ++ [' '] else sheet.out
        if byte = '"'.toNat ∨ byte = '\''.toNat then
          (slice source sheet.i (stringEnd (bytes source) sheet.i byte)).map (fun text =>
            some ⟨false, stringEnd (bytes source) sheet.i byte, out ++ text⟩)
        else
          (charLen source sheet.i).bind (fun length =>
            (slice source sheet.i (sheet.i + length)).map (fun text =>
              -- one byte on, whatever the length of the character
              some ⟨false, sheet.i + 1, out ++ text⟩))

def css : Option (List Char) :=
  (loop (Sheet.turn source) ⟨false, 0, []⟩).map (fun sheet =>
    if sheet.out = [] then [] else sheet.out ++ ['\n'])

end Stylesheet

end Minify
end Zdeceptron
