import Zdeceptron.Library.EcmaJson

/-!
# String literals of ECMAScript

A program text is read as the code units of its encoding.  A string literal stands for the
code units between its quotes, each escape sequence for what it denotes.  A raw line
terminator ends no literal and is part of none, the two separators U+2028 and U+2029
included, which later editions let stand.
-/

namespace Library
namespace EcmaStrings

open EcmaJson (hexValue hexUnit)

section Encoding

def utf16Code (n : Nat) : Units :=
  if n < 65536 then [n] else [55296 + (n - 65536) / 1024, 56320 + (n - 65536) % 1024]

def utf16 (text : List Char) : Units := text.flatMap (fun c => utf16Code c.toNat)

@[simp] theorem utf16_nil : utf16 [] = [] := rfl

theorem utf16_cons (c : Char) (text : List Char) :
    utf16 (c :: text) = utf16Code c.toNat ++ utf16 text := List.flatMap_cons

theorem utf16_append (front back : List Char) :
    utf16 (front ++ back) = utf16 front ++ utf16 back := List.flatMap_append

theorem utf16_flatMap (f : Char → List Char) (text : List Char) :
    utf16 (text.flatMap f) = text.flatMap (fun c => utf16 (f c)) := List.flatMap_assoc

end Encoding

section Literals

def isLineTerminator (c : Nat) : Bool := c == 10 || c == 13 || c == 8232 || c == 8233

def isDecimal (c : Nat) : Bool := decide (48 ≤ c ∧ c ≤ 57)

def braced (value : Nat) (any : Bool) : Units → Option (Nat × Units)
  | [] => none
  | c :: rest =>
      if c = 125 then if any then some (value, rest) else none
      else
        match hexValue c with
        | none => none
        | some d => if value * 16 + d ≤ 1114111 then braced (value * 16 + d) true rest else none

def single (c : Nat) : Nat :=
  if c = 98 then 8
  else if c = 116 then 9
  else if c = 110 then 10
  else if c = 118 then 11
  else if c = 102 then 12
  else if c = 114 then 13
  else c

/-- An escape sequence after its backslash, and what follows it. -/
def readEscape : Units → Option (Units × Units)
  | 120 :: a :: b :: rest =>
      (hexValue a).bind (fun a => (hexValue b).map (fun b => ([a * 16 + b], rest)))
  | 117 :: 123 :: rest => (braced 0 false rest).map (fun p => (utf16Code p.1, p.2))
  | 117 :: a :: b :: c :: d :: rest => (hexUnit a b c d).map (fun unit => ([unit], rest))
  | 13 :: 10 :: rest => some ([], rest)
  | c :: rest =>
      if isLineTerminator c then some ([], rest)
      else if c = 48 then if rest.head?.any isDecimal then none else some ([0], rest)
      else if isDecimal c || c == 120 || c == 117 then none
      else some ([single c], rest)
  | [] => none

def readString (quote : Nat) : Nat → Units → Option (Units × Units)
  | 0, _ => none
  | _ + 1, [] => none
  | n + 1, c :: rest =>
      if c = quote then some ([], rest)
      else if c = 92 then
        (readEscape rest).bind (fun p =>
          (readString quote n p.2).map (fun q => (p.1 ++ q.1, q.2)))
      else if isLineTerminator c then none
      else (readString quote n rest).map (fun q => (c :: q.1, q.2))

def stringValue : Units → Option Units
  | [] => none
  | quote :: body =>
      if quote = 34 ∨ quote = 39 then
        match readString quote (body.length + 1) body with
        | some (value, []) => some value
        | _ => none
      else none

def prepend (front : Units) (p : Units × Units) : Units × Units := (front ++ p.1, p.2)

theorem readString_raw {quote c : Nat} (hquote : c ≠ quote) (hslash : c ≠ 92)
    (hline : isLineTerminator c = false) (n : Nat) (rest : Units) :
    readString quote (n + 1) (c :: rest) = (readString quote n rest).map (prepend [c]) := by
  rw [readString, if_neg hquote, if_neg hslash, hline, if_neg Bool.false_ne_true]
  rfl

theorem readString_escape {quote : Nat} (hquote : quote ≠ 92) {text units rest : Units}
    (h : readEscape text = some (units, rest)) (n : Nat) :
    readString quote (n + 1) (92 :: text) = (readString quote n rest).map (prepend units) := by
  rw [readString, if_neg (Ne.symm hquote), if_pos rfl, h, Option.bind_some]
  rfl

def IsPlain (quote c : Nat) : Prop := c ≠ quote ∧ c ≠ 92 ∧ isLineTerminator c = false

theorem readString_plain {quote : Nat} {units : Units} (h : ∀ c ∈ units, IsPlain quote c)
    (n : Nat) (rest : Units) :
    readString quote (n + units.length) (units ++ rest) =
      (readString quote n rest).map (prepend units) := by
  induction units with
  | nil =>
      rw [List.length_nil, Nat.add_zero, List.nil_append]
      cases readString quote n rest <;> rfl
  | cons c units ih =>
      obtain ⟨hquote, hslash, hline⟩ := h c List.mem_cons_self
      rw [List.length_cons, ← Nat.add_assoc, List.cons_append,
        readString_raw hquote hslash hline, ih (fun d hd => h d (List.mem_cons_of_mem _ hd)),
        Option.map_map]
      rfl

end Literals

end EcmaStrings
end Library
