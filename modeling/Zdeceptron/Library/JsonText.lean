import Zdeceptron.Library.EcmaStrings

/-!
# JSON texts

The grammar of RFC 8259 over the characters of a text.  A string is written as a list of
pieces, each a character that stands for itself or an escape sequence, and its value is the
code units the pieces stand for.  A number is kept as it is written.
-/

namespace Library
namespace JsonText

open EcmaJson (escaped hexUnit)
open EcmaStrings (utf16Code)

abbrev Text := List Char

section Strings

inductive Piece
  | plain (c : Char)
  | short (e : Char)
  | code (a b c d : Char)
  deriving DecidableEq

namespace Piece

def text : Piece → Text
  | .plain c => [c]
  | .short e => ['\\', e]
  | .code a b c d => ['\\', 'u', a, b, c, d]

def units : Piece → Units
  | .plain c => utf16Code c.toNat
  | .short e => (escaped e.toNat).toList
  | .code a b c d => (hexUnit a.toNat b.toNat c.toNat d.toNat).toList

def IsJson : Piece → Prop
  | .plain c => 32 ≤ c.toNat ∧ c ≠ '"' ∧ c ≠ '\\'
  | .short e => (escaped e.toNat).isSome = true
  | .code a b c d => (hexUnit a.toNat b.toNat c.toNat d.toNat).isSome = true

def Delimits : Piece → Prop
  | .plain c => c ≠ '"' ∧ c ≠ '\\'
  | .short e => e ≠ 'u'
  | .code _ _ _ _ => True

theorem Delimits.ne_quote {p : Piece} (h : p.Delimits) {rest rest' : Text} :
    p.text ++ rest ≠ '"' :: rest' := by
  intro hquote
  cases p with
  | plain c => exact h.1 (List.cons.inj hquote).1
  | short _ | code _ _ _ _ => exact absurd (List.cons.inj hquote).1 (by decide)

theorem Delimits.split {p q : Piece} (hp : p.Delimits) (hq : q.Delimits) {rest rest' : Text}
    (h : p.text ++ rest = q.text ++ rest') : p = q ∧ rest = rest' := by
  cases p with
  | plain c =>
      cases q with
      | plain d => exact ⟨by rw [(List.cons.inj h).1], (List.cons.inj h).2⟩
      | short e => exact absurd (List.cons.inj h).1 hp.2
      | code => exact absurd (List.cons.inj h).1 hp.2
  | short e =>
      cases q with
      | plain d => exact absurd (List.cons.inj h).1.symm hq.2
      | short e' => simpa [text] using h
      | code => exact absurd (List.cons.inj (List.cons.inj h).2).1 hp
  | code a b c d =>
      cases q with
      | plain d => exact absurd (List.cons.inj h).1.symm hq.2
      | short e => exact absurd (List.cons.inj (List.cons.inj h).2).1.symm hq
      | code => simpa [text, and_assoc] using h

end Piece

def stringText (ps : List Piece) : Text := '"' :: (ps.flatMap Piece.text ++ ['"'])

theorem pieces_unique {ps qs : List Piece} {rest rest' : Text}
    (hps : ∀ p ∈ ps, p.Delimits) (hqs : ∀ q ∈ qs, q.Delimits)
    (h : ps.flatMap Piece.text ++ '"' :: rest = qs.flatMap Piece.text ++ '"' :: rest') :
    ps = qs ∧ rest = rest' := by
  induction ps generalizing qs with
  | nil =>
      cases qs with
      | nil => exact ⟨rfl, (List.cons.inj h).2⟩
      | cons q qs =>
          rw [List.flatMap_cons, List.append_assoc] at h
          exact absurd h.symm (hqs q List.mem_cons_self).ne_quote
  | cons p ps ih =>
      rw [List.flatMap_cons, List.append_assoc] at h
      cases qs with
      | nil => exact absurd h (hps p List.mem_cons_self).ne_quote
      | cons q qs =>
          rw [List.flatMap_cons, List.append_assoc] at h
          obtain ⟨hpq, hmore⟩ :=
            (hps p List.mem_cons_self).split (hqs q List.mem_cons_self) h
          obtain ⟨hpieces, hrest⟩ := ih (fun r hr => hps r (List.mem_cons_of_mem _ hr))
            (fun r hr => hqs r (List.mem_cons_of_mem _ hr)) hmore
          exact ⟨by rw [hpq, hpieces], hrest⟩

end Strings

section Numbers

def Digits (t : Text) : Prop := t ≠ [] ∧ ∀ c ∈ t, c.isDigit = true

inductive Whole : Text → Prop
  | zero : Whole ['0']
  | cons {c : Char} {ds : Text} (hc : c.isDigit = true) (hzero : c ≠ '0')
      (hds : ∀ d ∈ ds, d.isDigit = true) : Whole (c :: ds)

inductive Fraction : Text → Prop
  | none : Fraction []
  | some {ds : Text} (h : Digits ds) : Fraction ('.' :: ds)

inductive Exponent : Text → Prop
  | none : Exponent []
  | some {e : Char} {sign ds : Text} (he : e = 'e' ∨ e = 'E')
      (hsign : sign = [] ∨ sign = ['+'] ∨ sign = ['-']) (h : Digits ds) :
      Exponent (e :: (sign ++ ds))

inductive Number : Text → Prop
  | mk {minus whole fraction exponent : Text} (hminus : minus = [] ∨ minus = ['-'])
      (hwhole : Whole whole) (hfraction : Fraction fraction) (hexponent : Exponent exponent) :
      Number (minus ++ (whole ++ (fraction ++ exponent)))

def isNumeric (c : Char) : Bool :=
  c.isDigit || c == '+' || c == '-' || c == '.' || c == 'e' || c == 'E'

theorem isNumeric_of_isDigit {c : Char} (h : c.isDigit = true) : isNumeric c = true := by
  simp [isNumeric, h]

variable {t : Text}

theorem Digits.numeric (h : Digits t) : ∀ c ∈ t, isNumeric c = true :=
  fun c hc => isNumeric_of_isDigit (h.2 c hc)

theorem Whole.numeric (h : Whole t) : ∀ c ∈ t, isNumeric c = true := by
  cases h with
  | zero => exact List.forall_mem_singleton.mpr (by decide)
  | cons hc _ hds =>
      intro c hmem
      rcases List.mem_cons.mp hmem with rfl | hmem
      · exact isNumeric_of_isDigit hc
      · exact isNumeric_of_isDigit (hds c hmem)

theorem Fraction.numeric (h : Fraction t) : ∀ c ∈ t, isNumeric c = true := by
  cases h with
  | none => exact fun c hc => absurd hc List.not_mem_nil
  | some h =>
      intro c hmem
      rcases List.mem_cons.mp hmem with rfl | hmem
      · decide
      · exact h.numeric c hmem

theorem Exponent.numeric (h : Exponent t) : ∀ c ∈ t, isNumeric c = true := by
  cases h with
  | none => exact fun c hc => absurd hc List.not_mem_nil
  | some he hsign h =>
      intro c hmem
      rcases List.mem_cons.mp hmem with rfl | hmem
      · rcases he with rfl | rfl <;> decide
      rcases List.mem_append.mp hmem with hmem | hmem
      · rcases hsign with rfl | rfl | rfl <;> simp_all [isNumeric]
      · exact h.numeric c hmem

theorem Number.numeric (h : Number t) : ∀ c ∈ t, isNumeric c = true := by
  obtain ⟨hminus, hwhole, hfraction, hexponent⟩ := h
  intro c hmem
  rcases List.mem_append.mp hmem with hmem | hmem
  · rcases hminus with rfl | rfl <;> simp_all [isNumeric]
  rcases List.mem_append.mp hmem with hmem | hmem
  · exact hwhole.numeric c hmem
  rcases List.mem_append.mp hmem with hmem | hmem
  · exact hfraction.numeric c hmem
  · exact hexponent.numeric c hmem

end Numbers

section Values

inductive Value
  | null
  | bool (value : Bool)
  | num (text : Text)
  | str (units : Units)
  | arr (items : List Value)
  | obj (members : List (Units × Value))

def isSpace (c : Char) : Bool := c == ' ' || c == '\t' || c == '\n' || c == '\r'

def IsSpaces (t : Text) : Prop := ∀ c ∈ t, isSpace c = true

structure Item where
  before : Text
  text : Text
  after : Text
  value : Value

structure Member extends Item where
  lead : Text
  name : List Piece
  gap : Text

namespace Item

def spaced (i : Item) : Text := i.before ++ (i.text ++ i.after)

def IsSpaced (i : Item) : Prop := IsSpaces i.before ∧ IsSpaces i.after

end Item

namespace Member

def spaced (m : Member) : Text :=
  m.lead ++ (stringText m.name ++ (m.gap ++ ':' :: m.toItem.spaced))

def IsSpaced (m : Member) : Prop :=
  m.toItem.IsSpaced ∧ IsSpaces m.lead ∧ IsSpaces m.gap

end Member

def more (ts : List Text) : Text := ts.flatMap (fun t => ',' :: t)

theorem more_cons (t : Text) (ts : List Text) : more (t :: ts) = ',' :: (t ++ more ts) := rfl

def listed (gap : Text) : List Text → Text
  | [] => gap
  | t :: ts => t ++ more ts

inductive Spells : Text → Value → Prop
  | null : Spells ['n', 'u', 'l', 'l'] .null
  | true : Spells ['t', 'r', 'u', 'e'] (.bool true)
  | false : Spells ['f', 'a', 'l', 's', 'e'] (.bool false)
  | num {t : Text} (h : Number t) : Spells t (.num t)
  | str {ps : List Piece} (h : ∀ p ∈ ps, p.IsJson) :
      Spells (stringText ps) (.str (ps.flatMap Piece.units))
  | arr {gap : Text} {items : List Item} (hgap : IsSpaces gap)
      (hspaced : ∀ i ∈ items, i.IsSpaced) (h : ∀ i ∈ items, Spells i.text i.value) :
      Spells ('[' :: (listed gap (items.map Item.spaced) ++ [']'])) (.arr (items.map Item.value))
  | obj {gap : Text} {members : List Member} (hgap : IsSpaces gap)
      (hspaced : ∀ m ∈ members, m.IsSpaced) (hnames : ∀ m ∈ members, ∀ p ∈ m.name, p.IsJson)
      (h : ∀ m ∈ members, Spells m.text m.value) :
      Spells ('{' :: (listed gap (members.map Member.spaced) ++ ['}']))
        (.obj (members.map fun m => (m.name.flatMap Piece.units, m.value)))

def Document (body : Text) (v : Value) : Prop :=
  ∃ before text after, IsSpaces before ∧ IsSpaces after ∧ body = before ++ (text ++ after) ∧
    Spells text v

variable {t : Text}

theorem Spells.string_inv {us : Units} (h : Spells t (.str us)) :
    ∃ ps : List Piece, (∀ p ∈ ps, p.IsJson) ∧ t = stringText ps ∧ us = ps.flatMap Piece.units := by
  cases h with
  | str h => exact ⟨_, h, rfl, rfl⟩

theorem Spells.array_inv {vs : List Value} (h : Spells t (.arr vs)) :
    ∃ (gap : Text) (items : List Item), IsSpaces gap ∧ (∀ i ∈ items, i.IsSpaced) ∧
      (∀ i ∈ items, Spells i.text i.value) ∧
      t = '[' :: (listed gap (items.map Item.spaced) ++ [']']) ∧ vs = items.map Item.value := by
  cases h with
  | arr hgap hspaced h => exact ⟨_, _, hgap, hspaced, h, rfl, rfl⟩

variable {v : Value}

theorem Spells.array_of_bracket (h : Spells ('[' :: t) v) :
    ∃ vs, v = .arr vs := by
  generalize htext : '[' :: t = text at h
  cases h with
  | arr => exact ⟨_, rfl⟩
  | num h => exact absurd (h.numeric '[' (by rw [← htext]; exact List.mem_cons_self)) (by decide)
  | null | true | false | str | obj => exact absurd (List.cons.inj htext).1 (by decide)

theorem Spells.document (h : Spells t v) : Document t v :=
  ⟨[], t, [], fun _ hc => absurd hc List.not_mem_nil, fun _ hc => absurd hc List.not_mem_nil,
    by simp, h⟩

theorem Document.tight {a b : Char}
    (h : Document (a :: (t ++ [b])) v) (ha : isSpace a = false) (hb : isSpace b = false) :
    Spells (a :: (t ++ [b])) v := by
  obtain ⟨before, text, after, hbefore, hafter, hbody, hspells⟩ := h
  cases before with
  | cons c before =>
      have hc := hbefore c List.mem_cons_self
      rw [← (List.cons.inj hbody).1, ha] at hc
      cases hc
  | nil =>
      rcases List.eq_nil_or_concat after with rfl | ⟨front, c, rfl⟩
      · rw [hbody]
        simpa using hspells
      · have hc := hafter c (by simp)
        have hlast := congrArg List.getLast? hbody
        rw [← List.cons_append, List.getLast?_concat, List.nil_append, List.concat_eq_append,
          ← List.append_assoc, List.getLast?_concat] at hlast
        rw [← Option.some.inj hlast, hb] at hc
        cases hc

end Values

end JsonText
end Library
