import Mathlib.Data.List.Chain
import Zdeceptron.Library.Lines

/-!
# TOML texts

The grammar of TOML 1.0 over the characters of a text, for the documents that hold nothing but
tables and strings.  A document is a list of expressions with a newline after each but the
last; its items are the tables it opens and the pairs it lists, in order.
-/

namespace Library
namespace TomlText

abbrev Text := List Char

section Characters

def IsBlank (t : Text) : Prop := ∀ c ∈ t, c = ' ' ∨ c = '\t'

def IsNewline (t : Text) : Prop := t = ['\n'] ∨ t = ['\r', '\n']

def isPrintable (c : Char) : Bool := (32 ≤ c.toNat && c.toNat != 127) || c == '\t'

def isBare (c : Char) : Bool := c.isAlphanum || c == '_' || c == '-'

inductive Comment : Text → Prop
  | none : Comment []
  | some {t : Text} (h : ∀ c ∈ t, isPrintable c = true) : Comment ('#' :: t)

theorem isPrintable_ne {c : Char} (h : isPrintable c = true) : c ≠ '\n' ∧ c ≠ '\r' := by
  constructor <;> rintro rfl <;> simp [isPrintable] at h

theorem isPrintable_of_isBare {c : Char} (h : isBare c = true) : isPrintable c = true := by
  simp only [isBare, Bool.or_eq_true, isAlphanum_iff, beq_iff_eq] at h
  simp only [isPrintable, Bool.or_eq_true, Bool.and_eq_true, decide_eq_true_eq, bne_iff_ne]
  rcases h with ((h | h) | rfl) | rfl
  · exact Or.inl (by omega)
  · exact Or.inl (by omega)
  · simp
  · simp

theorem IsBlank.printable {t : Text} (h : IsBlank t) : ∀ c ∈ t, isPrintable c = true := by
  intro c hc
  rcases h c hc with rfl | rfl <;> simp [isPrintable]

theorem Comment.printable {t : Text} (h : Comment t) : ∀ c ∈ t, isPrintable c = true := by
  cases h with
  | none => exact fun c hc => absurd hc List.not_mem_nil
  | some h =>
      intro c hc
      rcases List.mem_cons.mp hc with rfl | hc
      · simp [isPrintable]
      · exact h c hc

end Characters

section Strings

def hexDigit (c : Char) : Option Nat :=
  if '0' ≤ c ∧ c ≤ '9' then some (c.toNat - 48)
  else if 'a' ≤ c ∧ c ≤ 'f' then some (c.toNat - 87)
  else if 'A' ≤ c ∧ c ≤ 'F' then some (c.toNat - 55)
  else none

def hexScalar (ds : List Char) : Option Char :=
  (ds.mapM hexDigit).bind fun ns =>
    let code := ns.foldl (fun n d => n * 16 + d) 0
    if code.isValidChar then some (Char.ofNat code) else none

def shortEscape : Char → Option Char
  | 'b' => some '\x08'
  | 't' => some '\t'
  | 'n' => some '\n'
  | 'f' => some '\x0c'
  | 'r' => some '\r'
  | '"' => some '"'
  | '\\' => some '\\'
  | _ => none

inductive Piece
  | plain (c : Char)
  | short (e : Char)
  | small (ds : List Char)
  | large (ds : List Char)

namespace Piece

def text : Piece → Text
  | .plain c => [c]
  | .short e => ['\\', e]
  | .small ds => '\\' :: 'u' :: ds
  | .large ds => '\\' :: 'U' :: ds

def value : Piece → Text
  | .plain c => [c]
  | .short e => (shortEscape e).toList
  | .small ds => (hexScalar ds).toList
  | .large ds => (hexScalar ds).toList

def IsBasic : Piece → Prop
  | .plain c => isPrintable c = true ∧ c ≠ '"' ∧ c ≠ '\\'
  | .short e => (shortEscape e).isSome = true
  | .small ds => ds.length = 4 ∧ (hexScalar ds).isSome = true
  | .large ds => ds.length = 8 ∧ (hexScalar ds).isSome = true

def IsLiteral : Piece → Prop
  | .plain c => isPrintable c = true ∧ c ≠ '\''
  | _ => False

theorem length_value_le (p : Piece) : p.value.length ≤ p.text.length := by
  cases p with
  | plain c => exact Nat.le_refl _
  | short e => cases h : shortEscape e <;> simp [value, text, h]
  | small ds | large ds => cases h : hexScalar ds <;> simp [value, text, h]

theorem plain_of_length {p : Piece} (h : p.text.length ≤ p.value.length) :
    ∃ c, p = .plain c := by
  cases p with
  | plain c => exact ⟨c, rfl⟩
  | short e => cases he : shortEscape e <;> simp [value, text, he] at h
  | small ds | large ds => cases he : hexScalar ds <;> simp [value, text, he] at h

end Piece

def texts (ps : List Piece) : Text := ps.flatMap Piece.text

def values (ps : List Piece) : Text := ps.flatMap Piece.value

theorem length_values_le (ps : List Piece) : (values ps).length ≤ (texts ps).length := by
  induction ps with
  | nil => exact Nat.le_refl _
  | cons p ps ih =>
      have hp := p.length_value_le
      simp only [values, texts, List.flatMap_cons, List.length_append] at ih ⊢
      omega

theorem plain_of_length {ps : List Piece} (h : (texts ps).length ≤ (values ps).length) :
    ∀ p ∈ ps, ∃ c, p = .plain c := by
  induction ps with
  | nil => exact fun p hp => absurd hp List.not_mem_nil
  | cons p ps ih =>
      have hp := p.length_value_le
      have hps := length_values_le ps
      simp only [values, texts, List.flatMap_cons, List.length_append] at h hps ih
      intro q hq
      rcases List.mem_cons.mp hq with rfl | hq
      · exact Piece.plain_of_length (by omega)
      · exact ih (by omega) q hq

theorem values_of_plain {ps : List Piece} (h : ∀ p ∈ ps, ∃ c, p = .plain c) :
    values ps = texts ps := by
  induction ps with
  | nil => rfl
  | cons p ps ih =>
      obtain ⟨c, rfl⟩ := h p List.mem_cons_self
      have ih := ih fun q hq => h q (List.mem_cons_of_mem _ hq)
      simp only [values, texts, List.flatMap_cons] at ih ⊢
      rw [ih]
      simp [Piece.value, Piece.text]

theorem texts_plain (t : Text) : texts (t.map Piece.plain) = t := by
  rw [texts, List.flatMap_map]
  exact List.flatMap_singleton' t

theorem values_plain (t : Text) : values (t.map Piece.plain) = t := by
  rw [values, List.flatMap_map]
  exact List.flatMap_singleton' t

inductive Part
  | piece (p : Piece)
  | newline (t : Text)
  /-- A backslash at the end of a line, with the whitespace up to what follows. -/
  | fold (t : Text)
  /-- One or two quotation marks. -/
  | quotes (t : Text)

namespace Part

def text : Part → Text
  | .piece p => p.text
  | .newline t => t
  | .fold t => '\\' :: t
  | .quotes t => t

def value : Part → Text
  | .piece p => p.value
  | .newline t => t
  | .fold _ => []
  | .quotes t => t

def IsQuotes : Part → Prop
  | .quotes _ => True
  | _ => False

def IsBasic : Part → Prop
  | .piece p => p.IsBasic
  | .newline t => IsNewline t
  | .fold t => ∃ before newline after, IsBlank before ∧ IsNewline newline ∧
      (∃ ts : List Text, (∀ t ∈ ts, IsNewline t ∨ t = [' '] ∨ t = ['\t']) ∧ after = ts.flatten) ∧
      t = before ++ (newline ++ after)
  | .quotes t => t = ['"'] ∨ t = ['"', '"']

def IsLiteral : Part → Prop
  | .piece p => p.IsLiteral
  | .newline t => IsNewline t
  | .fold _ => False
  | .quotes t => t = ['\''] ∨ t = ['\'', '\'']

end Part

/-- The parts between the delimiters: no more than two quotation marks stand together, and a
newline right behind the opening delimiter is none of them. -/
def Between (opening : Text) (parts : List Part) : Prop :=
  parts.IsChain (fun a b => ¬(a.IsQuotes ∧ b.IsQuotes)) ∧
    (IsNewline opening ∨ opening = [] ∧ ∀ t rest, parts ≠ .newline t :: rest)

inductive StringText : Text → Text → Prop
  | basic {ps : List Piece} (h : ∀ p ∈ ps, p.IsBasic) :
      StringText ('"' :: (texts ps ++ ['"'])) (values ps)
  | literal {ps : List Piece} (h : ∀ p ∈ ps, p.IsLiteral) :
      StringText ('\'' :: (texts ps ++ ['\''])) (values ps)
  | basicLines {opening : Text} {parts : List Part} (h : ∀ p ∈ parts, p.IsBasic)
      (hbetween : Between opening parts) :
      StringText ('"' :: '"' :: '"' :: (opening ++ (parts.flatMap Part.text ++ ['"', '"', '"'])))
        (parts.flatMap Part.value)
  | literalLines {opening : Text} {parts : List Part} (h : ∀ p ∈ parts, p.IsLiteral)
      (hbetween : Between opening parts) :
      StringText
        ('\'' :: '\'' :: '\'' :: (opening ++ (parts.flatMap Part.text ++ ['\'', '\'', '\''])))
        (parts.flatMap Part.value)

end Strings

section Documents

inductive SimpleKey : Text → Text → Prop
  | bare {t : Text} (hne : t ≠ []) (h : ∀ c ∈ t, isBare c = true) : SimpleKey t t
  | basic {ps : List Piece} (h : ∀ p ∈ ps, p.IsBasic) :
      SimpleKey ('"' :: (texts ps ++ ['"'])) (values ps)
  | literal {ps : List Piece} (h : ∀ p ∈ ps, p.IsLiteral) :
      SimpleKey ('\'' :: (texts ps ++ ['\''])) (values ps)

inductive Key : Text → List Text → Prop
  | simple {t name : Text} (h : SimpleKey t name) : Key t [name]
  | dotted {t name before after more : Text} {names : List Text} (h : SimpleKey t name)
      (hbefore : IsBlank before) (hafter : IsBlank after) (hmore : Key more names) :
      Key (t ++ (before ++ '.' :: (after ++ more))) (name :: names)

inductive Item
  | table (path : List Text)
  | pair (path : List Text) (value : Text)
  deriving DecidableEq

inductive Expression : Text → Option Item → Prop
  | nothing {before comment : Text} (hbefore : IsBlank before) (hcomment : Comment comment) :
      Expression (before ++ comment) none
  | pair {before key left right string after comment value : Text} {path : List Text}
      (hbefore : IsBlank before) (hkey : Key key path) (hleft : IsBlank left)
      (hright : IsBlank right) (hstring : StringText string value) (hafter : IsBlank after)
      (hcomment : Comment comment) :
      Expression (before ++ (key ++ (left ++ '=' :: (right ++ (string ++ (after ++ comment))))))
        (some (.pair path value))
  | table {before left key right after comment : Text} {path : List Text}
      (hbefore : IsBlank before) (hleft : IsBlank left) (hkey : Key key path)
      (hright : IsBlank right) (hafter : IsBlank after) (hcomment : Comment comment) :
      Expression (before ++ '[' :: (left ++ (key ++ (right ++ ']' :: (after ++ comment)))))
        (some (.table path))

inductive Document : Text → List Item → Prop
  | last {t : Text} {item : Option Item} (h : Expression t item) : Document t item.toList
  | line {t newline rest : Text} {item : Option Item} {items : List Item}
      (h : Expression t item) (hnewline : IsNewline newline) (hrest : Document rest items) :
      Document (t ++ (newline ++ rest)) (item.toList ++ items)

variable {c : Char}

theorem hexDigit_printable (h : (hexDigit c).isSome = true) : isPrintable c = true := by
  have hval : ∀ d : Char, d.val.toNat = d.toNat := fun _ => rfl
  simp only [hexDigit, Char.le_def, UInt32.le_iff_toNat_le, hval] at h
  simp only [isPrintable, Bool.or_eq_true, Bool.and_eq_true, decide_eq_true_eq, bne_iff_ne]
  refine Or.inl ?_
  split at h
  case isTrue hc =>
      change 48 ≤ c.toNat ∧ c.toNat ≤ 57 at hc
      omega
  case isFalse =>
      split at h
      case isTrue hc =>
          change 97 ≤ c.toNat ∧ c.toNat ≤ 102 at hc
          omega
      case isFalse =>
          split at h
          case isTrue hc =>
              change 65 ≤ c.toNat ∧ c.toNat ≤ 70 at hc
              omega
          case isFalse => cases h

theorem hexDigit_of_mem {ds : List Char} (h : (hexScalar ds).isSome = true)
    (hc : c ∈ ds) : (hexDigit c).isSome = true := by
  have hall : ∀ {ds : List Char} {ns : List Nat}, ds.mapM hexDigit = some ns →
      ∀ c ∈ ds, (hexDigit c).isSome = true := by
    intro ds
    induction ds with
    | nil => exact fun _ c hc => absurd hc List.not_mem_nil
    | cons d ds ih =>
        intro ns hns c hc
        rw [List.mapM_cons] at hns
        obtain ⟨n, hn, hrest⟩ := Option.bind_eq_some_iff.mp hns
        obtain ⟨ms, hms, -⟩ := Option.bind_eq_some_iff.mp hrest
        rcases List.mem_cons.mp hc with rfl | hc
        · rw [hn]
          rfl
        · exact ih hms c hc
  rw [hexScalar] at h
  cases hns : ds.mapM hexDigit with
  | none =>
      rw [hns] at h
      cases h
  | some ns => exact hall hns c hc

theorem shortEscape_printable {e : Char} (h : (shortEscape e).isSome = true) :
    isPrintable e = true := by
  rw [shortEscape.eq_def] at h
  split at h <;> simp_all [isPrintable]

variable {p : Piece}

theorem Piece.IsBasic.printable (h : p.IsBasic) :
    ∀ c ∈ p.text, isPrintable c = true := by
  intro c hc
  cases p with
  | plain d =>
      rw [List.mem_singleton.mp hc]
      exact h.1
  | short e =>
      rcases List.mem_cons.mp hc with rfl | hc
      · simp [isPrintable]
      · rw [List.mem_singleton.mp hc]
        exact shortEscape_printable h
  | small _ | large _ =>
      rcases List.mem_cons.mp hc with rfl | hc
      · simp [isPrintable]
      rcases List.mem_cons.mp hc with rfl | hc
      · simp [isPrintable]
      · exact hexDigit_printable (hexDigit_of_mem h.2 hc)

theorem Piece.IsLiteral.plain (h : p.IsLiteral) :
    ∃ c, p = .plain c ∧ isPrintable c = true := by
  cases p with
  | plain c => exact ⟨c, rfl, h.1⟩
  | short e => exact h.elim
  | small ds => exact h.elim
  | large ds => exact h.elim

theorem Piece.IsBasic.mem_value (h : p.IsBasic) (hc : c ∈ p.text)
    (hescape : c ≠ '\\' ∧ c ≠ 'u' ∧ c ≠ 'U') (hhex : hexDigit c = none)
    (hshort : shortEscape c = none ∨ shortEscape c = some c) : c ∈ p.value := by
  cases p with
  | plain d => exact hc
  | short e =>
      rcases List.mem_cons.mp hc with rfl | hc
      · exact absurd rfl hescape.1
      · obtain rfl := List.mem_singleton.mp hc
        rcases hshort with hnone | hsome
        · rw [Piece.IsBasic, hnone] at h
          cases h
        · simp [Piece.value, hsome]
  | small ds =>
      rcases List.mem_cons.mp hc with rfl | hc
      · exact absurd rfl hescape.1
      rcases List.mem_cons.mp hc with rfl | hc
      · exact absurd rfl hescape.2.1
      · have := hexDigit_of_mem h.2 hc
        rw [hhex] at this
        cases this
  | large ds =>
      rcases List.mem_cons.mp hc with rfl | hc
      · exact absurd rfl hescape.1
      rcases List.mem_cons.mp hc with rfl | hc
      · exact absurd rfl hescape.2.2
      · have := hexDigit_of_mem h.2 hc
        rw [hhex] at this
        cases this

theorem mem_values {ps : List Piece} (h : ∀ p ∈ ps, p.IsBasic) (hc : c ∈ texts ps)
    (hescape : c ≠ '\\' ∧ c ≠ 'u' ∧ c ≠ 'U') (hhex : hexDigit c = none)
    (hshort : shortEscape c = none ∨ shortEscape c = some c) : c ∈ values ps := by
  obtain ⟨p, hp, hmem⟩ := List.mem_flatMap.mp hc
  exact List.mem_flatMap.mpr ⟨p, hp, (h p hp).mem_value hmem hescape hhex hshort⟩

theorem texts_printable {ps : List Piece} (h : ∀ p ∈ ps, p.IsBasic ∨ p.IsLiteral) :
    ∀ c ∈ texts ps, isPrintable c = true := by
  intro c hc
  obtain ⟨p, hp, hmem⟩ := List.mem_flatMap.mp hc
  rcases h p hp with hbasic | hliteral
  · exact hbasic.printable c hmem
  · obtain ⟨d, rfl, hd⟩ := hliteral.plain
    rwa [List.mem_singleton.mp hmem]

theorem SimpleKey.printable {t name : Text} (h : SimpleKey t name) :
    ∀ c ∈ t, isPrintable c = true := by
  cases h with
  | bare hne h => exact fun c hc => isPrintable_of_isBare (h c hc)
  | basic h =>
      have := texts_printable fun p hp => Or.inl (h p hp)
      simp only [List.mem_cons, List.mem_append, List.not_mem_nil, or_false]
      rintro c (rfl | hc | rfl)
      · simp [isPrintable]
      · exact this c hc
      · simp [isPrintable]
  | literal h =>
      have := texts_printable fun p hp => Or.inr (h p hp)
      simp only [List.mem_cons, List.mem_append, List.not_mem_nil, or_false]
      rintro c (rfl | hc | rfl)
      · simp [isPrintable]
      · exact this c hc
      · simp [isPrintable]

theorem Key.single {t name : Text} (h : Key t [name]) : SimpleKey t name := by
  cases h with
  | simple h => exact h
  | dotted _ _ _ hmore => cases hmore

theorem Expression.of_nil {item : Option Item} (h : Expression [] item) : item = none := by
  generalize ht : ([] : Text) = t at h
  cases h with
  | nothing => rfl
  | pair => simp at ht
  | table => simp at ht

theorem StringText.printable_or {t value : Text} (h : StringText t value) :
    (∀ c ∈ t, isPrintable c = true) ∨
      ∃ more, t = '"' :: '"' :: '"' :: more ∨ t = '\'' :: '\'' :: '\'' :: more := by
  cases h with
  | basic h => exact Or.inl (SimpleKey.basic h).printable
  | literal h => exact Or.inl (SimpleKey.literal h).printable
  | basicLines => exact Or.inr ⟨_, Or.inl rfl⟩
  | literalLines => exact Or.inr ⟨_, Or.inr rfl⟩

end Documents

end TomlText
end Library
