import Zdeceptron.Library.JsonText

/-!
# Reading the body of a transaction

A batch body is scanned for the names it calls and for the texts of their arguments.  The
scanner decodes the strings itself and finds the end of a value by counting brackets, of
whatever kind, outside strings.

* `agrees_iff`: the scanner agrees with the grammar exactly when no listed name holds a raw
  control character, a signed escape or an escape of a surrogate.
-/

namespace Zdeceptron
namespace Serve
namespace Scan

open Library Library.JsonText
open EcmaJson (escaped hexUnit hexValue)
open EcmaStrings (utf16 utf16Code)

section Scanner

abbrev Call := Text × Text

def space (text : Text) : Text := text.dropWhile isSpace

def take (c : Char) : Text → Option Text
  | [] => none
  | d :: rest => if d = c then some rest else none

def hexDigits (value : Nat) : Text → Option Nat
  | [] => some value
  | c :: cs => (hexValue c.toNat).bind fun digit => hexDigits (value * 16 + digit) cs

/-- `u32::from_str_radix` at 16, which reads a leading plus sign. -/
def fromStrRadix : Text → Option Nat
  | [] => none
  | c :: cs => if c = '+' ∧ cs ≠ [] then hexDigits 0 cs else hexDigits 0 (c :: cs)

/-- `char::from_u32`, or the replacement character. -/
def scalar (code : Nat) : Char :=
  if code.isValidChar then Char.ofNat code else Char.ofNat 0xFFFD

def shortEscape (e : Char) : Option Char :=
  if e = '"' then some '"'
  else if e = '\\' then some '\\'
  else if e = '/' then some '/'
  else if e = 'b' then some '\x08'
  else if e = 'f' then some '\x0c'
  else if e = 'n' then some '\n'
  else if e = 'r' then some '\r'
  else if e = 't' then some '\t'
  else none

def push (c : Char) (p : Text × Text) : Text × Text := (c :: p.1, p.2)

def chars : Text → Option (Text × Text)
  | [] => none
  | c :: rest =>
      if c = '"' then some ([], rest)
      else if c = '\\' then
        match rest with
        | [] => none
        | e :: rest =>
            if e = 'u' then
              match rest with
              | a :: b :: c :: d :: rest =>
                  (fromStrRadix [a, b, c, d]).bind fun code =>
                    (chars rest).map (push (scalar code))
              | _ => none
            else (shortEscape e).bind fun c => (chars rest).map (push c)
      else (chars rest).map (push c)

def string (text : Text) : Option (Text × Text) := (take '"' text).bind chars

def valueEnd : Nat → Nat → Text → Option Text
  | 0, _, _ => none
  | _ + 1, _, [] => none
  | fuel + 1, depth, c :: rest =>
      if c = '"' then (string (c :: rest)).bind fun p => valueEnd fuel depth p.2
      else if c = '[' ∨ c = '{' then valueEnd fuel (depth + 1) rest
      else if c = ']' ∨ c = '}' then
        if depth = 0 then some (c :: rest)
        else if depth = 1 then some rest
        else valueEnd fuel (depth - 1) rest
      else if c = ',' ∧ depth = 0 then some (c :: rest)
      else valueEnd fuel depth rest

def value (text : Text) : Option (Text × Text) :=
  (valueEnd (text.length + 1) 0 text).bind fun rest =>
    if rest.length = text.length then none
    else some (text.take (text.length - rest.length), rest)

def okOr {α : Type} (a : Option α) (error : String) : Except String α :=
  match a with
  | some a => .ok a
  | none => .error error

def call (text : Text) : Except String (Call × Text) := do
  let text ← okOr (take '[' (space text))
    "every write in a transaction is a `[name, arguments]` pair"
  let (name, text) ← okOr (string (space text))
    "a write's first element must be the endpoint name, as a string"
  let text ← okOr (take ',' (space text)) "a write names an endpoint and then its arguments"
  let (arguments, text) ← okOr ((value (space text)).filter fun p => p.1.head? == some '[')
    "a write's arguments must be an array"
  let text ← okOr (take ']' (space text))
    "a write is a pair, and this one carried more than two elements"
  pure ((name, arguments), text)

def calls : Nat → Text → Except String (List Call × Text)
  | 0, _ => .error "every write in a transaction is a `[name, arguments]` pair"
  | fuel + 1, text => do
      let (first, text) ← call text
      match take ',' (space text) with
      | some text =>
          let (others, text) ← calls fuel text
          pure (first :: others, text)
      | none =>
          let text ← okOr (take ']' (space text))
            "the transaction's array of writes is not closed"
          pure ([first], text)

def trailing : String := "a transaction body has trailing text after the array"

def parse (body : Text) : Except String (List Call) := do
  let text ← okOr (take '[' (space body)) "a transaction body must be an array of writes"
  match take ']' (space text) with
  | some text => if space text = [] then .ok [] else .error trailing
  | none =>
      let (found, text) ← calls text.length text
      if space text = [] then .ok found else .error trailing

end Scanner

section Pieces

def decode : Piece → Char
  | .plain c => c
  | .short e => (shortEscape e).getD e
  | .code a b c d => scalar ((fromStrRadix [a, b, c, d]).getD 0)

def IsRead : Piece → Prop
  | .plain c => c ≠ '"' ∧ c ≠ '\\'
  | .short e => (shortEscape e).isSome = true
  | .code a b c d => (fromStrRadix [a, b, c, d]).isSome = true

def IsProper : Piece → Prop
  | .plain c => 32 ≤ c.toNat
  | .short _ => True
  | .code a b c d =>
      ∃ n, hexUnit a.toNat b.toNat c.toNat d.toNat = some n ∧ (n < 0xD800 ∨ 0xDFFF < n)

variable {p : Piece}

theorem IsRead.delimits (h : IsRead p) : p.Delimits := by
  cases p with
  | plain c => exact h
  | short e =>
      intro he
      subst he
      exact Bool.noConfusion h
  | code => trivial

theorem chars_quote (rest : Text) : chars ('"' :: rest) = some ([], rest) := by
  rw [chars.eq_def]
  simp

theorem chars_plain {c : Char} (hquote : c ≠ '"') (hslash : c ≠ '\\') (rest : Text) :
    chars (c :: rest) = (chars rest).map (push c) := by
  rw [chars.eq_def]
  simp only [if_neg hquote, if_neg hslash]

theorem chars_short {e : Char} (hu : e ≠ 'u') (rest : Text) :
    chars ('\\' :: e :: rest) = (shortEscape e).bind fun c => (chars rest).map (push c) := by
  rw [chars.eq_def]
  simp [hu]

theorem chars_code (a b c d : Char) (rest : Text) :
    chars ('\\' :: 'u' :: a :: b :: c :: d :: rest) =
      (fromStrRadix [a, b, c, d]).bind fun code => (chars rest).map (push (scalar code)) := by
  rw [chars.eq_def]
  simp

theorem chars_piece (h : IsRead p) (rest : Text) :
    chars (p.text ++ rest) = (chars rest).map (push (decode p)) := by
  cases p with
  | plain c => exact chars_plain h.1 h.2 rest
  | short e =>
      obtain ⟨c, hc⟩ := Option.isSome_iff_exists.mp h
      refine (chars_short h.delimits rest).trans ?_
      rw [hc, decode, hc]
      rfl
  | code a b c d =>
      obtain ⟨n, hn⟩ := Option.isSome_iff_exists.mp h
      refine (chars_code a b c d rest).trans ?_
      rw [hn, decode, hn]
      rfl

theorem chars_pieces {ps : List Piece} (h : ∀ p ∈ ps, IsRead p) (rest : Text) :
    chars (ps.flatMap Piece.text ++ '"' :: rest) = some (ps.map decode, rest) := by
  induction ps with
  | nil => exact chars_quote rest
  | cons p ps ih =>
      rw [List.flatMap_cons, List.append_assoc, chars_piece (h p List.mem_cons_self),
        ih fun q hq => h q (List.mem_cons_of_mem _ hq)]
      rfl

/-- The text up to the closing quote is made of pieces the scanner reads. -/
def Pieced (text name rest : Text) : Prop :=
  ∃ ps : List Piece, (∀ p ∈ ps, IsRead p) ∧ text = ps.flatMap Piece.text ++ '"' :: rest ∧
    name = ps.map decode

theorem Pieced.cons {p : Piece} {tail name rest : Text} (hp : IsRead p)
    (ih : ∀ {name}, chars tail = some (name, rest) → Pieced tail name rest)
    (h : (chars tail).map (push (decode p)) = some (name, rest)) :
    Pieced (p.text ++ tail) name rest := by
  obtain ⟨⟨more, left⟩, htail, hpush⟩ := Option.map_eq_some_iff.mp h
  cases hpush
  obtain ⟨ps, hps, htext, hname⟩ := ih htail
  refine ⟨p :: ps, List.forall_mem_cons.mpr ⟨hp, hps⟩, ?_, ?_⟩
  · rw [htext, List.flatMap_cons, List.append_assoc]
  · rw [hname, List.map_cons]

variable {text name rest : Text}

theorem pieces_of_chars (h : chars text = some (name, rest)) :
    Pieced text name rest := by
  fun_induction chars text generalizing name with
  | case1 => cases h
  | case2 tail =>
      cases h
      exact ⟨[], fun _ hp => absurd hp List.not_mem_nil, rfl, rfl⟩
  | case3 => cases h
  | case4 a b c d tail _ ih =>
      obtain ⟨n, hn, hrest⟩ := Option.bind_eq_some_iff.mp h
      have hp : IsRead (.code a b c d) := by rw [IsRead, hn]; rfl
      refine Pieced.cons hp ih ?_
      rw [decode, hn]
      exact hrest
  | case5 => cases h
  | case6 e tail _ hu ih =>
      obtain ⟨c, hc, hrest⟩ := Option.bind_eq_some_iff.mp h
      have hp : IsRead (.short e) := by rw [IsRead, hc]; rfl
      refine Pieced.cons hp ih ?_
      rw [decode, hc]
      exact hrest
  | case7 c tail hquote hslash ih =>
      have hp : IsRead (.plain c) := ⟨hquote, hslash⟩
      exact Pieced.cons hp ih h

theorem string_pieces {ps : List Piece} (h : ∀ p ∈ ps, IsRead p) (rest : Text) :
    string (stringText ps ++ rest) = some (ps.map decode, rest) := by
  rw [stringText, string, List.cons_append, take, if_pos rfl, Option.bind_some,
    List.append_assoc, List.singleton_append, chars_pieces h]

theorem take_some {c : Char} {text rest : Text} (h : take c text = some rest) :
    text = c :: rest := by
  cases text with
  | nil => cases h
  | cons d text =>
      rw [take] at h
      by_cases hd : d = c
      · rw [if_pos hd] at h
        rw [hd, Option.some.inj h]
      · rw [if_neg hd] at h
        cases h

theorem pieces_of_string (h : string text = some (name, rest)) :
    ∃ ps : List Piece, (∀ p ∈ ps, IsRead p) ∧ text = stringText ps ++ rest ∧
      name = ps.map decode := by
  obtain ⟨inside, htake, hchars⟩ := Option.bind_eq_some_iff.mp h
  obtain ⟨ps, hps, htext, hname⟩ := pieces_of_chars hchars
  refine ⟨ps, hps, ?_, hname⟩
  rw [take_some htake, htext, stringText]
  simp

theorem shortEscape_escaped (e : Char) :
    (shortEscape e).map Char.toNat = escaped e.toNat := by
  have heq : ∀ c : Char, e = c ↔ e.toNat = c.toNat := fun c => Char.toNat_inj.symm
  simp only [shortEscape, escaped, heq]
  split_ifs <;> simp_all

theorem hexDigits_four (a b c d : Char) :
    hexDigits 0 [a, b, c, d] = hexUnit a.toNat b.toNat c.toNat d.toNat := by
  simp only [hexDigits, hexUnit]
  cases hexValue a.toNat <;> cases hexValue b.toNat <;> cases hexValue c.toNat <;>
    cases hexValue d.toNat <;> simp

theorem hexUnit_lt {a b c d n : Nat} (h : hexUnit a b c d = some n) : n < 65536 := by
  have hdigit : ∀ {c n : Nat}, hexValue c = some n → n < 16 := by
    intro c n hn
    rw [hexValue] at hn
    split_ifs at hn <;> simp at hn <;> omega
  obtain ⟨a, ha, h⟩ := Option.bind_eq_some_iff.mp h
  obtain ⟨b, hb, h⟩ := Option.bind_eq_some_iff.mp h
  obtain ⟨c, hc, h⟩ := Option.bind_eq_some_iff.mp h
  obtain ⟨d, hd, h⟩ := Option.map_eq_some_iff.mp h
  have := hdigit ha
  have := hdigit hb
  have := hdigit hc
  have := hdigit hd
  omega

variable {n : Nat}

theorem fromStrRadix_of_hexUnit {a b c d : Char}
    (h : hexUnit a.toNat b.toNat c.toNat d.toNat = some n) : fromStrRadix [a, b, c, d] = some n := by
  have hplus : a ≠ '+' := by
    intro ha
    subst ha
    cases h
  rw [fromStrRadix, if_neg fun hsign => hplus hsign.1, hexDigits_four, h]

theorem isRead_of_isJson (h : p.IsJson) : IsRead p := by
  cases p with
  | plain c => exact h.2
  | short e =>
      rw [Piece.IsJson, ← shortEscape_escaped, Option.isSome_map] at h
      exact h
  | code a b c d =>
      obtain ⟨n, hn⟩ := Option.isSome_iff_exists.mp h
      rw [IsRead, fromStrRadix_of_hexUnit hn]
      rfl

theorem isJson_of_isProper (hread : IsRead p) (h : IsProper p) : p.IsJson := by
  cases p with
  | plain c => exact ⟨h, hread⟩
  | short e =>
      rw [Piece.IsJson, ← shortEscape_escaped, Option.isSome_map]
      exact hread
  | code a b c d =>
      obtain ⟨n, hn, -⟩ := h
      rw [Piece.IsJson, hn]
      rfl

theorem shortEscape_lt {e c : Char} (h : shortEscape e = some c) : c.toNat < 65536 := by
  rw [shortEscape] at h
  split_ifs at h <;> cases h <;> decide

theorem scalar_valid (h : n.isValidChar) : (scalar n).toNat = n := by
  rw [scalar, if_pos h, Char.ofNat, dif_pos h]
  rfl

theorem scalar_invalid (h : ¬ n.isValidChar) : (scalar n).toNat = 0xFFFD := by
  rw [scalar, if_neg h]
  rfl

theorem isValidChar_iff (h : n < 65536) :
    n.isValidChar ↔ n < 0xD800 ∨ 0xDFFF < n := by
  rw [Nat.isValidChar]
  omega

theorem scalar_lt (h : n < 65536) : (scalar n).toNat < 65536 := by
  by_cases hn : n.isValidChar
  · rwa [scalar_valid hn]
  · rw [scalar_invalid hn]
    decide

theorem units_short {e c : Char} (h : shortEscape e = some c) :
    (Piece.short e).units = utf16Code c.toNat := by
  rw [Piece.units, ← shortEscape_escaped, h, utf16Code, if_pos (shortEscape_lt h)]
  rfl

theorem length_decode (h : p.IsJson) :
    (utf16Code (decode p).toNat).length = p.units.length := by
  cases p with
  | plain c => rfl
  | short e =>
      obtain ⟨c, hc⟩ := Option.isSome_iff_exists.mp (isRead_of_isJson h)
      rw [decode, hc, units_short hc]
      rfl
  | code a b c d =>
      obtain ⟨n, hn⟩ := Option.isSome_iff_exists.mp h
      rw [decode, fromStrRadix_of_hexUnit hn, Option.getD_some, Piece.units, hn, utf16Code,
        if_pos (scalar_lt (hexUnit_lt hn))]
      rfl

theorem isProper_iff (h : p.IsJson) :
    IsProper p ↔ utf16Code (decode p).toNat = p.units := by
  cases p with
  | plain c => exact ⟨fun _ => rfl, fun _ => h.1⟩
  | short e =>
      obtain ⟨c, hc⟩ := Option.isSome_iff_exists.mp (isRead_of_isJson h)
      rw [decode, hc, units_short hc]
      exact ⟨fun _ => rfl, fun _ => trivial⟩
  | code a b c d =>
      obtain ⟨n, hn⟩ := Option.isSome_iff_exists.mp h
      have hlt := hexUnit_lt hn
      rw [decode, fromStrRadix_of_hexUnit hn, Option.getD_some, Piece.units, hn, utf16Code,
        if_pos (scalar_lt hlt), Option.toList_some, List.cons.injEq, IsProper, hn]
      by_cases hvalid : n.isValidChar
      · have hrange := (isValidChar_iff hlt).mp hvalid
        exact ⟨fun _ => ⟨scalar_valid hvalid, rfl⟩, fun _ => ⟨n, rfl, hrange⟩⟩
      · have hrange : ¬ (n < 0xD800 ∨ 0xDFFF < n) := fun h => hvalid ((isValidChar_iff hlt).mpr h)
        rw [scalar_invalid hvalid]
        constructor
        · rintro ⟨m, hm, hout⟩
          cases hm
          exact absurd hout hrange
        · rintro ⟨hsame, -⟩
          omega

end Pieces

section Values

def Passes (t : Text) : Prop :=
  ∀ fuel depth rest, (t ++ rest).length < fuel →
    ∃ fuel', rest.length < fuel' ∧
      valueEnd fuel (depth + 1) (t ++ rest) = valueEnd fuel' (depth + 1) rest

def isOrdinary (c : Char) : Bool :=
  c != '"' && c != '[' && c != '{' && c != ']' && c != '}'

theorem passes_nil : Passes [] := fun fuel _ _ h => ⟨fuel, h, rfl⟩

theorem Passes.append {t u : Text} (ht : Passes t) (hu : Passes u) : Passes (t ++ u) := by
  intro fuel depth rest hlt
  rw [List.append_assoc] at hlt ⊢
  obtain ⟨fuel₁, hlt₁, heq₁⟩ := ht fuel depth (u ++ rest) hlt
  obtain ⟨fuel₂, hlt₂, heq₂⟩ := hu fuel₁ depth rest hlt₁
  exact ⟨fuel₂, hlt₂, heq₁.trans heq₂⟩

variable {c : Char}

theorem passes_char (h : isOrdinary c = true) : Passes [c] := by
  intro fuel depth rest hlt
  simp only [isOrdinary, Bool.and_eq_true, bne_iff_ne] at h
  obtain ⟨⟨⟨⟨hquote, hsquare⟩, hbrace⟩, hsquare'⟩, hbrace'⟩ := h
  rw [List.singleton_append, List.length_cons] at hlt
  obtain ⟨fuel, rfl⟩ : ∃ n, fuel = n + 1 := ⟨fuel - 1, by omega⟩
  refine ⟨fuel, by omega, ?_⟩
  rw [List.singleton_append, valueEnd, if_neg hquote, if_neg (not_or.mpr ⟨hsquare, hbrace⟩),
    if_neg (not_or.mpr ⟨hsquare', hbrace'⟩), if_neg fun h => absurd h.2 (Nat.succ_ne_zero depth)]

variable {t : Text}

theorem passes_ordinary (h : ∀ c ∈ t, isOrdinary c = true) : Passes t := by
  induction t with
  | nil => exact passes_nil
  | cons c t ih =>
      exact (passes_char (h c List.mem_cons_self)).append
        (ih fun d hd => h d (List.mem_cons_of_mem _ hd))

theorem passes_string {ps : List Piece} (h : ∀ p ∈ ps, IsRead p) : Passes (stringText ps) := by
  intro fuel depth rest hlt
  obtain ⟨fuel, rfl⟩ : ∃ n, fuel = n + 1 := ⟨fuel - 1, by omega⟩
  have hread := string_pieces h rest
  rw [stringText, List.cons_append] at hlt hread ⊢
  rw [List.length_cons, List.length_append] at hlt
  refine ⟨fuel, by omega, ?_⟩
  rw [valueEnd, if_pos rfl, hread, Option.bind_some]

theorem valueEnd_open (h : c = '[' ∨ c = '{') (fuel depth : Nat) (rest : Text) :
    valueEnd (fuel + 1) depth (c :: rest) = valueEnd fuel (depth + 1) rest := by
  have hquote : c ≠ '"' := by rcases h with rfl | rfl <;> decide
  rw [valueEnd, if_neg hquote, if_pos h]

theorem valueEnd_close (h : c = ']' ∨ c = '}') (fuel depth : Nat) (rest : Text) :
    valueEnd (fuel + 1) (depth + 1) (c :: rest) =
      if depth = 0 then some rest else valueEnd fuel depth rest := by
  have hquote : c ≠ '"' := by rcases h with rfl | rfl <;> decide
  have hopen : ¬ (c = '[' ∨ c = '{') := by rcases h with rfl | rfl <;> decide
  rw [valueEnd, if_neg hquote, if_neg hopen, if_pos h, if_neg (Nat.succ_ne_zero depth),
    Nat.add_sub_cancel]
  simp

theorem Passes.bracketed {a b : Char} (h : Passes t) (ha : a = '[' ∨ a = '{')
    (hb : b = ']' ∨ b = '}') : Passes (a :: (t ++ [b])) := by
  intro fuel depth rest hlt
  rw [List.cons_append, List.append_assoc, List.singleton_append] at hlt ⊢
  rw [List.length_cons] at hlt
  obtain ⟨fuel, rfl⟩ : ∃ n, fuel = n + 1 := ⟨fuel - 1, by omega⟩
  obtain ⟨fuel₁, hlt₁, heq₁⟩ := h fuel (depth + 1) (b :: rest) (by omega)
  rw [List.length_cons] at hlt₁
  obtain ⟨fuel₁, rfl⟩ : ∃ n, fuel₁ = n + 1 := ⟨fuel₁ - 1, by omega⟩
  refine ⟨fuel₁, by omega, ?_⟩
  rw [valueEnd_open ha, heq₁, valueEnd_close hb, if_neg (Nat.succ_ne_zero depth)]

theorem isOrdinary_of_isSpace (h : isSpace c = true) : isOrdinary c = true := by
  simp only [isSpace, Bool.or_eq_true, beq_iff_eq] at h
  obtain ((rfl | rfl) | rfl) | rfl := h <;> decide

theorem isOrdinary_of_isNumeric (h : isNumeric c = true) : isOrdinary c = true := by
  by_contra hnot
  simp only [isOrdinary, Bool.and_eq_true, bne_iff_ne] at hnot
  have hspecial : c = '"' ∨ c = '[' ∨ c = '{' ∨ c = ']' ∨ c = '}' := by tauto
  rcases hspecial with rfl | rfl | rfl | rfl | rfl <;> exact absurd h (by decide)

theorem passes_spaces (h : IsSpaces t) : Passes t :=
  passes_ordinary fun c hc => isOrdinary_of_isSpace (h c hc)

theorem passes_more {ts : List Text} (h : ∀ t ∈ ts, Passes t) : Passes (more ts) := by
  induction ts with
  | nil => exact passes_nil
  | cons t ts ih =>
      have hcomma : Passes [','] := passes_char (by decide)
      have hfirst := hcomma.append (h t List.mem_cons_self)
      exact hfirst.append (ih fun u hu => h u (List.mem_cons_of_mem _ hu))

theorem passes_listed {gap : Text} {ts : List Text} (hgap : IsSpaces gap)
    (h : ∀ t ∈ ts, Passes t) : Passes (listed gap ts) := by
  cases ts with
  | nil => exact passes_spaces hgap
  | cons t ts =>
      exact (h t List.mem_cons_self).append
        (passes_more fun u hu => h u (List.mem_cons_of_mem _ hu))

theorem Passes.spaced {i : Item} (h : Passes i.text) (hspaced : i.IsSpaced) :
    Passes i.spaced :=
  (passes_spaces hspaced.1).append (h.append (passes_spaces hspaced.2))

theorem passes_json {ps : List Piece} (h : ∀ p ∈ ps, p.IsJson) : Passes (stringText ps) :=
  passes_string fun p hp => isRead_of_isJson (h p hp)

theorem passes_of_spells {v : Value} (h : Spells t v) : Passes t := by
  induction h with
  | null | true | false => exact passes_ordinary (by simp [isOrdinary])
  | num h => exact passes_ordinary fun c hc => isOrdinary_of_isNumeric (h.numeric c hc)
  | str h => exact passes_json h
  | arr hgap hspaced _ ih =>
      refine (passes_listed hgap ?_).bracketed (.inl rfl) (.inl rfl)
      intro t ht
      obtain ⟨i, hi, rfl⟩ := List.mem_map.mp ht
      exact (ih i hi).spaced (hspaced i hi)
  | obj hgap hspaced hnames _ ih =>
      refine (passes_listed hgap ?_).bracketed (.inr rfl) (.inr rfl)
      intro t ht
      obtain ⟨m, hm, rfl⟩ := List.mem_map.mp ht
      have hcolon : Passes [':'] := passes_char (by decide)
      have hvalue := (ih m hm).spaced (hspaced m hm).1
      exact (passes_spaces (hspaced m hm).2.1).append ((passes_json (hnames m hm)).append
        ((passes_spaces (hspaced m hm).2.2).append (hcolon.append hvalue)))

theorem value_of_array {vs : List Value} (h : Spells t (.arr vs)) (rest : Text) :
    value (t ++ rest) = some (t, rest) := by
  obtain ⟨gap, items, hgap, hspaced, hitems, rfl, -⟩ := h.array_inv
  have hinside : Passes (listed gap (items.map Item.spaced)) := passes_listed hgap fun t ht => by
    obtain ⟨i, hi, rfl⟩ := List.mem_map.mp ht
    exact (passes_of_spells (hitems i hi)).spaced (hspaced i hi)
  generalize listed gap (items.map Item.spaced) = inside at hinside
  have hend : valueEnd (('[' :: (inside ++ [']']) ++ rest).length + 1) 0
      ('[' :: (inside ++ [']']) ++ rest) = some rest := by
    rw [List.cons_append, List.append_assoc, List.singleton_append, List.length_cons,
      valueEnd_open (.inl rfl)]
    obtain ⟨fuel, hlt, heq⟩ := hinside ((inside ++ ']' :: rest).length + 1) 0 (']' :: rest)
      (Nat.lt_succ_self _)
    rw [List.length_cons] at hlt
    obtain ⟨fuel, rfl⟩ : ∃ n, fuel = n + 1 := ⟨fuel - 1, by omega⟩
    rw [heq, valueEnd_close (.inl rfl), if_pos rfl]
  rw [value, hend, Option.bind_some, if_neg (by simp; omega), List.length_append, Nat.add_sub_cancel,
    List.take_left]

theorem closes_of_valueEnd {fuel depth : Nat} {text rest : Text}
    (h : valueEnd fuel (depth + 1) text = some rest) :
    ∃ front c, text = front ++ c :: rest ∧ (c = ']' ∨ c = '}') := by
  induction fuel generalizing depth text with
  | zero => cases h
  | succ fuel ih =>
      cases text with
      | nil => cases h
      | cons c text =>
          rw [valueEnd] at h
          by_cases hquote : c = '"'
          · rw [if_pos hquote] at h
            obtain ⟨⟨name, left⟩, hstring, hleft⟩ := Option.bind_eq_some_iff.mp h
            obtain ⟨front, d, hfront, hd⟩ := ih hleft
            obtain ⟨ps, -, htext, -⟩ := pieces_of_string hstring
            exact ⟨stringText ps ++ front, d, by rw [htext, List.append_assoc, ← hfront], hd⟩
          rw [if_neg hquote] at h
          by_cases hopen : c = '[' ∨ c = '{'
          · rw [if_pos hopen] at h
            obtain ⟨front, d, hfront, hd⟩ := ih h
            exact ⟨c :: front, d, by rw [List.cons_append, ← hfront], hd⟩
          rw [if_neg hopen] at h
          by_cases hclose : c = ']' ∨ c = '}'
          · rw [if_pos hclose, if_neg (Nat.succ_ne_zero depth), Nat.add_sub_cancel] at h
            by_cases hlast : depth = 0
            · rw [if_pos (by omega)] at h
              exact ⟨[], c, by rw [Option.some.inj h, List.nil_append], hclose⟩
            · rw [if_neg (by omega)] at h
              obtain ⟨depth, rfl⟩ : ∃ n, depth = n + 1 := ⟨depth - 1, by omega⟩
              obtain ⟨front, d, hfront, hd⟩ := ih h
              exact ⟨c :: front, d, by rw [List.cons_append, ← hfront], hd⟩
          rw [if_neg hclose, if_neg fun h => absurd h.2 (Nat.succ_ne_zero depth)] at h
          obtain ⟨front, d, hfront, hd⟩ := ih h
          exact ⟨c :: front, d, by rw [List.cons_append, ← hfront], hd⟩

theorem bracketed_of_value {text args rest : Text} (h : value text = some (args, rest))
    (hhead : args.head? = some '[') :
    text = args ++ rest ∧ ∃ inside c, args = '[' :: (inside ++ [c]) ∧ (c = ']' ∨ c = '}') := by
  obtain ⟨left, hend, htaken⟩ := Option.bind_eq_some_iff.mp h
  by_cases hlength : left.length = text.length
  · rw [if_pos hlength] at htaken
    cases htaken
  rw [if_neg hlength] at htaken
  cases htaken
  cases text with
  | nil =>
      rw [List.take_nil] at hhead
      cases hhead
  | cons c text =>
      have hc : c = '[' := by
        cases hcount : (c :: text).length - rest.length with
        | zero =>
            rw [hcount] at hhead
            cases hhead
        | succ count =>
            rw [hcount] at hhead
            exact Option.some.inj hhead
      subst hc
      rw [valueEnd_open (.inl rfl)] at hend
      obtain ⟨front, d, htext, hd⟩ := closes_of_valueEnd hend
      have hargs : ('[' :: text).take (('[' :: text).length - rest.length) =
          '[' :: (front ++ [d]) := by
        have hcount : ('[' :: text).length - rest.length = ('[' :: (front ++ [d])).length := by
          rw [htext]
          simp
          omega
        have hsplit : '[' :: text = '[' :: (front ++ [d]) ++ rest := by rw [htext]; simp
        rw [hcount, hsplit, List.take_left]
      rw [hargs]
      exact ⟨by rw [htext]; simp, front, d, rfl, hd⟩

end Values

section Layouts

structure Entry where
  before : Text
  inside : Text
  name : List Piece
  beforeComma : Text
  afterComma : Text
  args : Text
  beforeClose : Text
  after : Text

namespace Entry

def text (e : Entry) : Text :=
  e.before ++ '[' :: (e.inside ++ (stringText e.name ++ (e.beforeComma ++ ',' ::
    (e.afterComma ++ (e.args ++ (e.beforeClose ++ ']' :: e.after))))))

structure IsSpaced (e : Entry) : Prop where
  before : IsSpaces e.before
  inside : IsSpaces e.inside
  beforeComma : IsSpaces e.beforeComma
  afterComma : IsSpaces e.afterComma
  beforeClose : IsSpaces e.beforeClose
  after : IsSpaces e.after

def call (e : Entry) : Call := (e.name.map decode, e.args)

def IsListed (e : Entry) : Prop :=
  (∀ p ∈ e.name, IsRead p) ∧ ∃ vs, Spells e.args (.arr vs)

end Entry

def Layout (body : Text) (es : List Entry) : Prop :=
  ∃ before gap after, IsSpaces before ∧ IsSpaces gap ∧ IsSpaces after ∧
    (∀ e ∈ es, e.IsSpaced) ∧
    body = before ++ '[' :: (listed gap (es.map Entry.text) ++ ']' :: after)

variable {ws : Text}

theorem space_spaces (h : IsSpaces ws) (rest : Text) :
    space (ws ++ rest) = space rest := by
  rw [space, space, List.dropWhile_append_of_pos h]

variable {c : Char}

theorem space_cons (h : isSpace c = false) (rest : Text) :
    space (c :: rest) = c :: rest := by
  rw [space, List.dropWhile_cons_of_neg (by rw [h]; decide)]

theorem space_to (h : IsSpaces ws) (hc : isSpace c = false) (rest : Text) :
    space (ws ++ c :: rest) = c :: rest := by
  rw [space_spaces h, space_cons hc]

theorem exists_space (text : Text) : ∃ ws, IsSpaces ws ∧ text = ws ++ space text :=
  ⟨text.takeWhile isSpace, fun c hc => List.all_eq_true.mp List.all_takeWhile c hc,
    List.takeWhile_append_dropWhile.symm⟩

theorem take_cons (c : Char) (rest : Text) : take c (c :: rest) = some rest := if_pos rfl

theorem take_of_ne {c d : Char} (h : d ≠ c) (rest : Text) : take c (d :: rest) = none := if_neg h

theorem space_of_spaces (h : IsSpaces ws) : space ws = [] := by
  have hrest := space_spaces h []
  rwa [List.append_nil] at hrest

theorem okOr_ok {α : Type} {a : Option α} {error : String} {x : α} (h : okOr a error = .ok x) :
    a = some x := by
  cases a with
  | none => cases h
  | some a => exact congrArg some (Except.ok.inj h)

theorem Entry.IsSpaced.call_text {e : Entry} (hspaced : e.IsSpaced) (h : e.IsListed) (rest : Text) :
    Scan.call (e.text ++ rest) = .ok (e.call, e.after ++ rest) := by
  obtain ⟨hname, vs, hargs⟩ := h
  obtain ⟨args, hbracket⟩ : ∃ t, e.args = '[' :: t := by
    obtain ⟨gap, items, -, -, -, htext, -⟩ := hargs.array_inv
    exact ⟨_, htext⟩
  have hstring : ∀ t, space (e.inside ++ (stringText e.name ++ t)) = stringText e.name ++ t :=
    fun t => space_to hspaced.inside (by decide) _
  have hvalue : ∀ t, space (e.afterComma ++ (e.args ++ t)) = e.args ++ t := fun t => by
    rw [hbracket, List.cons_append]
    exact space_to hspaced.afterComma (by decide) _
  simp only [Scan.call, Entry.text, List.append_assoc, List.cons_append]
  rw [space_to hspaced.before (by decide), take_cons]
  simp only [okOr, bind, Except.bind]
  rw [hstring, string_pieces hname]
  simp only
  rw [space_to hspaced.beforeComma (by decide), take_cons]
  simp only
  rw [hvalue, value_of_array hargs]
  have hhead : e.args.head? = some '[' := by rw [hbracket]; rfl
  simp only [Option.filter, hhead, BEq.rfl, if_true]
  rw [space_to hspaced.beforeClose (by decide), take_cons]
  rfl

theorem calls_listed {e : Entry} {es : List Entry} (hspaced : ∀ d ∈ e :: es, d.IsSpaced)
    (h : ∀ d ∈ e :: es, d.IsListed) {fuel : Nat} (hfuel : es.length < fuel) (after : Text) :
    calls fuel (e.text ++ (more (es.map Entry.text) ++ ']' :: after)) =
      .ok ((e :: es).map Entry.call, after) := by
  induction es generalizing e fuel with
  | nil =>
      obtain ⟨fuel, rfl⟩ : ∃ n, fuel = n + 1 := ⟨fuel - 1, by omega⟩
      have hfirst := hspaced e List.mem_cons_self
      have hspace : space (e.after ++ ']' :: after) = ']' :: after :=
        space_to hfirst.after (by decide) after
      rw [calls, hfirst.call_text (h e List.mem_cons_self)]
      simp only [bind, Except.bind, List.map_nil, more, List.flatMap_nil, List.nil_append]
      rw [hspace, take_of_ne (by decide), take_cons]
      rfl
  | cons d es ih =>
      obtain ⟨fuel, rfl⟩ : ∃ n, fuel = n + 1 := ⟨fuel - 1, by omega⟩
      have hfirst := hspaced e List.mem_cons_self
      have hlist : more ((d :: es).map Entry.text) ++ ']' :: after =
          ',' :: (d.text ++ (more (es.map Entry.text) ++ ']' :: after)) := by simp [more]
      have hspace : ∀ t, space (e.after ++ ',' :: t) = ',' :: t := space_to hfirst.after (by decide)
      rw [List.length_cons] at hfuel
      have hothers := ih (fun c hc => hspaced c (List.mem_cons_of_mem _ hc))
        (fun c hc => h c (List.mem_cons_of_mem _ hc)) (Nat.lt_of_succ_lt_succ hfuel)
      rw [hlist, calls, hfirst.call_text (h e List.mem_cons_self)]
      simp only [bind, Except.bind]
      rw [hspace, take_cons]
      simp only
      rw [hothers]
      rfl

theorem length_le_more (ts : List Text) : ts.length ≤ (more ts).length := by
  induction ts with
  | nil => exact Nat.zero_le _
  | cons t ts ih =>
      rw [more_cons, List.length_cons, List.length_cons, List.length_append]
      omega

theorem parse_of_layout {body : Text} {es : List Entry} (h : Layout body es)
    (hlisted : ∀ e ∈ es, e.IsListed) : parse body = .ok (es.map Entry.call) := by
  obtain ⟨before, gap, after, hbefore, hgap, hafter, hspaced, rfl⟩ := h
  rw [parse, space_to hbefore (by decide), take_cons]
  simp only [okOr, bind, Except.bind]
  cases es with
  | nil =>
      rw [List.map_nil, listed, space_to hgap (by decide), take_cons]
      simp only
      rw [if_pos (space_of_spaces hafter)]
      rfl
  | cons e es =>
      have htext : listed gap ((e :: es).map Entry.text) ++ ']' :: after =
          e.text ++ (more (es.map Entry.text) ++ ']' :: after) := by simp [listed]
      have hopen : take ']' (space (e.text ++ (more (es.map Entry.text) ++ ']' :: after))) = none := by
        rw [Entry.text, List.append_assoc, List.cons_append,
          space_to (hspaced e List.mem_cons_self).before (by decide), take_of_ne (by decide)]
      have hcount : es.length < (e.text ++ (more (es.map Entry.text) ++ ']' :: after)).length := by
        have := length_le_more (es.map Entry.text)
        rw [List.length_map] at this
        simp only [List.length_append, List.length_cons]
        omega
      rw [htext, hopen]
      simp only
      rw [calls_listed hspaced hlisted hcount]
      simp only
      rw [if_pos (space_of_spaces hafter)]

/-- The scanner reads the name, and the arguments stand between brackets. -/
def Entry.IsScanned (e : Entry) : Prop :=
  (∀ p ∈ e.name, IsRead p) ∧
    ∃ inside c, e.args = '[' :: (inside ++ [c]) ∧ (c = ']' ∨ c = '}')

theorem ok_of_bind {ε α β : Type} {a : Except ε α} {f : α → Except ε β} {b : β}
    (h : a >>= f = .ok b) : ∃ x, a = .ok x ∧ f x = .ok b := by
  cases a with
  | error => cases h
  | ok x => exact ⟨x, rfl, h⟩

theorem taken {text rest : Text} {error : String}
    (h : okOr (take c (space text)) error = .ok rest) :
    ∃ ws, IsSpaces ws ∧ text = ws ++ c :: rest := by
  obtain ⟨ws, hws, htext⟩ := exists_space text
  exact ⟨ws, hws, by rw [← take_some (okOr_ok h), ← htext]⟩

theorem entry_of_call {text rest after : Text} {c : Call}
    (h : Scan.call text = .ok (c, after ++ rest)) (hafter : IsSpaces after) :
    ∃ e : Entry, e.IsSpaced ∧ e.IsScanned ∧ text = e.text ++ rest ∧ c = e.call := by
  obtain ⟨text₁, hopen, h₁⟩ := ok_of_bind h
  obtain ⟨before, hbefore, rfl⟩ := taken hopen
  obtain ⟨⟨name, text₂⟩, hname, h₂⟩ := ok_of_bind h₁
  obtain ⟨inside, hinside, hinsideText⟩ := exists_space text₁
  obtain ⟨ps, hps, hstring, rfl⟩ := pieces_of_string (okOr_ok hname)
  obtain ⟨text₃, hcomma, h₃⟩ := ok_of_bind h₂
  obtain ⟨beforeComma, hbeforeComma, rfl⟩ := taken hcomma
  obtain ⟨⟨args, text₄⟩, hargs, h₄⟩ := ok_of_bind h₃
  obtain ⟨afterComma, hafterComma, hargsText⟩ := exists_space text₃
  obtain ⟨hvalue, hhead⟩ := Option.filter_eq_some_iff.mp (okOr_ok hargs)
  obtain ⟨htext, hbracket⟩ := bracketed_of_value hvalue (by simpa using hhead)
  obtain ⟨text₅, hclose, h₅⟩ := ok_of_bind h₄
  obtain ⟨beforeClose, hbeforeClose, rfl⟩ := taken hclose
  cases h₅
  refine ⟨⟨before, inside, ps, beforeComma, afterComma, args, beforeClose, after⟩,
    ⟨hbefore, hinside, hbeforeComma, hafterComma, hbeforeClose, hafter⟩, ⟨hps, hbracket⟩, ?_, rfl⟩
  rw [hinsideText, hstring, hargsText, htext, Entry.text]
  simp

theorem entries_of_calls {fuel : Nat} {text rest : Text} {found : List Call}
    (h : calls fuel text = .ok (found, rest)) :
    ∃ e es, (∀ d ∈ e :: es, d.IsSpaced ∧ d.IsScanned) ∧
      text = e.text ++ (more (es.map Entry.text) ++ ']' :: rest) ∧
      found = (e :: es).map Entry.call := by
  induction fuel generalizing text found with
  | zero => cases h
  | succ fuel ih =>
      obtain ⟨⟨first, text₁⟩, hfirst, h⟩ := ok_of_bind h
      obtain ⟨after, hafter, hrest⟩ := exists_space text₁
      simp only at h
      cases hcomma : take ',' (space text₁) with
      | some text₂ =>
          rw [hcomma] at h
          obtain ⟨⟨others, text₃⟩, hothers, h⟩ := ok_of_bind h
          cases h
          obtain ⟨d, es, hlisted, rfl, rfl⟩ := ih hothers
          rw [take_some hcomma] at hrest
          rw [hrest] at hfirst
          obtain ⟨e, hspaced, hscanned, rfl, rfl⟩ := entry_of_call hfirst hafter
          refine ⟨e, d :: es, List.forall_mem_cons.mpr ⟨⟨hspaced, hscanned⟩, hlisted⟩, ?_, rfl⟩
          simp [more]
      | none =>
          rw [hcomma] at h
          obtain ⟨text₂, hclose, h⟩ := ok_of_bind h
          cases h
          rw [take_some (okOr_ok hclose)] at hrest
          rw [hrest] at hfirst
          obtain ⟨e, hspaced, hscanned, rfl, rfl⟩ := entry_of_call hfirst hafter
          refine ⟨e, [], List.forall_mem_cons.mpr ⟨⟨hspaced, hscanned⟩, ?_⟩, ?_, rfl⟩
          · exact fun _ hd => absurd hd List.not_mem_nil
          · simp [more]

theorem spaces_of_space {text : Text} (h : space text = []) : IsSpaces text := by
  obtain ⟨ws, hws, htext⟩ := exists_space text
  rw [h, List.append_nil] at htext
  rwa [htext]

theorem layout_of_parse {body : Text} {found : List Call} (h : parse body = .ok found) :
    ∃ es, Layout body es ∧ (∀ e ∈ es, e.IsScanned) ∧ found = es.map Entry.call := by
  obtain ⟨text, hopen, h₁⟩ := ok_of_bind h
  obtain ⟨before, hbefore, rfl⟩ := taken hopen
  obtain ⟨gap, hgap, hgaptext⟩ := exists_space text
  cases hclose : take ']' (space text) with
  | some after =>
      rw [hclose] at h₁
      simp only at h₁
      by_cases hend : space after = []
      · rw [if_pos hend] at h₁
        cases h₁
        rw [take_some hclose] at hgaptext
        exact ⟨[], ⟨before, gap, after, hbefore, hgap, spaces_of_space hend,
          fun _ he => absurd he List.not_mem_nil, by rw [hgaptext]; rfl⟩,
          fun _ he => absurd he List.not_mem_nil, rfl⟩
      · rw [if_neg hend] at h₁
        cases h₁
  | none =>
      rw [hclose] at h₁
      obtain ⟨⟨calls, after⟩, hcalls, h₂⟩ := ok_of_bind h₁
      simp only at h₂
      by_cases hend : space after = []
      · rw [if_pos hend] at h₂
        cases h₂
        obtain ⟨e, es, hlisted, rfl, rfl⟩ := entries_of_calls hcalls
        refine ⟨e :: es, ⟨before, [], after, hbefore, fun _ hc => absurd hc List.not_mem_nil,
          spaces_of_space hend, fun d hd => (hlisted d hd).1, ?_⟩,
          fun d hd => (hlisted d hd).2, rfl⟩
        simp [listed]
      · rw [if_neg hend] at h₂
        cases h₂

end Layouts

section Documents

def Entry.item (e : Entry) (v : Value) : Item where
  before := e.before
  text := '[' :: (listed [] [e.inside ++ (stringText e.name ++ e.beforeComma),
    e.afterComma ++ (e.args ++ e.beforeClose)] ++ [']'])
  after := e.after
  value := .arr [.str (e.name.flatMap Piece.units), v]

theorem Entry.item_spaced (e : Entry) (v : Value) : (e.item v).spaced = e.text := by
  simp [Entry.item, Item.spaced, Entry.text, listed, more]

theorem isSpaces_nil : IsSpaces [] := fun _ hc => absurd hc List.not_mem_nil

theorem Entry.IsSpaced.item_spells {e : Entry} (h : e.IsSpaced) (hname : ∀ p ∈ e.name, p.IsJson)
    {v : Value} (hargs : Spells e.args v) : Spells (e.item v).text (e.item v).value := by
  let name : Item := ⟨e.inside, stringText e.name, e.beforeComma,
    .str (e.name.flatMap Piece.units)⟩
  let args : Item := ⟨e.afterComma, e.args, e.beforeClose, v⟩
  refine @Spells.arr [] [name, args] isSpaces_nil ?_ ?_
  · simp only [List.forall_mem_cons]
    exact ⟨⟨h.inside, h.beforeComma⟩, ⟨h.afterComma, h.beforeClose⟩,
      fun _ hi => absurd hi List.not_mem_nil⟩
  · simp only [List.forall_mem_cons]
    exact ⟨.str hname, hargs, fun _ hi => absurd hi List.not_mem_nil⟩

def pair (units : Units) (v : Value) : Value := .arr [.str units, v]

theorem document_of_layout {body : Text} {es : List Entry} (h : Layout body es)
    (hnames : ∀ e ∈ es, ∀ p ∈ e.name, p.IsJson) {vs : List Value}
    (hargs : List.Forall₂ (fun (e : Entry) v => JsonText.Spells e.args v) es vs) :
    Document body (.arr (List.zipWith (fun (e : Entry) v => pair (e.name.flatMap Piece.units) v) es vs)) := by
  obtain ⟨before, gap, after, hbefore, hgap, hafter, hspaced, hbody⟩ := h
  have hitems : (List.zipWith Entry.item es vs).map Item.spaced = es.map Entry.text ∧
      (List.zipWith Entry.item es vs).map Item.value =
        List.zipWith (fun (e : Entry) v => pair (e.name.flatMap Piece.units) v) es vs ∧
      ∀ i ∈ List.zipWith Entry.item es vs, i.IsSpaced ∧ Spells i.text i.value := by
    clear hbody
    induction hargs with
    | nil => exact ⟨rfl, rfl, fun _ hi => absurd hi List.not_mem_nil⟩
    | @cons e v es vs hfirst _ ih =>
        obtain ⟨htexts, hvalues, hrest⟩ := ih (fun d hd => hnames d (List.mem_cons_of_mem _ hd))
          (fun d hd => hspaced d (List.mem_cons_of_mem _ hd))
        have he := hspaced e List.mem_cons_self
        refine ⟨?_, ?_, ?_⟩
        · rw [List.zipWith_cons_cons, List.map_cons, List.map_cons, htexts, Entry.item_spaced]
        · rw [List.zipWith_cons_cons, List.map_cons, List.zipWith_cons_cons, hvalues]
          rfl
        · rw [List.zipWith_cons_cons]
          exact List.forall_mem_cons.mpr ⟨⟨⟨he.before, he.after⟩,
            he.item_spells (hnames e List.mem_cons_self) hfirst⟩, hrest⟩
  obtain ⟨htexts, hvalues, hspells⟩ := hitems
  refine ⟨before, '[' :: (listed gap (es.map Entry.text) ++ [']']), after, hbefore, hafter,
    by rw [hbody]; simp, ?_⟩
  rw [← htexts, ← hvalues]
  exact .arr hgap (fun i hi => (hspells i hi).1) fun i hi => (hspells i hi).2

def Entry.Writes (e : Entry) (p : Units × List Value) : Prop :=
  (∀ q ∈ e.name, q.IsJson) ∧ e.name.flatMap Piece.units = p.1 ∧ Spells e.args (.arr p.2)

theorem entry_of_item {i : Item} (hspaced : i.IsSpaced) {p : Units × List Value}
    (h : Spells i.text (pair p.1 (.arr p.2))) :
    ∃ e : Entry, e.text = i.spaced ∧ e.IsSpaced ∧ e.Writes p := by
  obtain ⟨gap, items, -, hitems, hspells, htext, hvalues⟩ := h.array_inv
  have hlength : items.length = 2 := by simpa using (congrArg List.length hvalues).symm
  obtain ⟨name, args, rfl⟩ := List.length_eq_two.mp hlength
  obtain ⟨hname, hargs⟩ : name.value = .str p.1 ∧ args.value = .arr p.2 := by
    simpa using hvalues.symm
  have hnamed := hspells name List.mem_cons_self
  have hargued := hspells args (List.mem_cons_of_mem _ List.mem_cons_self)
  rw [hname] at hnamed
  rw [hargs] at hargued
  obtain ⟨ps, hps, hstring, hunits⟩ := hnamed.string_inv
  have hfirst := hitems name List.mem_cons_self
  have hsecond := hitems args (List.mem_cons_of_mem _ List.mem_cons_self)
  refine ⟨⟨i.before, name.before, ps, name.after, args.before, args.text, args.after, i.after⟩,
    ?_, ⟨hspaced.1, hfirst.1, hfirst.2, hsecond.1, hsecond.2, hspaced.2⟩, hps, hunits.symm,
    hargued⟩
  rw [Item.spaced, htext]
  simp [Entry.text, Item.spaced, hstring, listed, more]

theorem layout_of_document {body : Text} {named : List (Units × List Value)}
    (h : Document body (.arr (named.map fun p => pair p.1 (.arr p.2)))) :
    ∃ es, Layout body es ∧ List.Forall₂ Entry.Writes es named := by
  obtain ⟨before, text, after, hbefore, hafter, hbody, hspells⟩ := h
  obtain ⟨gap, items, hgap, hspaced, hitems, htext, hvalues⟩ := hspells.array_inv
  have hentries : ∃ es : List Entry, es.map Entry.text = items.map Item.spaced ∧
      (∀ e ∈ es, e.IsSpaced) ∧ List.Forall₂ Entry.Writes es named := by
    clear htext hspells
    induction items generalizing named with
    | nil =>
        obtain rfl : named = [] := by simpa using hvalues
        exact ⟨[], rfl, fun _ he => absurd he List.not_mem_nil, .nil⟩
    | cons i items ih =>
        cases named with
        | nil => cases hvalues
        | cons p named =>
            obtain ⟨hvalue, hrest⟩ := List.cons.inj hvalues
            have hi := hitems i List.mem_cons_self
            rw [← hvalue] at hi
            obtain ⟨e, hetext, hespaced, hwrites⟩ :=
              entry_of_item (hspaced i List.mem_cons_self) hi
            obtain ⟨es, htexts, hes, hall⟩ := ih (fun j hj => hspaced j (List.mem_cons_of_mem _ hj))
              (fun j hj => hitems j (List.mem_cons_of_mem _ hj)) hrest
            exact ⟨e :: es, by rw [List.map_cons, List.map_cons, hetext, htexts],
              List.forall_mem_cons.mpr ⟨hespaced, hes⟩, .cons hwrites hall⟩
  obtain ⟨es, htexts, hes, hall⟩ := hentries
  refine ⟨es, ⟨before, gap, after, hbefore, hgap, hafter, hes, ?_⟩, hall⟩
  rw [hbody, htext, htexts]
  simp

end Documents

section Unique

theorem spaces_unique {a b s t : Text} {c d : Char} (ha : IsSpaces a) (hb : IsSpaces b)
    (hc : isSpace c = false) (hd : isSpace d = false) (h : a ++ c :: s = b ++ d :: t) :
    a = b ∧ c = d ∧ s = t := by
  have hrest := congrArg space h
  rw [space_to ha hc, space_to hb hd] at hrest
  rw [hrest] at h
  exact ⟨List.append_cancel_right h, (List.cons.inj hrest).1, (List.cons.inj hrest).2⟩

theorem entry_unique {d e : Entry} {s t : Text} {x y : Char} (hd : d.IsSpaced) (he : e.IsSpaced)
    (hdlisted : d.IsListed) (helisted : e.IsListed) (hx : isSpace x = false)
    (hy : isSpace y = false) (h : d.text ++ x :: s = e.text ++ y :: t) :
    d = e ∧ x = y ∧ s = t := by
  obtain ⟨hdname, dvs, hdargs⟩ := hdlisted
  obtain ⟨hename, evs, heargs⟩ := helisted
  have hopen : ∀ {u : Text} {vs : List Value}, Spells u (.arr vs) → ∃ v, u = '[' :: v := by
    intro u vs hu
    obtain ⟨gap, items, -, -, -, htext, -⟩ := hu.array_inv
    exact ⟨_, htext⟩
  obtain ⟨du, hdu⟩ := hopen hdargs
  obtain ⟨eu, heu⟩ := hopen heargs
  simp only [Entry.text, List.append_assoc, List.cons_append, stringText] at h
  obtain ⟨hbefore, -, h⟩ := spaces_unique hd.before he.before (by decide) (by decide) h
  obtain ⟨hinside, -, h⟩ := spaces_unique hd.inside he.inside (by decide) (by decide) h
  obtain ⟨hname, h⟩ := pieces_unique (fun p hp => (hdname p hp).delimits)
    (fun p hp => (hename p hp).delimits) h
  obtain ⟨hbeforeComma, -, h⟩ :=
    spaces_unique hd.beforeComma he.beforeComma (by decide) (by decide) h
  rw [hdu, heu, List.cons_append, List.cons_append] at h
  obtain ⟨hafterComma, -, h⟩ :=
    spaces_unique hd.afterComma he.afterComma (by decide) (by decide) h
  have hvalue := congrArg (fun u => value ('[' :: u)) h
  simp only [← List.cons_append] at hvalue
  rw [← hdu, ← heu, value_of_array hdargs, value_of_array heargs] at hvalue
  obtain ⟨hargs, h⟩ := Prod.mk.inj (Option.some.inj hvalue)
  obtain ⟨hbeforeClose, -, h⟩ :=
    spaces_unique hd.beforeClose he.beforeClose (by decide) (by decide) h
  obtain ⟨hafter, hxy, h⟩ := spaces_unique hd.after he.after hx hy h
  refine ⟨?_, hxy, h⟩
  cases d
  cases e
  simp_all

theorem more_head (es : List Entry) (rest : Text) :
    ∃ c t, more (es.map Entry.text) ++ ']' :: rest = c :: t ∧ isSpace c = false := by
  cases es with
  | nil => exact ⟨']', rest, rfl, by decide⟩
  | cons e es => exact ⟨',', _, rfl, by decide⟩

theorem listed_unique {d e : Entry} {ds es : List Entry} {s t : Text}
    (hds : ∀ a ∈ d :: ds, a.IsSpaced ∧ a.IsListed) (hes : ∀ a ∈ e :: es, a.IsSpaced ∧ a.IsListed)
    (h : d.text ++ (more (ds.map Entry.text) ++ ']' :: s) =
      e.text ++ (more (es.map Entry.text) ++ ']' :: t)) : d :: ds = e :: es := by
  induction ds generalizing d e es with
  | nil =>
      obtain ⟨hd, hdlisted⟩ := hds d List.mem_cons_self
      obtain ⟨he, helisted⟩ := hes e List.mem_cons_self
      obtain ⟨y, u, hrest, hy⟩ := more_head es t
      rw [hrest] at h
      obtain ⟨rfl, hxy, -⟩ := entry_unique hd he hdlisted helisted (by decide) hy h
      cases es with
      | nil => rfl
      | cons => exact absurd (hxy.trans (List.cons.inj hrest).1.symm) (by decide)
  | cons d' ds ih =>
      obtain ⟨hd, hdlisted⟩ := hds d List.mem_cons_self
      obtain ⟨he, helisted⟩ := hes e List.mem_cons_self
      obtain ⟨y, u, hrest, hy⟩ := more_head es t
      rw [hrest] at h
      obtain ⟨rfl, hxy, hmore⟩ := @entry_unique d e _ u ',' y hd he hdlisted helisted (by decide) hy
        (by rwa [List.map_cons, more_cons, List.cons_append, List.append_assoc] at h)
      subst hxy
      cases es with
      | nil => exact absurd (List.cons.inj hrest).1 (by decide)
      | cons e' es =>
          rw [List.map_cons, more_cons, List.cons_append, List.append_assoc] at hrest
          rw [← (List.cons.inj hrest).2] at hmore
          rw [ih (fun a ha => hds a (List.mem_cons_of_mem _ ha))
            (fun a ha => hes a (List.mem_cons_of_mem _ ha)) hmore]

theorem layout_unique {body : Text} {ds es : List Entry} (hds : Layout body ds)
    (hes : Layout body es) (hdlisted : ∀ d ∈ ds, d.IsListed) (helisted : ∀ e ∈ es, e.IsListed) :
    ds = es := by
  obtain ⟨before, gap, after, hbefore, hgap, -, hdspaced, hbody⟩ := hds
  obtain ⟨before', gap', after', hbefore', hgap', -, hespaced, hbody'⟩ := hes
  obtain ⟨-, -, h⟩ := spaces_unique hbefore hbefore' (by decide) (by decide)
    (hbody.symm.trans hbody')
  -- Past the first bracket, a list without writes shows its closing bracket.
  have hfirst : ∀ (e : Entry) (rest : Text), e.IsSpaced → ∀ {gap t : Text}, IsSpaces gap →
      gap ++ ']' :: t ≠ e.text ++ rest := by
    intro e rest he gap t hgap hsame
    rw [Entry.text, List.append_assoc, List.cons_append] at hsame
    exact absurd (spaces_unique hgap he.before (by decide) (by decide) hsame).2.1 (by decide)
  cases ds with
  | nil =>
      cases es with
      | nil => rfl
      | cons e es =>
          simp only [List.map_nil, List.map_cons, listed, List.append_assoc] at h
          exact absurd h (hfirst e _ (hespaced e List.mem_cons_self) hgap)
  | cons d ds =>
      cases es with
      | nil =>
          simp only [List.map_nil, List.map_cons, listed, List.append_assoc] at h
          exact absurd h.symm (hfirst d _ (hdspaced d List.mem_cons_self) hgap')
      | cons e es =>
          simp only [List.map_cons, listed, List.append_assoc] at h
          exact listed_unique (fun a ha => ⟨hdspaced a ha, hdlisted a ha⟩)
            (fun a ha => ⟨hespaced a ha, helisted a ha⟩) h

end Unique

section Agreement

/-- The scanner agrees with the grammar on a body.  What it reads, where every argument text is
JSON, is the array of the pairs that the body spells; and a body that spells such an array is
read as its names and the texts of its arguments. -/
structure Agrees (body : Text) : Prop where
  sound : ∀ found, parse body = .ok found → (∀ c ∈ found, ∃ v, Document c.2 v) →
    ∃ vs, List.Forall₂ (fun (c : Call) v => Document c.2 v) found vs ∧
      Document body (.arr (List.zipWith (fun (c : Call) v => pair (utf16 c.1) v) found vs))
  complete : ∀ named : List (Units × List Value),
    Document body (.arr (named.map fun p => pair p.1 (.arr p.2))) →
    ∃ es found, Layout body es ∧ List.Forall₂ Entry.Writes es named ∧ parse body = .ok found ∧
      List.Forall₂ (fun (c : Call) (e : Entry) => c.2 = e.args ∧
        utf16 c.1 = e.name.flatMap Piece.units) found es

theorem utf16_decode {ps : List Piece} (h : ∀ p ∈ ps, p.IsJson) :
    utf16 (ps.map decode) = ps.flatMap Piece.units ↔ ∀ p ∈ ps, IsProper p := by
  induction ps with
  | nil => exact ⟨fun _ _ hp => absurd hp List.not_mem_nil, fun _ => rfl⟩
  | cons p ps ih =>
      have hp := h p List.mem_cons_self
      rw [List.map_cons, EcmaStrings.utf16_cons, List.flatMap_cons, List.forall_mem_cons,
        isProper_iff hp, ← ih fun q hq => h q (List.mem_cons_of_mem _ hq)]
      constructor
      · intro hsame
        exact List.append_inj hsame (length_decode hp)
      · rintro ⟨hfirst, hrest⟩
        rw [hfirst, hrest]

variable {e : Entry}

theorem Entry.IsScanned.array (h : e.IsScanned) {v : Value}
    (hargs : Document e.args v) : ∃ vs, v = .arr vs ∧ Spells e.args (.arr vs) := by
  obtain ⟨-, inside, c, htext, hc⟩ := h
  have hclose : isSpace c = false := by rcases hc with rfl | rfl <;> decide
  rw [htext] at hargs ⊢
  have hspells := hargs.tight (by decide) hclose
  obtain ⟨vs, rfl⟩ := hspells.array_of_bracket
  exact ⟨vs, rfl, hspells⟩

theorem Entry.IsListed.scanned (h : e.IsListed) : e.IsScanned := by
  obtain ⟨hname, vs, hargs⟩ := h
  obtain ⟨gap, items, -, -, -, htext, -⟩ := hargs.array_inv
  exact ⟨hname, _, ']', htext, .inl rfl⟩

theorem Entry.Writes.listed {p : Units × List Value} (h : e.Writes p) :
    e.IsListed :=
  ⟨fun q hq => isRead_of_isJson (h.1 q hq), p.2, h.2.2⟩

variable {es : List Entry}

theorem exists_values (h : ∀ e ∈ es, ∃ v, Spells e.args v) :
    ∃ vs, List.Forall₂ (fun (e : Entry) v => JsonText.Spells e.args v) es vs := by
  induction es with
  | nil => exact ⟨[], .nil⟩
  | cons e es ih =>
      obtain ⟨v, hv⟩ := h e List.mem_cons_self
      obtain ⟨vs, hvs⟩ := ih fun d hd => h d (List.mem_cons_of_mem _ hd)
      exact ⟨v :: vs, .cons hv hvs⟩

theorem zipWith_call
    (h : ∀ e ∈ es, utf16 (e.name.map decode) = e.name.flatMap Piece.units) (vs : List Value) :
    List.zipWith (fun (c : Call) v => pair (utf16 c.1) v) (es.map Entry.call) vs =
      List.zipWith (fun (e : Entry) v => pair (e.name.flatMap Piece.units) v) es vs := by
  rw [List.zipWith_map_left]
  induction es generalizing vs with
  | nil => rfl
  | cons e es ih =>
      cases vs with
      | nil => rfl
      | cons v vs =>
          rw [List.zipWith_cons_cons, List.zipWith_cons_cons,
            ih fun d hd => h d (List.mem_cons_of_mem _ hd)]
          rw [show utf16 e.call.1 = _ from h e List.mem_cons_self]

theorem exists_named (h : ∀ e ∈ es, e.IsScanned) {vs : List Value}
    (hargs : List.Forall₂ (fun (c : Call) v => Document c.2 v) (es.map Entry.call) vs) :
    ∃ named : List (Units × List Value),
      List.Forall₂ (fun (e : Entry) p => p.1 = utf16 (e.name.map decode)) es named ∧
      List.zipWith (fun (c : Call) v => pair (utf16 c.1) v) (es.map Entry.call) vs =
        named.map fun p => pair p.1 (.arr p.2) := by
  rw [List.forall₂_map_left_iff] at hargs
  induction hargs with
  | nil => exact ⟨[], .nil, rfl⟩
  | @cons e v es vs hfirst _ ih =>
      obtain ⟨named, hnamed, hzip⟩ := ih fun d hd => h d (List.mem_cons_of_mem _ hd)
      obtain ⟨xs, rfl, -⟩ := (h e List.mem_cons_self).array hfirst
      refine ⟨(utf16 (e.name.map decode), xs) :: named, .cons rfl hnamed, ?_⟩
      rw [List.map_cons, List.zipWith_cons_cons, List.map_cons, hzip]
      rfl

theorem exists_both {α β : Type} {r s : α → β → Prop} {as : List α} {bs : List β}
    (hr : List.Forall₂ r as bs) (hs : List.Forall₂ s as bs) :
    ∀ a ∈ as, ∃ b, r a b ∧ s a b := by
  induction hr with
  | nil => exact fun _ ha => absurd ha List.not_mem_nil
  | @cons a b as bs hfirst _ ih =>
      cases hs with
      | cons hfirst' hs => exact List.forall_mem_cons.mpr ⟨⟨b, hfirst, hfirst'⟩, ih hs⟩

theorem Agrees.proper {body : Text} (h : Agrees body) (hlayout : Layout body es)
    (hlisted : ∀ e ∈ es, e.IsListed) : ∀ e ∈ es, ∀ p ∈ e.name, IsProper p := by
  intro e he
  obtain ⟨vs, hargs, hdocument⟩ := h.sound _ (parse_of_layout hlayout hlisted) (by
    intro c hc
    obtain ⟨d, hd, rfl⟩ := List.mem_map.mp hc
    obtain ⟨-, vs, hargs⟩ := hlisted d hd
    exact ⟨_, hargs.document⟩)
  obtain ⟨named, hnamed, hzip⟩ := exists_named (fun d hd => (hlisted d hd).scanned) hargs
  rw [hzip] at hdocument
  obtain ⟨es', hlayout', hwrites⟩ := layout_of_document hdocument
  have hlisted' : ∀ d ∈ es', d.IsListed := by
    intro d hd
    obtain ⟨p, hp, -⟩ := exists_both hwrites hwrites d hd
    exact hp.listed
  obtain rfl := layout_unique hlayout hlayout' hlisted hlisted'
  obtain ⟨p, hname, hjson, hunits, -⟩ := exists_both hnamed hwrites e he
  exact (utf16_decode hjson).mp (hname.symm.trans hunits.symm)

theorem agrees_of_proper {body : Text} (h : ∀ es, Layout body es → (∀ e ∈ es, e.IsListed) →
    ∀ e ∈ es, ∀ p ∈ e.name, IsProper p) : Agrees body := by
  constructor
  · intro found hparse hvalid
    obtain ⟨es, hlayout, hscanned, rfl⟩ := layout_of_parse hparse
    have hspells : ∀ e ∈ es, ∃ v, JsonText.Spells e.args v ∧ ∃ vs, v = .arr vs := by
      intro e he
      obtain ⟨v, hv⟩ := hvalid e.call (List.mem_map_of_mem he)
      obtain ⟨vs, -, hvs⟩ := (hscanned e he).array hv
      exact ⟨_, hvs, vs, rfl⟩
    have hproper := h es hlayout fun e he => by
      obtain ⟨-, hv, vs, rfl⟩ := hspells e he
      exact ⟨(hscanned e he).1, vs, hv⟩
    have hjson : ∀ e ∈ es, ∀ p ∈ e.name, p.IsJson := fun e he p hp =>
      isJson_of_isProper ((hscanned e he).1 p hp) (hproper e he p hp)
    obtain ⟨vs, hvs⟩ := exists_values fun e he => (hspells e he).imp fun _ hv => hv.1
    refine ⟨vs, ?_, ?_⟩
    · rw [List.forall₂_map_left_iff]
      exact hvs.imp fun _ _ hv => hv.document
    · rw [zipWith_call (fun e he => (utf16_decode (hjson e he)).mpr (hproper e he))]
      exact document_of_layout hlayout hjson hvs
  · intro named hdocument
    obtain ⟨es, hlayout, hwrites⟩ := layout_of_document hdocument
    have hall := exists_both hwrites hwrites
    have hlisted : ∀ e ∈ es, e.IsListed := fun e he => by
      obtain ⟨p, hp, -⟩ := hall e he
      exact hp.listed
    refine ⟨es, _, hlayout, hwrites, parse_of_layout hlayout hlisted, ?_⟩
    rw [List.forall₂_map_left_iff, List.forall₂_same]
    intro e he
    obtain ⟨p, hp, -⟩ := hall e he
    exact ⟨rfl, (utf16_decode hp.1).mpr (h es hlayout hlisted e he)⟩

/-- The scanner agrees with the grammar exactly where every piece of every name it lists is
proper. -/
theorem agrees_iff (body : Text) :
    Agrees body ↔ ∀ es, Layout body es → (∀ e ∈ es, e.IsListed) →
      ∀ e ∈ es, ∀ p ∈ e.name, IsProper p :=
  ⟨fun h _ hlayout hlisted => h.proper hlayout hlisted, agrees_of_proper⟩

/-- A name spelled with an escaped surrogate pair is read as two replacement characters. -/
theorem surrogates_replaced : ¬ Agrees "[[\"\\ud83d\\ude00\",[]]]".toList := by
  intro h
  let e : Entry := ⟨[], [], [.code 'd' '8' '3' 'd', .code 'd' 'e' '0' '0'], [], [], ['[', ']'],
    [], []⟩
  have hspaced : e.IsSpaced := by constructor <;> exact isSpaces_nil
  have hlayout : Layout "[[\"\\ud83d\\ude00\",[]]]".toList [e] :=
    ⟨[], [], [], isSpaces_nil, isSpaces_nil, isSpaces_nil, by simpa using hspaced, by decide⟩
  have hargs : Spells e.args (.arr []) :=
    @Spells.arr [] [] isSpaces_nil (fun _ hi => absurd hi List.not_mem_nil)
      fun _ hi => absurd hi List.not_mem_nil
  have hread : ∀ p ∈ e.name, IsRead p := by
    intro p hp
    simp only [e, List.mem_cons, List.not_mem_nil, or_false] at hp
    rcases hp with rfl | rfl <;> exact Eq.refl true
  obtain ⟨n, hn, hrange⟩ := h.proper hlayout (by simpa using ⟨hread, [], hargs⟩) e
    List.mem_cons_self (.code 'd' '8' '3' 'd') List.mem_cons_self
  have hcode : n = 0xD83D := by simpa using hn.symm.trans (by decide : _ = some 0xD83D)
  omega

end Agreement

end Scan
end Serve
end Zdeceptron
