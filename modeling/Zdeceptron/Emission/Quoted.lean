import Zdeceptron.Library.EcmaStrings

/-!
# Quoted texts

A text of a program is written into a script between single quotes, into a JSON document
between double quotes, and into a JSON document inside a `<script>` element with every `<`
escaped as well.

* `quoted_texts`: what the three encodings hold, and that they are read back.
-/

namespace Zdeceptron
namespace Js

open Library
open Library.EcmaStrings

section Encoders

/-- The general category `Cc`. -/
def isControl (c : Char) : Bool :=
  decide (c.toNat < 32) || decide (127 ≤ c.toNat ∧ c.toNat ≤ 159)

def hexChar (n : Nat) : Char := Char.ofNat (EcmaJson.hexDigit (n % 16))

def unicodeEscape (c : Char) : List Char :=
  ['\\', 'u', hexChar (c.toNat / 4096), hexChar (c.toNat / 256), hexChar (c.toNat / 16),
    hexChar c.toNat]

def stringChar (c : Char) : List Char :=
  if c = '\\' then ['\\', '\\']
  else if c = '\'' then ['\\', '\'']
  else if c = '\n' then ['\\', 'n']
  else if c = '\r' then ['\\', 'r']
  else if c.toNat = 0x2028 then "\\u2028".toList
  else if c.toNat = 0x2029 then "\\u2029".toList
  else if isControl c then unicodeEscape c
  else [c]

def string (value : List Char) : List Char := ['\''] ++ value.flatMap stringChar ++ ['\'']

def jsonChar (c : Char) : List Char :=
  if c = '\\' then ['\\', '\\']
  else if c = '"' then ['\\', '"']
  else if c = '\n' then ['\\', 'n']
  else if c = '\r' then ['\\', 'r']
  else if c = '\t' then ['\\', 't']
  else if isControl c then unicodeEscape c
  else [c]

def jsonString (value : List Char) : List Char := ['"'] ++ value.flatMap jsonChar ++ ['"']

/-- Every `pattern` of a text replaced. -/
def replace (pattern : Char) (replacement text : List Char) : List Char :=
  text.flatMap (fun c => if c = pattern then replacement else [c])

/-- A JSON string literal for a document written inside a `<script>` element. -/
def scriptJson (value : List Char) : List Char :=
  replace '<' "\\u003c".toList (jsonString value)

end Encoders

section Escapes

theorem utf16_hexChar (n : Nat) : utf16Code (hexChar n).toNat = [EcmaJson.hexDigit (n % 16)] := by
  have hlt : n % 16 < 16 := Nat.mod_lt n (by decide)
  unfold hexChar
  interval_cases n % 16 <;> rfl

theorem utf16_unicodeEscape (c : Char) :
    utf16 (unicodeEscape c) = EcmaJson.unicodeEscape c.toNat := by
  simp only [unicodeEscape, utf16_cons, utf16_hexChar, utf16_nil, EcmaJson.unicodeEscape]
  rfl

theorem isControl_lt {c : Char} (h : isControl c = true) : c.toNat < 65536 := by
  simp only [isControl, Bool.or_eq_true, decide_eq_true_eq] at h
  omega

theorem utf16Code_cases (n : Nat) :
    (n < 65536 ∧ utf16Code n = [n]) ∨
      65536 ≤ n ∧ ∃ a b, utf16Code n = [a, b] ∧ 55296 ≤ a ∧ 56320 ≤ b := by
  by_cases h : n < 65536
  · exact .inl ⟨h, if_pos h⟩
  · exact .inr ⟨Nat.not_lt.mp h, _, _, if_neg h, Nat.le_add_right _ _, Nat.le_add_right _ _⟩

theorem hexDigit_ne_brace (n : Nat) : EcmaJson.hexDigit (n % 16) ≠ 123 := by
  have hlt : n % 16 < 16 := Nat.mod_lt n (by decide)
  unfold EcmaJson.hexDigit
  split_ifs <;> omega

theorem readEscape_unicode {n : Nat} (h : n < 65536) (rest : Units) :
    readEscape ((EcmaJson.unicodeEscape n).tail ++ rest) = some ([n], rest) := by
  show readEscape (117 :: _ :: _ :: _ :: _ :: rest) = some ([n], rest)
  rw [readEscape, EcmaJson.hexUnit_unicodeEscape h]
  · rfl
  · exact hexDigit_ne_brace _

end Escapes

section Script

theorem readString_char (c : Char) (rest : Units) :
    ∃ k, 1 ≤ k ∧ k ≤ (utf16 (stringChar c)).length ∧
      ∀ n, readString 39 (n + k) (utf16 (stringChar c) ++ rest) =
        (readString 39 n rest).map (prepend (utf16Code c.toNat)) := by
  have hescape {text units : Units} (hlen : 1 ≤ (utf16 (stringChar c)).length)
      (htext : utf16 (stringChar c) ++ rest = 92 :: text)
      (hunits : readEscape text = some (units, rest)) (hvalue : utf16Code c.toNat = units) :
      ∃ k, 1 ≤ k ∧ k ≤ (utf16 (stringChar c)).length ∧
        ∀ n, readString 39 (n + k) (utf16 (stringChar c) ++ rest) =
          (readString 39 n rest).map (prepend (utf16Code c.toNat)) := by
    refine ⟨1, le_rfl, hlen, fun n => ?_⟩
    rw [htext, hvalue]
    exact readString_escape (by decide) hunits n
  by_cases h₁ : c = '\\'
  · subst h₁
    exact hescape (by decide) rfl rfl rfl
  by_cases h₂ : c = '\''
  · subst h₂
    exact hescape (by decide) rfl rfl rfl
  by_cases h₃ : c = '\n'
  · subst h₃
    exact hescape (by decide) rfl rfl rfl
  by_cases h₄ : c = '\r'
  · subst h₄
    exact hescape (by decide) rfl rfl rfl
  by_cases h₅ : c.toNat = 0x2028
  · obtain rfl : c = '\u2028' := Char.toNat_inj.mp h₅
    exact hescape (by decide) rfl rfl rfl
  by_cases h₆ : c.toNat = 0x2029
  · obtain rfl : c = '\u2029' := Char.toNat_inj.mp h₆
    exact hescape (by decide) rfl rfl rfl
  by_cases h₇ : isControl c = true
  · have hlt := isControl_lt h₇
    have hchar : utf16 (stringChar c) = EcmaJson.unicodeEscape c.toNat := by
      rw [← utf16_unicodeEscape, stringChar, if_neg h₁, if_neg h₂, if_neg h₃, if_neg h₄, if_neg h₅,
        if_neg h₆, if_pos h₇]
    refine hescape ?_ ?_ (readEscape_unicode hlt rest) (if_pos hlt)
    · rw [hchar]
      exact Nat.succ_pos _
    · rw [hchar]
      rfl
  · have hchar : utf16 (stringChar c) = utf16Code c.toNat := by
      rw [stringChar, if_neg h₁, if_neg h₂, if_neg h₃, if_neg h₄, if_neg h₅, if_neg h₆, if_neg h₇]
      exact List.append_nil _
    have hne {d : Char} (hd : c ≠ d) : c.toNat ≠ d.toNat := fun h => hd (Char.toNat_inj.mp h)
    have hplain : ∀ u ∈ utf16Code c.toNat, IsPlain 39 u := by
      have hslash : c.toNat ≠ 92 := hne h₁
      have hquote : c.toNat ≠ 39 := hne h₂
      have hfeed : c.toNat ≠ 10 := hne h₃
      have hreturn : c.toNat ≠ 13 := hne h₄
      intro u hu
      rcases utf16Code_cases c.toNat with ⟨-, hcode⟩ | ⟨-, a, b, hcode, ha, hb⟩
      · rw [hcode, List.mem_singleton] at hu
        subst hu
        exact ⟨hquote, hslash, by simp [isLineTerminator, hfeed, hreturn, h₅, h₆]⟩
      · rw [hcode, List.mem_cons, List.mem_singleton] at hu
        refine ⟨by omega, by omega, ?_⟩
        simp only [isLineTerminator, Bool.or_eq_false_iff, beq_eq_false_iff_ne]
        omega
    refine ⟨(utf16Code c.toNat).length, ?_, by rw [hchar], fun n => ?_⟩
    · rcases utf16Code_cases c.toNat with ⟨-, hcode⟩ | ⟨-, a, b, hcode, -⟩ <;> rw [hcode] <;> simp
    · rw [hchar]
      exact readString_plain hplain n rest

theorem readString_chars (value : List Char) (n : Nat)
    (hn : (utf16 (value.flatMap stringChar)).length < n) :
    readString 39 n (utf16 (value.flatMap stringChar) ++ [39]) = some (utf16 value, []) := by
  induction value generalizing n with
  | nil =>
      obtain ⟨m, rfl⟩ := Nat.exists_eq_succ_of_ne_zero (Nat.ne_of_gt hn)
      rfl
  | cons c value ih =>
      obtain ⟨k, hpos, hle, hread⟩ :=
        readString_char c (utf16 (value.flatMap stringChar) ++ [39])
      rw [List.flatMap_cons, utf16_append, List.length_append] at hn
      obtain ⟨m, rfl⟩ : ∃ m, n = m + k := ⟨n - k, by omega⟩
      rw [List.flatMap_cons, utf16_append, List.append_assoc, hread m, ih m (by omega), utf16_cons]
      rfl

theorem stringValue_string (value : List Char) :
    stringValue (utf16 (string value)) = some (utf16 value) := by
  have htext : utf16 (string value) = 39 :: (utf16 (value.flatMap stringChar) ++ [39]) := by
    rw [string, utf16_append, utf16_append]
    rfl
  rw [htext, stringValue, if_pos (.inr rfl), readString_chars value]
  rw [List.length_append]
  exact Nat.lt_succ_of_lt (Nat.lt_succ_self _)

end Script

section Json

open EcmaJson (parseString)

theorem parseString_plain {units : Units} (h : ∀ c ∈ units, c ≠ 34 ∧ c ≠ 92 ∧ 32 ≤ c)
    (rest : Units) :
    parseString (units ++ rest) = (parseString rest).map (prepend units) := by
  induction units with
  | nil => cases hrest : parseString rest <;> exact hrest
  | cons c units ih =>
      obtain ⟨hquote, hslash, hlow⟩ := h c List.mem_cons_self
      rw [List.cons_append, EcmaJson.parseString_raw hquote hslash hlow,
        ih (fun d hd => h d (List.mem_cons_of_mem _ hd)), Option.map_map]
      rfl

theorem parseString_unicode {n : Nat} (h : n < 65536) (rest : Units) :
    parseString (EcmaJson.unicodeEscape n ++ rest) = (parseString rest).map (prepend [n]) := by
  simp only [EcmaJson.unicodeEscape, List.cons_append, List.nil_append]
  rw [parseString, EcmaJson.hexUnit_unicodeEscape h, Option.bind_some]
  rfl

theorem parseString_char (c : Char) (rest : Units) :
    parseString (utf16 (jsonChar c) ++ rest) =
      (parseString rest).map (prepend (utf16Code c.toNat)) := by
  by_cases h₁ : c = '\\'
  · subst h₁
    exact EcmaJson.parseString_escaped (c := 92) (by decide) rfl rest
  by_cases h₂ : c = '"'
  · subst h₂
    exact EcmaJson.parseString_escaped (c := 34) (by decide) rfl rest
  by_cases h₃ : c = '\n'
  · subst h₃
    exact EcmaJson.parseString_escaped (c := 110) (by decide) rfl rest
  by_cases h₄ : c = '\r'
  · subst h₄
    exact EcmaJson.parseString_escaped (c := 114) (by decide) rfl rest
  by_cases h₅ : c = '\t'
  · subst h₅
    exact EcmaJson.parseString_escaped (c := 116) (by decide) rfl rest
  by_cases h₆ : isControl c = true
  · have hlt := isControl_lt h₆
    have hchar : utf16 (jsonChar c) = EcmaJson.unicodeEscape c.toNat := by
      rw [← utf16_unicodeEscape, jsonChar, if_neg h₁, if_neg h₂, if_neg h₃, if_neg h₄, if_neg h₅,
        if_pos h₆]
    rw [hchar, parseString_unicode hlt, utf16Code, if_pos hlt]
  · have hchar : utf16 (jsonChar c) = utf16Code c.toNat := by
      rw [jsonChar, if_neg h₁, if_neg h₂, if_neg h₃, if_neg h₄, if_neg h₅, if_neg h₆]
      exact List.append_nil _
    have hne {d : Char} (hd : c ≠ d) : c.toNat ≠ d.toNat := fun h => hd (Char.toNat_inj.mp h)
    have hslash : c.toNat ≠ 92 := hne h₁
    have hquote : c.toNat ≠ 34 := hne h₂
    have hlow : 32 ≤ c.toNat := by
      by_contra hlt
      exact h₆ (by simp only [isControl, Bool.or_eq_true, decide_eq_true_eq]; omega)
    rw [hchar]
    refine parseString_plain (fun u hu => ?_) rest
    rcases utf16Code_cases c.toNat with ⟨-, hcode⟩ | ⟨-, a, b, hcode, ha, hb⟩
    · rw [hcode, List.mem_singleton] at hu
      subst hu
      exact ⟨hquote, hslash, hlow⟩
    · rw [hcode, List.mem_cons, List.mem_singleton] at hu
      exact ⟨by omega, by omega, by omega⟩

theorem parse_chars {encode : Char → List Char}
    (h : ∀ c rest, parseString (utf16 (encode c) ++ rest) =
      (parseString rest).map (prepend (utf16Code c.toNat))) (value : List Char) :
    EcmaJson.parse (utf16 (['"'] ++ value.flatMap encode ++ ['"'])) =
      some (.str (utf16 value)) := by
  have hchars : parseString (utf16 (value.flatMap encode) ++ [34]) = some (utf16 value, []) := by
    induction value with
    | nil => rfl
    | cons c value ih =>
        rw [List.flatMap_cons, utf16_append, List.append_assoc, h, ih, utf16_cons]
        rfl
  have htext : utf16 (['"'] ++ value.flatMap encode ++ ['"']) =
      34 :: (utf16 (value.flatMap encode) ++ [34]) := by
    rw [utf16_append, utf16_append]
    rfl
  rw [htext, EcmaJson.parse, EcmaJson.parseValue, EcmaJson.skipSpace_cons (by decide)]
  simp only [hchars, Option.map_some]
  rfl

/-- One character of a JSON string inside a `<script>` element. -/
def scriptChar (c : Char) : List Char := if c = '<' then "\\u003c".toList else jsonChar c

theorem hexChar_cases (n : Nat) : hexChar n ∈ "0123456789abcdef".toList := by
  have hlt : n % 16 < 16 := Nat.mod_lt n (by decide)
  unfold hexChar
  interval_cases n % 16 <;> decide

theorem mem_unicodeEscape {c d : Char} (h : d ∈ unicodeEscape c) :
    d ∈ "\\u0123456789abcdef".toList := by
  have hdigit (n : Nat) : hexChar n ∈ "\\u0123456789abcdef".toList :=
    List.mem_cons_of_mem _ (List.mem_cons_of_mem _ (hexChar_cases n))
  simp only [unicodeEscape, List.mem_cons, List.not_mem_nil, or_false] at h
  rcases h with rfl | rfl | rfl | rfl | rfl | rfl
  · decide
  · decide
  · exact hdigit _
  · exact hdigit _
  · exact hdigit _
  · exact hdigit _

theorem mem_jsonChar {c d : Char} (h : d ∈ jsonChar c) :
    isControl d = false ∧ (d = '<' → c = '<') := by
  have hescape {text : List Char} (hd : d ∈ text)
      (hall : text.all (fun e => !isControl e && decide (e ≠ '<')) = true) :
      isControl d = false ∧ (d = '<' → c = '<') := by
    have hd := List.all_eq_true.mp hall d hd
    rw [Bool.and_eq_true, Bool.not_eq_true', decide_eq_true_eq] at hd
    exact ⟨hd.1, fun hlt => absurd hlt hd.2⟩
  unfold jsonChar at h
  split_ifs at h with h₁ h₂ h₃ h₄ h₅ h₆
  · exact hescape h rfl
  · exact hescape h rfl
  · exact hescape h rfl
  · exact hescape h rfl
  · exact hescape h rfl
  · exact hescape (mem_unicodeEscape h) rfl
  · rw [List.mem_singleton] at h
    subst h
    exact ⟨Bool.eq_false_iff.mpr h₆, id⟩

theorem scriptJson_eq (value : List Char) :
    scriptJson value = ['"'] ++ value.flatMap scriptChar ++ ['"'] := by
  have hchar (c : Char) : replace '<' "\\u003c".toList (jsonChar c) = scriptChar c := by
    by_cases hc : c = '<'
    · subst hc
      rfl
    · rw [scriptChar, if_neg hc, replace]
      have hnone : ∀ d ∈ jsonChar c, (if d = '<' then "\\u003c".toList else [d]) = [d] :=
        fun d hd => if_neg (fun h => hc ((mem_jsonChar hd).2 h))
      rw [List.flatMap_congr hnone]
      exact List.flatMap_singleton' _
  have hreplace (front back : List Char) : replace '<' "\\u003c".toList (front ++ back) =
      replace '<' "\\u003c".toList front ++ replace '<' "\\u003c".toList back :=
    List.flatMap_append
  rw [scriptJson, jsonString, hreplace, hreplace]
  congr 2
  rw [replace, List.flatMap_assoc]
  exact List.flatMap_congr (fun c _ => hchar c)

theorem parseString_scriptChar (c : Char) (rest : Units) :
    parseString (utf16 (scriptChar c) ++ rest) =
      (parseString rest).map (prepend (utf16Code c.toNat)) := by
  by_cases hc : c = '<'
  · subst hc
    exact parseString_unicode (n := 60) (by decide) rest
  · rw [scriptChar, if_neg hc]
    exact parseString_char c rest

end Json

section All

theorem mem_stringChar {c d : Char} (h : d ∈ stringChar c) :
    isControl d = false ∧ isLineTerminator d.toNat = false := by
  have hescape {text : List Char} (hd : d ∈ text)
      (hall : text.all (fun e => !isControl e && !isLineTerminator e.toNat) = true) :
      isControl d = false ∧ isLineTerminator d.toNat = false := by
    have hd := List.all_eq_true.mp hall d hd
    rwa [Bool.and_eq_true, Bool.not_eq_true', Bool.not_eq_true'] at hd
  unfold stringChar at h
  split_ifs at h with h₁ h₂ h₃ h₄ h₅ h₆ h₇
  · exact hescape h rfl
  · exact hescape h rfl
  · exact hescape h rfl
  · exact hescape h rfl
  · exact hescape h rfl
  · exact hescape h rfl
  · exact hescape (mem_unicodeEscape h) rfl
  · rw [List.mem_singleton] at h
    subst h
    have hne {e : Char} (he : d ≠ e) : d.toNat ≠ e.toNat := fun h => he (Char.toNat_inj.mp h)
    have hfeed : d.toNat ≠ 10 := hne h₃
    have hreturn : d.toNat ≠ 13 := hne h₄
    exact ⟨Bool.eq_false_iff.mpr h₇, by simp [isLineTerminator, hfeed, hreturn, h₅, h₆]⟩

theorem mem_quoted {quote d : Char} {encode : Char → List Char} {value : List Char}
    (h : d ∈ [quote] ++ value.flatMap encode ++ [quote]) : d = quote ∨ ∃ c, d ∈ encode c := by
  simp only [List.mem_append, List.mem_singleton, List.mem_flatMap] at h
  rcases h with (h | ⟨c, -, h⟩) | h
  · exact .inl h
  · exact .inr ⟨c, h⟩
  · exact .inl h

/-- Each quoted text holds no raw control character and is read back as its value; a string
literal holds no raw line terminator, and a JSON string in a `<script>` element no `<`. -/
theorem quoted_texts (value : List Char) :
    ((∀ c ∈ string value, isControl c = false ∧ isLineTerminator c.toNat = false) ∧
        stringValue (utf16 (string value)) = some (utf16 value)) ∧
      ((∀ c ∈ jsonString value, isControl c = false) ∧
        EcmaJson.parse (utf16 (jsonString value)) = some (.str (utf16 value))) ∧
      (∀ c ∈ scriptJson value, isControl c = false ∧ c ≠ '<') ∧
        EcmaJson.parse (utf16 (scriptJson value)) = some (.str (utf16 value)) := by
  refine ⟨⟨fun d hd => ?_, stringValue_string value⟩,
    ⟨fun d hd => ?_, parse_chars parseString_char value⟩, fun d hd => ?_, ?_⟩
  · rcases mem_quoted hd with rfl | ⟨c, hc⟩
    · decide
    · exact mem_stringChar hc
  · rcases mem_quoted hd with rfl | ⟨c, hc⟩
    · decide
    · exact (mem_jsonChar hc).1
  · rw [scriptJson_eq] at hd
    rcases mem_quoted hd with rfl | ⟨c, hc⟩
    · decide
    · unfold scriptChar at hc
      split_ifs at hc with hlt
      · have hall : "\\u003c".toList.all (fun e => !isControl e && decide (e ≠ '<')) = true := rfl
        have hd := List.all_eq_true.mp hall d hc
        rwa [Bool.and_eq_true, Bool.not_eq_true', decide_eq_true_eq] at hd
      · obtain ⟨hcontrol, hsame⟩ := mem_jsonChar hc
        exact ⟨hcontrol, fun h => hlt (hsame h)⟩
  · rw [scriptJson_eq]
    exact parse_chars parseString_scriptChar value

/-- A JSON string keeps U+2028, which ends a line of a script, as it stands. -/
theorem json_keeps_separator :
    ¬∀ c ∈ jsonString ['\u2028'], isControl c = false ∧ isLineTerminator c.toNat = false := by
  have hquoted : jsonString ['\u2028'] = ['"', '\u2028', '"'] := rfl
  intro h
  rw [hquoted] at h
  have hseparator := (h '\u2028' (List.mem_cons_of_mem _ List.mem_cons_self)).2
  cases hseparator

end All

end Js
end Zdeceptron
