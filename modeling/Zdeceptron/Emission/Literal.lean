import Zdeceptron.Emission.Quoted
import Zdeceptron.Library.EcmaLiterals

/-!
# Inlined literals

A JSON document is written into a script as an expression, its separators escaped and an
object or a negative number in parentheses.

* `literal_eq_parse_iff`: the documents whose expression is what `JSON.parse` reads.
-/

namespace Zdeceptron
namespace Js

open Library
open Library.EcmaStrings
open Library.EcmaLiterals (Tree document ended expression readItems readMembers readTree spell
  spellUnit plain ofData)

section Literals

def escaped (json : List Char) : List Char :=
  replace (Char.ofNat 0x2029) "\\u2029".toList (replace (Char.ofNat 0x2028) "\\u2028".toList json)

def literal (json : List Char) : List Char :=
  if (escaped json).head? = some '{' ∨ (escaped json).head? = some '-' then
    ['('] ++ escaped json ++ [')']
  else escaped json

end Literals

section Escaped

def escapedChar (c : Char) : List Char :=
  if c = Char.ofNat 0x2028 then "\\u2028".toList
  else if c = Char.ofNat 0x2029 then "\\u2029".toList
  else [c]

variable (json : List Char)

theorem escaped_eq : escaped json = json.flatMap escapedChar := by
  unfold escaped replace
  rw [List.flatMap_assoc]
  refine List.flatMap_congr (fun c _ => ?_)
  unfold escapedChar
  split_ifs with hls hps
  · rfl
  · rw [List.flatMap_singleton, if_pos hps]
  · rw [List.flatMap_singleton, if_neg hps]

theorem utf16_escapedChar (c : Char) :
    utf16 (escapedChar c) = (utf16Code c.toNat).flatMap spellUnit := by
  unfold escapedChar
  split_ifs with hls hps
  · rw [hls]
    rfl
  · rw [hps]
    rfl
  · have hcode : ∀ n ∈ utf16Code c.toNat, spellUnit n = [n] := by
      intro n hn
      have hne : n ≠ 0x2028 ∧ n ≠ 0x2029 := by
        unfold utf16Code at hn
        split_ifs at hn with hsmall
        · rw [List.mem_singleton.mp hn]
          constructor
          · intro heq
            exact hls (by rw [← heq, Char.ofNat_toNat])
          · intro heq
            exact hps (by rw [← heq, Char.ofNat_toNat])
        · simp only [List.mem_cons, List.not_mem_nil, or_false] at hn
          omega
      rw [spellUnit, if_neg hne.1, if_neg hne.2]
    rw [List.flatMap_congr hcode, List.flatMap_singleton', utf16_cons, utf16_nil, List.append_nil]

theorem utf16_escaped : utf16 (escaped json) = spell false (utf16 json) := by
  rw [escaped_eq, utf16_flatMap, spell, utf16, List.flatMap_assoc, if_neg Bool.false_ne_true,
    List.append_nil]
  exact List.flatMap_congr (fun c _ => utf16_escapedChar c)

theorem utf16_parens :
    utf16 (['('] ++ escaped json ++ [')']) = 40 :: spell true (utf16 json) := by
  rw [utf16_append, utf16_append, utf16_escaped]
  simp only [spell, if_true, Bool.false_eq_true, if_false, List.append_nil]
  rfl

theorem head_escaped {c : Char} (hslash : c ≠ '\\')
    (hseparator : c ≠ Char.ofNat 0x2028 ∧ c ≠ Char.ofNat 0x2029) {json : List Char} :
    (escaped json).head? = some c ↔ json.head? = some c := by
  rw [escaped_eq]
  cases json with
  | nil => rfl
  | cons d rest =>
      rw [List.flatMap_cons, List.head?_cons]
      unfold escapedChar
      split_ifs with hls hps
      · refine iff_of_false ?_ ?_
        · rintro ⟨⟩
          exact hslash rfl
        · rintro ⟨⟩
          exact hseparator.1 hls
      · refine iff_of_false ?_ ?_
        · rintro ⟨⟩
          exact hslash rfl
        · rintro ⟨⟩
          exact hseparator.2 hps
      · rfl

end Escaped

section Agreement

def evaluate (text : Units) : Option (Bool × EcmaLiterals.Value) :=
  (expression text).bind (fun p => p.2.evaluate.map (fun value => (p.1, value)))

variable {json : List Char} {t : Tree}

theorem expression_literal (h : document (utf16 json) = some t) :
    expression (utf16 (literal json)) = some
      (decide ((EcmaJson.skipSpace (utf16 json)).head? = some 45 → json.head? = some '-'), t) := by
  have hopens : ((escaped json).head? = some '{' ∨ (escaped json).head? = some '-') ↔
      (json.head? = some '{' ∨ json.head? = some '-') := by
    rw [head_escaped (by decide) (by decide), head_escaped (by decide) (by decide)]
  rw [literal]
  by_cases hhead : json.head? = some '{' ∨ json.head? = some '-'
  · rw [if_pos (hopens.mpr hhead), utf16_parens, EcmaLiterals.expression_parens h]
    have hprimary : (EcmaJson.skipSpace (utf16 json)).head? = some 45 → json.head? = some '-' := by
      intro hminus
      refine hhead.resolve_left (fun hbrace => ?_)
      obtain ⟨rest, rfl⟩ := List.head?_eq_some_iff.mp hbrace
      cases hminus
    rw [decide_eq_true hprimary]
  · rw [if_neg (fun hescaped => hhead (hopens.mp hescaped)), utf16_escaped,
      EcmaLiterals.expression_bare h]
    have hplain : json.head? ≠ some '-' := fun hminus => hhead (.inr hminus)
    rw [decide_eq_decide.mpr (show (EcmaJson.skipSpace (utf16 json)).head? ≠ some 45 ↔
      ((EcmaJson.skipSpace (utf16 json)).head? = some 45 → json.head? = some '-') from
        ⟨fun hne heq => absurd heq hne, fun himp heq => hplain (himp heq)⟩)]

/-- A document is written as a primary expression of its value exactly when no property is
named `__proto__`, no object that a later member replaces has two members of the name, and no
white space stands before a minus sign. -/
theorem literal_eq_parse_iff (h : document (utf16 json) = some t) :
    evaluate (utf16 (literal json)) =
        (EcmaJson.parse (utf16 json)).map (fun d => (true, ofData d)) ↔
      ((EcmaJson.skipSpace (utf16 json)).head? = some 45 → json.head? = some '-') ∧
        t.once = true ∧ plain t.data = true := by
  rw [evaluate, expression_literal h, EcmaLiterals.parse_eq, h, Option.bind_some,
    EcmaLiterals.Tree.evaluate, Option.map_some, Option.map_some, ← t.value_eq_iff]
  cases t.once with
  | false => simp
  | true =>
      simp only [if_true, Option.map_some, Option.some.injEq, Prod.mk.injEq, decide_eq_true_eq,
        true_and]

theorem literal_eq_parse_list :
    evaluate (utf16 (literal "[null, \"a\"]".toList)) =
        (EcmaJson.parse (utf16 "[null, \"a\"]".toList)).map (fun d => (true, ofData d)) := by
  have hunits : utf16 "[null, \"a\"]".toList =
      [91, 110, 117, 108, 108, 44, 32, 34, 97, 34, 93] := by decide +kernel
  have h : document (utf16 "[null, \"a\"]".toList) = some (.arr [.null, .str [97]]) := by
    rw [hunits]
    simp [document, readTree, readItems, EcmaJson.skipSpace, EcmaJson.isSpace, ended,
      EcmaLiterals.json, EcmaJson.parseString]
  refine (literal_eq_parse_iff h).mpr ⟨fun hhead => ?_, rfl, rfl⟩
  rw [hunits] at hhead
  cases hhead

theorem literal_eq_parse_proto :
    ¬evaluate (utf16 (literal "\x7b\"__proto__\": true\x7d".toList)) =
        (EcmaJson.parse (utf16 "\x7b\"__proto__\": true\x7d".toList)).map
          (fun d => (true, ofData d)) := by
  have hunits : utf16 "\x7b\"__proto__\": true\x7d".toList =
      [123, 34, 95, 95, 112, 114, 111, 116, 111, 95, 95, 34, 58, 32, 116, 114, 117, 101, 125] := by
    decide +kernel
  have hliteral : utf16 (literal "\x7b\"__proto__\": true\x7d".toList) =
      [40, 123, 34, 95, 95, 112, 114, 111, 116, 111, 95, 95, 34, 58, 32, 116, 114, 117, 101, 125,
        41] := by
    decide +kernel
  have hvalue : evaluate (utf16 (literal "\x7b\"__proto__\": true\x7d".toList)) =
      some (true, .obj none []) := by
    rw [hliteral]
    simp [evaluate, expression, readTree, readMembers, EcmaJson.skipSpace, EcmaJson.isSpace, ended,
      EcmaLiterals.ecma, readString, isLineTerminator, EcmaLiterals.isPart, isDigit,
      Tree.evaluate, Tree.once, EcmaLiterals.onceMembers, Tree.value, EcmaLiterals.prototypeOf,
      EcmaLiterals.valueFields, EcmaLiterals.protoName, EcmaLiterals.Value.asPrototype]
  have hparse : EcmaJson.parse (utf16 "\x7b\"__proto__\": true\x7d".toList) =
      some (.obj [(EcmaLiterals.protoName, .bool true)]) := by
    rw [hunits]
    simp [EcmaJson.parse, EcmaJson.parseValue, EcmaJson.parseFields, EcmaJson.skipSpace,
      EcmaJson.isSpace, EcmaJson.parseString, EcmaJson.defineField, EcmaJson.isIndex, isDigit,
      EcmaLiterals.protoName]
  rw [hvalue, hparse]
  rintro ⟨⟩

end Agreement

end Js
end Zdeceptron
