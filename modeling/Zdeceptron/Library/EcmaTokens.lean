import Mathlib.Data.List.TakeWhile
import Zdeceptron.Library.Numeral

/-!
# Tokens of ECMAScript expressions

A text is read token by token, and every token is as long as it can be.  Texts are lists of
character codes.  Literals other than numerals, comments and numerals that begin with their
point are not read here.
-/

namespace Library
namespace Ecma

abbrev Text := List Nat

def codes (text : String) : Text := text.toList.map Char.toNat

section Marks

inductive Mark
  | leftBrace | rightBrace | leftParen | rightParen | leftBracket | rightBracket
  | dot | dots | semicolon | comma | question | questionDot | colon | arrow
  | less | greater | lessEq | greaterEq | equal | notEqual | same | notSame
  | plus | minus | times | divided | modulo | power | increment | decrement
  | shiftLeft | shiftRight | shiftRightZero
  | bitAnd | bitOr | bitXor | bitNot | not | and | or | coalesce
  | assign | plusAssign | minusAssign | timesAssign | dividedAssign | moduloAssign | powerAssign
  | shiftLeftAssign | shiftRightAssign | shiftRightZeroAssign
  | bitAndAssign | bitOrAssign | bitXorAssign | andAssign | orAssign | coalesceAssign
  -- what a comment begins with
  | lineComment | blockComment
deriving DecidableEq

namespace Mark

def spelling : Mark → String
  | leftBrace => "\x7b"
  | rightBrace => "\x7d"
  | leftParen => "("
  | rightParen => ")"
  | leftBracket => "["
  | rightBracket => "]"
  | dot => "."
  | dots => "..."
  | semicolon => ";"
  | comma => ","
  | question => "?"
  | questionDot => "?."
  | colon => ":"
  | arrow => "=>"
  | less => "<"
  | greater => ">"
  | lessEq => "<="
  | greaterEq => ">="
  | equal => "=="
  | notEqual => "!="
  | same => "==="
  | notSame => "!=="
  | plus => "+"
  | minus => "-"
  | times => "*"
  | divided => "/"
  | modulo => "%"
  | power => "**"
  | increment => "++"
  | decrement => "--"
  | shiftLeft => "<<"
  | shiftRight => ">>"
  | shiftRightZero => ">>>"
  | bitAnd => "&"
  | bitOr => "|"
  | bitXor => "^"
  | bitNot => "~"
  | not => "!"
  | and => "&&"
  | or => "||"
  | coalesce => "??"
  | assign => "="
  | plusAssign => "+="
  | minusAssign => "-="
  | timesAssign => "*="
  | dividedAssign => "/="
  | moduloAssign => "%="
  | powerAssign => "**="
  | shiftLeftAssign => "<<="
  | shiftRightAssign => ">>="
  | shiftRightZeroAssign => ">>>="
  | bitAndAssign => "&="
  | bitOrAssign => "|="
  | bitXorAssign => "^="
  | andAssign => "&&="
  | orAssign => "||="
  | coalesceAssign => "??="
  | lineComment => "//"
  | blockComment => "/*"

def text (mark : Mark) : Text := codes mark.spelling

def all : List Mark :=
  [leftBrace, rightBrace, leftParen, rightParen, leftBracket, rightBracket, dot, dots, semicolon,
    comma, question, questionDot, colon, arrow, less, greater, lessEq, greaterEq, equal, notEqual,
    same, notSame, plus, minus, times, divided, modulo, power, increment, decrement, shiftLeft,
    shiftRight, shiftRightZero, bitAnd, bitOr, bitXor, bitNot, not, and, or, coalesce, assign,
    plusAssign, minusAssign, timesAssign, dividedAssign, moduloAssign, powerAssign,
    shiftLeftAssign, shiftRightAssign, shiftRightZeroAssign, bitAndAssign, bitOrAssign,
    bitXorAssign, andAssign, orAssign, coalesceAssign, lineComment, blockComment]

theorem mem_all (mark : Mark) : mark ∈ all := by
  have hindex : all[mark.ctorIdx]? = some mark := by cases mark <;> rfl
  exact List.mem_of_getElem? hindex

theorem text_injective : Function.Injective text := by
  -- numbers are compared faster than texts
  have hall : (all.map fun mark => mark.text.foldl (fun n c => 256 * n + c) 0).Nodup := by
    decide +kernel
  intro mark other h
  exact List.inj_on_of_nodup_map hall mark.mem_all other.mem_all (by rw [h])

def followers (mark : Mark) : Text :=
  all.filterMap fun other =>
    if mark.text.isPrefixOf other.text then (other.text.drop mark.text.length).head? else none

def isComment (mark : Mark) : Bool := mark == lineComment || mark == blockComment

/-- A digit behind the mark makes it the point of a numeral. -/
def isPoint (mark : Mark) : Bool := mark == dot || mark == questionDot

def isRead (mark : Mark) (rest : Text) : Bool :=
  !mark.isComment && !(mark.isPoint && rest.head?.any isDigit)

def begins (mark : Mark) (text : Text) : Bool :=
  mark.text.isPrefixOf text &&
    all.all (fun other => !other.text.isPrefixOf text || other.text.length ≤ mark.text.length)

end Mark

end Marks

section Tokens

structure Alphabet where
  start : Nat → Bool
  part : Nat → Bool
  start_part : ∀ c, start c = true → part c = true
  letters : ∀ c, c ∈ codes "$_ABCDEFGHIJKLMNOPQRSTUVWXYZabcdefghijklmnopqrstuvwxyz" →
    start c = true
  digits : ∀ c, isDigit c = true → part c = true ∧ start c = false
  marks : ∀ mark : Mark, ∀ c ∈ mark.text, part c = false
  blank : part 32 = false

inductive Token
  | name (text : Text)
  | number (value : Float)
  | mark (mark : Mark)

variable (abc : Alphabet)

def numeralEnd (text : Text) : Option Text :=
  (wholePart text).bind fun rest => exponentPart (readFraction rest).2

/-- A numeral, which no digit and no identifier follows directly. -/
def numeral (text : Text) : Option (Token × Text) :=
  match numeralEnd text with
  | none => none
  | some rest =>
      if rest.head?.any (fun c => isDigit c || abc.start c) then none
      else some (.number (ofDecimal (readUnsigned text).1), rest)

def punctuator (text : Text) : Option (Token × Text) :=
  match Mark.all.find? (fun mark => mark.begins text) with
  | none => none
  | some mark =>
      let rest := text.drop mark.text.length
      if mark.isRead rest then some (.mark mark, rest) else none

def next : Text → Option (Token × Text)
  | [] => none
  | c :: rest =>
      if abc.start c then
        some (.name ((c :: rest).takeWhile abc.part), (c :: rest).dropWhile abc.part)
      else if isDigit c then numeral abc (c :: rest)
      else punctuator (c :: rest)

/-- The first `n` tokens and blanks, if there is nothing else. -/
def tokensWith : Nat → Text → Option (List Token)
  | _, [] => some []
  | 0, _ => none
  | n + 1, 32 :: rest => tokensWith n rest
  | n + 1, c :: text =>
      match next abc (c :: text) with
      | none => none
      | some (token, rest) => (tokensWith n rest).map (token :: ·)

def tokens (text : Text) : Option (List Token) := tokensWith abc text.length text

end Tokens

section Progress

variable {abc : Alphabet}

theorem readFraction_length (text : Text) : (readFraction text).2.length ≤ text.length := by
  unfold readFraction
  split
  · exact ((List.dropWhile_suffix _).length_le).trans (Nat.le_succ _)
  · exact le_refl _

theorem digitRun_length {text rest : Text} (h : digitRun text = some rest) :
    rest.length < text.length := by
  unfold digitRun at h
  split_ifs at h with hdigit
  cases h
  cases text with
  | nil => cases hdigit
  | cons c text =>
      have hc : isDigit c = true := hdigit
      rw [List.dropWhile_cons_of_pos hc]
      exact Nat.lt_succ_of_le ((List.dropWhile_suffix _).length_le)

theorem wholePart_length {text rest : Text} (h : wholePart text = some rest) :
    rest.length < text.length := by
  unfold wholePart at h
  split at h
  · split_ifs at h
    cases h
    exact Nat.lt_succ_self _
  · exact digitRun_length h

theorem exponentSign_length (text : Text) : (exponentSign text).2.length ≤ text.length := by
  unfold exponentSign
  split
  · exact Nat.le_succ _
  · exact Nat.le_succ _
  · exact le_refl _

theorem exponentPart_length {text rest : Text} (h : exponentPart text = some rest) :
    rest.length ≤ text.length := by
  cases text with
  | nil =>
      cases h
      exact le_refl _
  | cons c text =>
      rw [exponentPart] at h
      split_ifs at h with hmark
      · have hlength := digitRun_length h
        have hsign := exponentSign_length text
        rw [List.length_cons]
        omega
      · cases h
        exact le_refl _

theorem numeral_length {text rest : Text} {token : Token}
    (h : numeral abc text = some (token, rest)) : rest.length < text.length := by
  unfold numeral at h
  split at h
  · cases h
  · next rest' hend =>
    split_ifs at h
    cases h
    obtain ⟨middle, hwhole, hexponent⟩ := Option.bind_eq_some_iff.mp hend
    have hlt := wholePart_length hwhole
    have hle := exponentPart_length hexponent
    have hfraction := readFraction_length middle
    omega

theorem Mark.text_ne_nil (mark : Mark) : mark.text ≠ [] := by
  cases mark <;> decide

theorem punctuator_length {text rest : Text} {token : Token}
    (h : punctuator text = some (token, rest)) (hne : text ≠ []) : rest.length < text.length := by
  unfold punctuator at h
  split at h
  · cases h
  · next mark hfind =>
    dsimp only at h
    split_ifs at h
    cases h
    have hmark := List.length_pos_iff.mpr mark.text_ne_nil
    have htext := List.length_pos_iff.mpr hne
    rw [List.length_drop]
    omega

theorem next_length {text rest : Text} {token : Token}
    (h : next abc text = some (token, rest)) : rest.length < text.length := by
  cases text with
  | nil => cases h
  | cons c text =>
      rw [next] at h
      split_ifs at h with hstart hdigit
      · cases h
        rw [List.dropWhile_cons_of_pos (abc.start_part c hstart)]
        exact Nat.lt_succ_of_le ((List.dropWhile_suffix _).length_le)
      · exact numeral_length h
      · exact punctuator_length h (List.cons_ne_nil _ _)

variable {text : Text}

theorem tokensWith_cons {n c : Nat} (hc : c ≠ 32) :
    tokensWith abc (n + 1) (c :: text) =
      match next abc (c :: text) with
      | none => none
      | some (token, rest) => (tokensWith abc n rest).map (token :: ·) := by
  rw [tokensWith]
  rintro rfl
  exact hc rfl

theorem tokensWith_eq {n : Nat} (h : text.length ≤ n) :
    tokensWith abc n text = tokens abc text := by
  have hall : ∀ k text, text.length ≤ k → ∀ n, text.length ≤ n →
      tokensWith abc n text = tokensWith abc k text := by
    intro k
    induction k with
    | zero =>
        intro text hk n hn
        obtain rfl := List.length_eq_zero_iff.mp (Nat.le_zero.mp hk)
        cases n <;> rfl
    | succ k ih =>
        intro text hk n hn
        cases text with
        | nil => cases n <;> rfl
        | cons c text =>
            obtain ⟨n, rfl⟩ := Nat.exists_eq_succ_of_ne_zero
              (Nat.ne_of_gt (lt_of_lt_of_le (Nat.succ_pos _) hn))
            rw [List.length_cons] at hk hn
            by_cases hc : c = 32
            · subst hc
              exact ih text (by omega) n (by omega)
            · rw [tokensWith_cons hc, tokensWith_cons hc]
              split
              · rfl
              · next token rest hnext =>
                have hlength := next_length hnext
                rw [List.length_cons] at hlength
                rw [ih rest (by omega) n (by omega)]
  exact hall text.length text (le_refl _) n h

theorem tokens_blank (text : Text) : tokens abc (32 :: text) = tokens abc text :=
  tokensWith_eq (le_refl _)

theorem tokens_cons {c : Nat} (hc : c ≠ 32) :
    tokens abc (c :: text) =
      match next abc (c :: text) with
      | none => none
      | some (token, rest) => (tokens abc rest).map (token :: ·) := by
  rw [tokens, List.length_cons, tokensWith_cons hc]
  split
  · rfl
  · next token rest hnext =>
    have hlength := next_length hnext
    rw [List.length_cons] at hlength
    rw [tokensWith_eq (by omega)]

end Progress

section Lexemes

variable (abc : Alphabet)

structure Identifier where
  text : Text
  head : ∃ c cs, text = c :: cs ∧ abc.start c = true
  parts : ∀ c ∈ text, abc.part c = true

structure Numeral where
  text : Text
  decimal : Decimal
  spells : Spells decimal text

def Numeral.isWhole (n : Numeral) : Bool := n.text.all isDigit

inductive Lexeme
  | blank
  | name (name : Identifier abc)
  | number (numeral : Numeral)
  | mark (mark : Mark) (noComment : mark.isComment = false)

variable {abc}

namespace Lexeme

def text : Lexeme abc → Text
  | blank => [32]
  | name n => n.text
  | number n => n.text
  | mark m _ => m.text

def token : Lexeme abc → Option Token
  | blank => none
  | name n => some (.name n.text)
  | number n => some (.number (ofDecimal n.decimal))
  | mark m _ => some (.mark m)

/-- Whether the lexeme is another one when the character follows. -/
def glues : Lexeme abc → Nat → Bool
  | blank, _ => false
  | name _, c => abc.part c
  | number n, c => abc.part c || n.isWhole && decide (c = 46)
  | mark m _, c => m.followers.contains c || m.isPoint && isDigit c

end Lexeme

def written (lexemes : List (Lexeme abc)) : Text := lexemes.flatMap Lexeme.text

theorem written_cons (l : Lexeme abc) (ls : List (Lexeme abc)) :
    written (l :: ls) = l.text ++ written ls := List.flatMap_cons

def Apart : List (Lexeme abc) → Prop
  | [] => True
  | l :: ls => (∀ c, (written ls).head? = some c → l.glues c = false) ∧ Apart ls

end Lexemes

section Written

variable {abc : Alphabet} {rest : Text}

theorem next_name (n : Identifier abc) (hrest : ∀ c, rest.head? = some c → abc.part c = false) :
    next abc (n.text ++ rest) = some (.name n.text, rest) := by
  obtain ⟨c, cs, htext, hstart⟩ := n.head
  have htake : (n.text ++ rest).takeWhile abc.part = n.text ∧
      (n.text ++ rest).dropWhile abc.part = rest := by
    rw [List.takeWhile_append_of_pos n.parts, List.dropWhile_append_of_pos n.parts]
    cases rest with
    | nil => simp
    | cons d rest => simp [hrest d rfl]
  have hnext : next abc (n.text ++ rest) =
      some (.name ((n.text ++ rest).takeWhile abc.part), (n.text ++ rest).dropWhile abc.part) := by
    rw [htext, List.cons_append, next, if_pos hstart]
  rw [hnext, htake.1, htake.2]

theorem isWhole_of_nil {n : Numeral} {ds fs : Text} {ex : Option (Bool × Text)}
    (htext : n.text = ds ++ (spellFraction fs ++ spellExponent ex)) (h : Spelt ds fs ex) :
    n.isWhole = true ↔ fs = [] ∧ ex = none := by
  unfold Numeral.isWhole
  rw [htext]
  constructor
  · intro hall
    rw [List.all_append, List.all_append, Bool.and_eq_true, Bool.and_eq_true] at hall
    obtain ⟨-, hfraction, hexponent⟩ := hall
    constructor
    · by_contra hfs
      rw [spellFraction, if_neg hfs, List.all_cons] at hfraction
      exact absurd hfraction (by simp [isDigit])
    · cases ex with
      | none => rfl
      | some pair =>
          rw [spellExponent, List.all_cons] at hexponent
          exact absurd hexponent (by simp [isDigit])
  · rintro ⟨rfl, rfl⟩
    rw [spellFraction, if_pos rfl, spellExponent, List.append_nil, List.append_nil]
    exact List.all_eq_true.mpr h.whole

theorem next_number (n : Numeral) (hrest : ∀ c, rest.head? = some c → abc.part c = false)
    (hpoint : ∀ c, rest.head? = some c → n.isWhole = true → c ≠ 46) :
    next abc (n.text ++ rest) = some (.number (ofDecimal n.decimal), rest) := by
  obtain ⟨ds, fs, ex, htext, hspelt, hlead, hvalue⟩ := n.spells
  have hletter : ∀ c ∈ [69, 101], abc.part c = true :=
    fun c hc => abc.start_part c (abc.letters c (by revert c; decide))
  have hstops : StopsAfter fs ex rest := by
    intro c hc
    have hpart := hrest c hc
    refine ⟨?_, ?_, ?_, ?_⟩
    · by_contra hdigit
      rw [(abc.digits c (by simpa using hdigit)).1] at hpart
      cases hpart
    · exact fun hfs hex => hpoint c hc ((isWhole_of_nil htext hspelt).mpr ⟨hfs, hex⟩)
    · rintro rfl
      rw [hletter 101 (by decide)] at hpart
      cases hpart
    · rintro rfl
      rw [hletter 69 (by decide)] at hpart
      cases hpart
  have hassoc : n.text ++ rest =
      ds ++ (spellFraction fs ++ (spellExponent ex ++ rest)) := by
    rw [htext, List.append_assoc, List.append_assoc]
  have hend : numeralEnd (n.text ++ rest) = some rest := by
    unfold numeralEnd
    rw [hassoc, wholePart_spell hspelt hlead hstops, Option.bind_some,
      readFraction_spell hspelt hstops, exponentPart_spell hspelt hstops]
  have hstop : rest.head?.any (fun c => isDigit c || abc.start c) = false := by
    rw [Option.any_eq_false]
    intro c hc
    have hpart := hrest c hc
    have hdigit := (hstops c hc).1
    have hstart : abc.start c = false := by
      by_contra hstart
      rw [abc.start_part c (by simpa using hstart)] at hpart
      cases hpart
    simp [hdigit, hstart]
  obtain ⟨c, tail, hcons, hdigit⟩ := n.spells.head
  have hnext : next abc (n.text ++ rest) = numeral abc (n.text ++ rest) := by
    rw [hcons, List.cons_append, next, if_neg (by simp [(abc.digits c hdigit).2]), if_pos hdigit]
  rw [hnext, numeral, hend]
  simp only [hstop, Bool.false_eq_true, if_false]
  rw [hassoc, readUnsigned_spell hspelt hstops, hvalue]

theorem begins_iff {mark other : Mark}
    (hrest : ∀ c, rest.head? = some c → mark.followers.contains c = false) :
    other.begins (mark.text ++ rest) = true ↔ other = mark := by
  have hshort : ∀ o : Mark, o.text.isPrefixOf (mark.text ++ rest) = true →
      o.text.length ≤ mark.text.length := by
    intro o ho
    by_contra hlong
    push Not at hlong
    rw [List.isPrefixOf_iff_prefix] at ho
    have hmark : mark.text <+: o.text :=
      List.prefix_of_prefix_length_le (List.prefix_append _ _) ho hlong.le
    obtain ⟨tail, htail⟩ := hmark
    cases tail with
    | nil =>
        rw [← htail, List.append_nil] at hlong
        exact lt_irrefl _ hlong
    | cons c tail =>
        rw [← htail, List.prefix_append_right_inj] at ho
        obtain ⟨after, rfl⟩ := ho
        have hfollower : c ∈ mark.followers := by
          refine List.mem_filterMap.mpr ⟨o, o.mem_all, ?_⟩
          rw [if_pos (List.isPrefixOf_iff_prefix.mpr ⟨_, htail⟩), ← htail, List.drop_left]
          rfl
        have hnot := hrest c rfl
        rw [List.contains_iff_mem.mpr hfollower] at hnot
        cases hnot
  unfold Mark.begins
  rw [Bool.and_eq_true, List.all_eq_true]
  constructor
  · rintro ⟨hfront, hlongest⟩
    have hmark := hlongest mark mark.mem_all
    have hself : mark.text.isPrefixOf (mark.text ++ rest) = true :=
      List.isPrefixOf_iff_prefix.mpr (List.prefix_append _ _)
    rw [hself] at hmark
    have hle : mark.text.length ≤ other.text.length := by simpa using hmark
    have hlength : other.text.length = mark.text.length := le_antisymm (hshort other hfront) hle
    rw [List.isPrefixOf_iff_prefix] at hfront
    refine Mark.text_injective ?_
    exact (List.prefix_of_prefix_length_le hfront (List.prefix_append _ _) hlength.le).eq_of_length
      hlength
  · rintro rfl
    refine ⟨List.isPrefixOf_iff_prefix.mpr (List.prefix_append _ _), fun o _ => ?_⟩
    rw [Bool.or_eq_true, Bool.not_eq_true', decide_eq_true_eq]
    by_cases ho : o.text.isPrefixOf (other.text ++ rest) = true
    · exact .inr (hshort o ho)
    · exact .inl (Bool.eq_false_iff.mpr ho)

theorem start_mark (mark : Mark) {c : Nat} (hc : c ∈ mark.text) :
    abc.start c = false ∧ isDigit c = false := by
  have hpart := abc.marks mark c hc
  constructor
  · by_contra hstart
    rw [abc.start_part c (by simpa using hstart)] at hpart
    cases hpart
  · by_contra hdigit
    rw [(abc.digits c (by simpa using hdigit)).1] at hpart
    cases hpart

theorem next_mark {mark : Mark}
    (hrest : ∀ c, rest.head? = some c → mark.followers.contains c = false)
    (hread : mark.isRead rest = true) :
    next abc (mark.text ++ rest) = some (.mark mark, rest) := by
  have hfind : Mark.all.find? (fun other => other.begins (mark.text ++ rest)) = some mark := by
    cases hother : Mark.all.find? (fun other => other.begins (mark.text ++ rest)) with
    | none =>
        have hnone := List.find?_eq_none.mp hother mark mark.mem_all
        exact absurd ((begins_iff hrest).mpr rfl) hnone
    | some other =>
        have hbegins : other.begins (mark.text ++ rest) = true :=
          List.find?_some (p := fun o : Mark => o.begins (mark.text ++ rest)) hother
        rw [(begins_iff hrest).mp hbegins]
  have hnext : next abc (mark.text ++ rest) = punctuator (mark.text ++ rest) := by
    obtain ⟨c, cs, htext⟩ := List.exists_cons_of_ne_nil mark.text_ne_nil
    obtain ⟨hstart, hdigit⟩ := @start_mark abc mark c
      (by rw [htext]; exact List.mem_cons_self)
    rw [htext, List.cons_append, next, if_neg (by simp [hstart]), if_neg (by simp [hdigit])]
  rw [hnext, punctuator, hfind]
  simp only [List.drop_left, hread, if_true]

theorem text_ne_blank (l : Lexeme abc) (hl : l ≠ .blank) :
    ∃ c cs, l.text = c :: cs ∧ c ≠ 32 := by
  have hpart : ∀ c, abc.part c = true → c ≠ 32 := by
    rintro c hc rfl
    rw [abc.blank] at hc
    cases hc
  cases l with
  | blank => exact absurd rfl hl
  | name n =>
      obtain ⟨c, cs, htext, hstart⟩ := n.head
      exact ⟨c, cs, htext, hpart c (abc.start_part c hstart)⟩
  | number n =>
      obtain ⟨c, cs, htext, hdigit⟩ := n.spells.head
      exact ⟨c, cs, htext, hpart c (abc.digits c hdigit).1⟩
  | mark m _ =>
      have hall : ∀ m ∈ Mark.all, m.text.head? ≠ some 32 := by decide
      obtain ⟨c, cs, htext⟩ := List.exists_cons_of_ne_nil m.text_ne_nil
      refine ⟨c, cs, htext, ?_⟩
      rintro rfl
      exact hall m m.mem_all (by rw [htext]; rfl)

theorem tokens_lexeme (l : Lexeme abc) (hrest : ∀ c, rest.head? = some c → l.glues c = false) :
    tokens abc (l.text ++ rest) = (tokens abc rest).map (l.token.toList ++ ·) := by
  by_cases hl : l = .blank
  · subst hl
    rw [Lexeme.text, List.singleton_append, tokens_blank]
    cases tokens abc rest <;> rfl
  · have hnext : ∃ token, l.token = some token ∧
        next abc (l.text ++ rest) = some (token, rest) := by
      cases l with
      | blank => exact absurd rfl hl
      | name n => exact ⟨_, rfl, next_name n hrest⟩
      | number n =>
          have hnot : ∀ c, rest.head? = some c → abc.part c = false ∧
              (n.isWhole = true → c ≠ 46) := by
            intro c hc
            have hglues := hrest c hc
            rw [Lexeme.glues, Bool.or_eq_false_iff, Bool.and_eq_false_iff] at hglues
            refine ⟨hglues.1, fun hwhole => ?_⟩
            rcases hglues.2 with hnot | hnot
            · rw [hwhole] at hnot
              cases hnot
            · exact of_decide_eq_false hnot
          exact ⟨_, rfl, next_number n (fun c hc => (hnot c hc).1) (fun c hc => (hnot c hc).2)⟩
      | mark m hcomment =>
          have hnot : ∀ c, rest.head? = some c → m.followers.contains c = false ∧
              (m.isPoint && isDigit c) = false := by
            intro c hc
            have hglues := hrest c hc
            rwa [Lexeme.glues, Bool.or_eq_false_iff] at hglues
          refine ⟨_, rfl, next_mark (fun c hc => (hnot c hc).1) ?_⟩
          unfold Mark.isRead
          rw [hcomment]
          cases hhead : rest.head? with
          | none => simp
          | some c =>
              rw [Option.any_some, (hnot c hhead).2]
              rfl
    obtain ⟨token, htoken, hnext⟩ := hnext
    obtain ⟨c, cs, htext, hc⟩ := text_ne_blank l hl
    rw [htoken]
    rw [htext, List.cons_append] at hnext ⊢
    rw [tokens_cons hc, hnext]
    rfl

theorem tokens_written {ls : List (Lexeme abc)} (h : Apart ls) :
    tokens abc (written ls) = some (ls.filterMap Lexeme.token) := by
  induction ls with
  | nil => rfl
  | cons l ls ih =>
      rw [written_cons, tokens_lexeme l h.1, ih h.2, List.filterMap_cons]
      cases l.token <;> rfl

end Written

section Fused

variable {abc : Alphabet}

/-- Two minus signs that touch, or a numeral without a point before the point of a field. -/
inductive Fuses : Lexeme abc → List (Lexeme abc) → Prop
  | minuses {noComment : Mark.minus.isComment = false} {ls : List (Lexeme abc)}
      (hls : (written ls).head? = some 45) : Fuses (.mark .minus noComment) ls
  | point {n : Numeral} {noComment : Mark.dot.isComment = false} {f : Identifier abc}
      {ls : List (Lexeme abc)} (hn : n.isWhole = true)
      (hls : ∀ c, (written ls).head? = some c → abc.part c = false ∧ c ≠ 43 ∧ c ≠ 45) :
      Fuses (.number n) (.mark .dot noComment :: .name f :: ls)

/-- Every lexeme keeps apart from what follows, or they fuse. -/
def Tidy (clean : Prop) : List (Lexeme abc) → Prop
  | [] => True
  | l :: ls =>
      ((∀ c, (written ls).head? = some c → l.glues c = false) ∨ ¬ clean ∧ Fuses l ls) ∧
        Tidy clean ls

variable {ls : List (Lexeme abc)}

theorem Tidy.apart {clean : Prop} (hclean : clean) (h : Tidy clean ls) : Apart ls := by
  induction ls with
  | nil => trivial
  | cons l ls ih => exact ⟨h.1.resolve_right (fun hfuses => hfuses.1 hclean), ih h.2⟩

theorem Apart.of_append {ls ls' : List (Lexeme abc)} (h : Apart (ls ++ ls')) : Apart ls' := by
  induction ls with
  | nil => exact h
  | cons l ls ih => exact ih h.2

theorem not_mark_of_part {c : Nat} {text : Text} (hpart : abc.part c = true)
    (hstart : abc.start c = false) (hdigit : isDigit c = false) :
    tokens abc (c :: text) = none := by
  have hc : c ≠ 32 := by
    rintro rfl
    rw [abc.blank] at hpart
    cases hpart
  have hfind : Mark.all.find? (fun mark => mark.begins (c :: text)) = none := by
    refine List.find?_eq_none.mpr (fun mark _ hbegins => ?_)
    have hfront := (Bool.and_eq_true _ _ ▸ hbegins).1
    rw [List.isPrefixOf_iff_prefix] at hfront
    obtain ⟨d, ds, htext⟩ := List.exists_cons_of_ne_nil mark.text_ne_nil
    rw [htext, List.cons_prefix_cons] at hfront
    have hmark := abc.marks mark d (by rw [htext]; exact List.mem_cons_self)
    rw [hfront.1, hpart] at hmark
    cases hmark
  rw [tokens_cons hc, next, if_neg (by simp [hstart]), if_neg (by simp [hdigit]), punctuator,
    hfind]

theorem ne_blank_of_isDigit {c : Nat} (hc : isDigit c = true) : c ≠ 32 := by
  rintro rfl
  cases hc

variable {ts : List Token}

theorem tokens_numeral {d : Nat} {tail : Text} (hdigit : isDigit d = true)
    (h : tokens abc (d :: tail) = some ts) :
    ∃ x after ts', ts = .number x :: ts' ∧ numeralEnd (d :: tail) = some after ∧
      (∀ c, after.head? = some c → isDigit c = false ∧ abc.start c = false) ∧
      tokens abc after = some ts' := by
  rw [tokens_cons (ne_blank_of_isDigit hdigit), next,
    if_neg (by simp [(abc.digits d hdigit).2]), if_pos hdigit, numeral] at h
  cases hend : numeralEnd (d :: tail) with
  | none =>
      rw [hend] at h
      cases h
  | some after =>
      rw [hend] at h
      dsimp only at h
      split_ifs at h with hany
      · obtain ⟨ts', hts', rfl⟩ := Option.map_eq_some_iff.mp h
        refine ⟨_, after, ts', rfl, rfl, fun c hc => ?_, hts'⟩
        rw [hc, Option.any_some, Bool.or_eq_true, not_or] at hany
        exact ⟨Bool.eq_false_iff.mpr hany.1, Bool.eq_false_iff.mpr hany.2⟩

theorem tokens_point {n : Numeral} (hn : n.isWhole = true) (f : Identifier abc) {rest : Text}
    (hrest : ∀ c, rest.head? = some c → abc.part c = false ∧ c ≠ 43 ∧ c ≠ 45)
    (h : tokens abc (n.text ++ 46 :: (f.text ++ rest)) = some ts) :
    ∃ x ts', ts = .number x :: ts' ∧ tokens abc rest = some ts' := by
  obtain ⟨ds, fs, ex, htext, hspelt, hlead, -⟩ := n.spells
  obtain ⟨rfl, rfl⟩ := (isWhole_of_nil htext hspelt).mp hn
  rw [spellFraction, if_pos rfl, spellExponent, List.append_nil, List.append_nil] at htext
  obtain ⟨c, cs, hf, hstart⟩ := f.head
  have hparts : ∀ d ∈ cs, abc.part d = true := fun d hd =>
    f.parts d (by rw [hf]; exact List.mem_cons_of_mem _ hd)
  have hnodigit : isDigit c = false := by
    by_contra hdigit
    rw [(abc.digits c (by simpa using hdigit)).2] at hstart
    cases hstart
  have hsigns : ∀ d, (cs ++ rest).head? = some d → d ≠ 43 ∧ d ≠ 45 := by
    intro d hd
    cases cs with
    | nil => exact (hrest d hd).2
    | cons d' cs =>
        cases hd
        have hpart := hparts d List.mem_cons_self
        constructor
        · rintro rfl
          rw [abc.marks .plus 43 (by decide)] at hpart
          cases hpart
        · rintro rfl
          rw [abc.marks .minus 45 (by decide)] at hpart
          cases hpart
  have hend : numeralEnd (n.text ++ 46 :: (f.text ++ rest)) = exponentPart (c :: (cs ++ rest)) := by
    have hpoint : ∀ d, (46 :: (f.text ++ rest)).head? = some d → isDigit d = false := by
      rintro d hd
      cases hd
      rfl
    unfold numeralEnd
    rw [htext, wholePart_digits hspelt.whole hspelt.nonempty hlead hpoint, Option.bind_some,
      readFraction, hf, List.cons_append, List.dropWhile_cons_of_neg (by simp [hnodigit])]
  obtain ⟨d, tail, hcons, hdigit⟩ := n.spells.head
  rw [hcons, List.cons_append] at h hend
  obtain ⟨x, after, ts', rfl, hafter, hstop, hts'⟩ := tokens_numeral hdigit h
  refine ⟨x, ts', rfl, ?_⟩
  rw [hend, exponentPart] at hafter
  split_ifs at hafter with hmark
  · have hsign : (exponentSign (cs ++ rest)).2 = cs ++ rest := by
      cases hcs : cs ++ rest with
      | nil => rfl
      | cons d ds =>
          obtain ⟨hplus, hminus⟩ := hsigns d (by rw [hcs]; rfl)
          unfold exponentSign
          split
          · next heq => exact absurd (List.cons.inj heq).1 hminus
          · next heq => exact absurd (List.cons.inj heq).1 hplus
          · rfl
    rw [hsign, digitRun] at hafter
    split_ifs at hafter
    cases hafter
    have hrestdigit : rest.dropWhile isDigit = rest := by
      cases rest with
      | nil => rfl
      | cons d rest =>
          have hpart := (hrest d rfl).1
          refine List.dropWhile_cons_of_neg (fun hdigit => ?_)
          rw [(abc.digits d hdigit).1] at hpart
          cases hpart
    by_cases hall : ∀ d ∈ cs, isDigit d = true
    · rwa [List.dropWhile_append_of_pos hall, hrestdigit] at hts'
    · -- what is left of the name is no token
      have hne : cs.dropWhile isDigit ≠ [] := fun hnil =>
        hall (List.dropWhile_eq_nil_iff.mp hnil)
      obtain ⟨d, ds, hdrop⟩ := List.exists_cons_of_ne_nil hne
      have hdrop' : (cs ++ rest).dropWhile isDigit = d :: (ds ++ rest) := by
        rw [List.dropWhile_append, hdrop]
        rfl
      have hd : d ∈ cs := (List.dropWhile_suffix _).subset (by rw [hdrop]; exact List.mem_cons_self)
      rw [hdrop'] at hstop hts'
      obtain ⟨hdigit', hstart'⟩ := hstop d rfl
      rw [not_mark_of_part (hparts d hd) hstart' hdigit'] at hts'
      cases hts'
  · cases hafter
    rw [(hstop c rfl).2] at hstart
    cases hstart

def occurrences (mark : Mark) (ts : List Token) : Nat := ts.countP fun
  | .mark other => other == mark
  | _ => false

variable (mark : Mark)

theorem occurrences_append (ts ts' : List Token) :
    occurrences mark (ts ++ ts') = occurrences mark ts + occurrences mark ts' :=
  List.countP_append

@[simp] theorem occurrences_nil : occurrences mark [] = 0 := rfl

@[simp] theorem occurrences_name (f : Text) (ts : List Token) :
    occurrences mark (.name f :: ts) = occurrences mark ts :=
  List.countP_cons_of_neg (by simp)

@[simp] theorem occurrences_number (x : Float) (ts : List Token) :
    occurrences mark (.number x :: ts) = occurrences mark ts :=
  List.countP_cons_of_neg (by simp)

@[simp] theorem occurrences_mark (mark other : Mark) (ts : List Token) :
    occurrences mark (.mark other :: ts) =
      occurrences mark ts + if other = mark then 1 else 0 := by
  unfold occurrences
  rw [List.countP_cons]
  simp

theorem tokens_tidy (h : Tidy False ls) (ht : tokens abc (written ls) = some ts) :
    (Apart ls ∧ ts = ls.filterMap Lexeme.token) ∨ 0 < occurrences .decrement ts ∨
      occurrences .dot ts < occurrences .dot (ls.filterMap Lexeme.token) := by
  induction hn : ls.length using Nat.strong_induction_on generalizing ls ts with
  | _ k ih =>
  subst hn
  cases ls with
  | nil =>
      cases ht
      exact .inl ⟨trivial, rfl⟩
  | cons l ls =>
      rw [written_cons] at ht
      rcases h.1 with hglues | ⟨-, hfuses⟩
      · rw [tokens_lexeme l hglues] at ht
        obtain ⟨ts', hts', rfl⟩ := Option.map_eq_some_iff.mp ht
        have hfirst : (l :: ls).filterMap Lexeme.token =
            l.token.toList ++ ls.filterMap Lexeme.token := by
          rw [List.filterMap_cons]
          cases l.token <;> rfl
        rw [hfirst]
        rcases ih ls.length (Nat.lt_succ_self _) h.2 hts' rfl with ⟨hapart, rfl⟩ | hdec | hlt
        · exact .inl ⟨⟨hglues, hapart⟩, rfl⟩
        · refine .inr (.inl ?_)
          rw [occurrences_append]
          omega
        · refine .inr (.inr ?_)
          rw [occurrences_append, occurrences_append]
          omega
      · cases hfuses with
        | @minuses noComment _ hls =>
            obtain ⟨rest, hrest⟩ : ∃ rest, written ls = 45 :: rest := by
              cases hwritten : written ls with
              | nil =>
                  rw [hwritten] at hls
                  cases hls
              | cons c rest =>
                  rw [hwritten] at hls
                  cases hls
                  exact ⟨rest, rfl⟩
            have hnone : Mark.decrement.followers = [] := by decide
            have hnext : next abc (45 :: 45 :: rest) = some (.mark .decrement, rest) :=
              @next_mark abc rest .decrement (fun c _ => by rw [hnone]; rfl) rfl
            have htext : (Lexeme.mark .minus noComment : Lexeme abc).text ++ written ls =
                45 :: 45 :: rest := by
              rw [hrest]
              rfl
            rw [htext, tokens_cons (by decide), hnext] at ht
            obtain ⟨ts', -, rfl⟩ := Option.map_eq_some_iff.mp ht
            refine .inr (.inl ?_)
            rw [occurrences_mark, if_pos rfl]
            exact Nat.succ_pos _
        | @point n noComment f ls hn hls =>
            rw [written_cons, written_cons] at ht
            obtain ⟨x, ts', rfl, hts'⟩ := tokens_point hn f hls ht
            have hlength : ls.length < (Lexeme.number n :: .mark .dot noComment :: .name f :: ls).length := by
              simp only [List.length_cons]
              omega
            have hpoints : occurrences .dot ((Lexeme.number n :: .mark .dot noComment :: .name f ::
                ls).filterMap Lexeme.token) =
                  occurrences .dot (ls.filterMap Lexeme.token) + 1 := by
              simp [Lexeme.token]
            rw [hpoints, occurrences_number, occurrences_number]
            rcases ih ls.length hlength h.2.2.2 hts' rfl with ⟨hapart, rfl⟩ | hdec | hlt
            · exact .inr (.inr (Nat.lt_succ_self _))
            · exact .inr (.inl hdec)
            · exact .inr (.inr (Nat.lt_succ_of_lt hlt))

end Fused

section Gluing

variable {abc : Alphabet}

@[simp] theorem written_nil : written ([] : List (Lexeme abc)) = [] := rfl

theorem written_append (ls ls' : List (Lexeme abc)) :
    written (ls ++ ls') = written ls ++ written ls' := List.flatMap_append

variable {clean : Prop}

theorem tidy_cons {l : Lexeme abc} {ls : List (Lexeme abc)}
    (h : ∀ c, (written ls).head? = some c → l.glues c = false) (hls : Tidy clean ls) :
    Tidy clean (l :: ls) := ⟨.inl h, hls⟩

variable {mark : Mark}

theorem mem_mark_of_follower {c : Nat} (h : mark.followers.contains c = true) :
    ∃ other : Mark, c ∈ other.text := by
  obtain ⟨other, -, hother⟩ := List.mem_filterMap.mp (List.contains_iff_mem.mp h)
  split_ifs at hother
  exact ⟨other, List.mem_of_mem_drop (List.mem_of_mem_head? hother)⟩

theorem blank_not_mark (mark : Mark) : 32 ∉ mark.text := by
  have hall : ∀ mark ∈ Mark.all, 32 ∉ mark.text := by decide
  exact hall mark mark.mem_all

variable {h : mark.isComment = false}

theorem glues_mark_part {c : Nat}
    (hc : abc.part c = true) (hpoint : (mark.isPoint && isDigit c) = false) :
    (Lexeme.mark mark h : Lexeme abc).glues c = false := by
  rw [Lexeme.glues, hpoint, Bool.or_false, Bool.eq_false_iff]
  intro hcontains
  obtain ⟨other, hother⟩ := mem_mark_of_follower hcontains
  rw [abc.marks other c hother] at hc
  cases hc

theorem glues_mark_blank :
    (Lexeme.mark mark h : Lexeme abc).glues 32 = false := by
  rw [Lexeme.glues, Bool.or_eq_false_iff]
  constructor
  · rw [Bool.eq_false_iff]
    intro hcontains
    obtain ⟨other, hother⟩ := mem_mark_of_follower hcontains
    exact blank_not_mark other hother
  · exact Bool.and_false _

variable {n : Numeral}

theorem glues_number {c : Nat} (hc : abc.part c = false)
    (hpoint : n.isWhole = true → c ≠ 46) : (Lexeme.number n : Lexeme abc).glues c = false := by
  rw [Lexeme.glues, hc, Bool.false_or, Bool.and_eq_false_iff]
  by_cases hwhole : n.isWhole = true
  · exact .inr (decide_eq_false (hpoint hwhole))
  · exact .inl (by simpa using hwhole)

theorem head_numeral (n : Numeral) (abc : Alphabet) (rest : Text) :
    ∃ c, (n.text ++ rest).head? = some c ∧ isDigit c = true ∧ abc.part c = true := by
  obtain ⟨c, tail, htext, hdigit⟩ := n.spells.head
  exact ⟨c, by rw [htext]; rfl, hdigit, (abc.digits c hdigit).1⟩

theorem tidy_mark_number {after : List (Lexeme abc)} (hpoint : mark.isPoint = false)
    (hafter : Tidy clean (.number n :: after)) :
    Tidy clean (.mark mark h :: .number n :: after) := by
  refine tidy_cons (fun c hc => ?_) hafter
  obtain ⟨d, hd, -, hpart⟩ := head_numeral n abc (written after)
  rw [written_cons] at hc
  obtain rfl := Option.some.inj (hd.symm.trans hc)
  exact glues_mark_part hpart (by rw [hpoint, Bool.false_and])

theorem tidy_number_mark {after : List (Lexeme abc)} (hpoint : mark.text.head? ≠ some 46)
    (hafter : Tidy clean (.mark mark h :: after)) :
    Tidy clean (.number n :: .mark mark h :: after) := by
  refine tidy_cons (fun c hc => ?_) hafter
  obtain ⟨d, ds, htext⟩ := List.exists_cons_of_ne_nil mark.text_ne_nil
  rw [written_cons, Lexeme.text, htext] at hc
  cases hc
  refine glues_number (abc.marks mark _ (by rw [htext]; exact List.mem_cons_self)) ?_
  rintro - rfl
  exact hpoint (by rw [htext]; rfl)

end Gluing

end Ecma
end Library
