import Mathlib.Tactic.IntervalCases
import Zdeceptron.Library.Decimal

/-!
# Numerals in texts

The grammar of JSON numbers and the layout in which ECMAScript writes a double.
A numeral is spelt with whole digits, fraction digits and an exponent; every
layout is such a spelling, and a spelling is read back wherever it stands in a
text that does not go on like a numeral.
-/

namespace Library

section Grammar

def digitRun (text : List Nat) : Option (List Nat) :=
  if text.head?.any isDigit then some (text.dropWhile isDigit) else none

def wholePart : List Nat → Option (List Nat)
  | 48 :: rest => if rest.head?.any isDigit then none else some rest
  | text => digitRun text

def fractionPart : List Nat → Option (List Nat)
  | 46 :: rest => digitRun rest
  | text => some text

def exponentPart : List Nat → Option (List Nat)
  | c :: rest =>
      if c = 101 ∨ c = 69 then digitRun (exponentSign rest).2 else some (c :: rest)
  | [] => some []

/-- What follows the unsigned JSON number at the front of a text. -/
def unsignedEnd (text : List Nat) : Option (List Nat) :=
  (wholePart text).bind (fun rest => (fractionPart rest).bind exponentPart)

/-- What follows the JSON number at the front of a text, if there is one. -/
def numberEnd : List Nat → Option (List Nat)
  | 45 :: text => unsignedEnd text
  | text => unsignedEnd text

end Grammar

section Layout

def layout (d : Decimal) : List Nat :=
  let digits := digitCodes d.digits
  let k : Int := digits.length
  let n := k + d.exponent
  if k ≤ n ∧ n ≤ 21 then digits ++ List.replicate (n - k).toNat 48
  else if 0 < n ∧ n ≤ 21 then digits.take n.toNat ++ 46 :: digits.drop n.toNat
  else if -6 < n ∧ n ≤ 0 then 48 :: 46 :: (List.replicate (-n).toNat 48 ++ digits)
  else
    digits.take 1 ++ (if digits.length = 1 then [] else 46 :: digits.drop 1) ++
      101 :: (if 0 ≤ n - 1 then 43 else 45) :: digitCodes (n - 1).natAbs

def scientific (d : Decimal) : List Nat :=
  let digits := digitCodes d.digits
  let power : Int := digits.length + d.exponent - 1
  digits.take 1 ++ (if digits.length = 1 then [] else 46 :: digits.drop 1) ++
    101 :: (if 0 ≤ power then 43 else 45) :: digitCodes power.natAbs

def numberToString (x : Float) : List Nat :=
  match x.toModel.unpack with
  | .notANumber => [78, 97, 78]
  | .infinity .negative => 45 :: [73, 110, 102, 105, 110, 105, 116, 121]
  | .infinity .positive => [73, 110, 102, 105, 110, 105, 116, 121]
  | .zero _ => [48]
  | .finite .negative _ _ _ => 45 :: layout (shortest (-x))
  | .finite .positive _ _ _ => layout (shortest x)

end Layout

section Digits

theorem isDigit_of_mem_digitCodes {n c : Nat} (h : c ∈ digitCodes n) : isDigit c = true := by
  obtain ⟨ch, hch, rfl⟩ := List.mem_map.mp h
  have hdigit := Nat.isDigit_of_mem_toDigits (by decide) (by decide) hch
  simp only [Char.isDigit, Bool.and_eq_true, decide_eq_true_eq] at hdigit
  simp only [isDigit, Bool.and_eq_true, decide_eq_true_eq]
  exact hdigit

theorem digitCodes_ne_nil (n : Nat) : digitCodes n ≠ [] := by
  unfold digitCodes
  simp

theorem digitsValue_digitCodes (n : Nat) : digitsValue (digitCodes n) = n := by
  have h := Nat.ofDigitChars_ten_toDigits (n := n)
  rw [Nat.ofDigitChars_eq_foldl] at h
  unfold digitsValue digitCodes
  rw [List.foldl_map]
  exact h

theorem digitsValue_append_zeros (ds : List Nat) (n : Nat) :
    digitsValue (ds ++ List.replicate n 48) = digitsValue ds * 10 ^ n := by
  unfold digitsValue
  rw [List.foldl_append]
  generalize ds.foldl (fun n d => 10 * n + (d - 48)) 0 = v
  induction n generalizing v with
  | zero => simp
  | succ n ih =>
      rw [List.replicate_succ, List.foldl_cons, ih, pow_succ]
      simp only [Nat.sub_self, Nat.add_zero]
      ring

theorem digitsValue_zeros_append (ds : List Nat) (n : Nat) :
    digitsValue (List.replicate n 48 ++ ds) = digitsValue ds := by
  have hzero := digitsValue_append_zeros [] n
  simp only [List.nil_append] at hzero
  unfold digitsValue at hzero ⊢
  rw [List.foldl_append, hzero, List.foldl_nil, Nat.zero_mul]

theorem head_digitCodes {n : Nat} (hpos : 0 < n) : (digitCodes n).head? ≠ some 48 := by
  induction n using Nat.strong_induction_on with
  | _ n ih =>
      unfold digitCodes
      by_cases hlt : n < 10
      · rw [Nat.toDigits_of_lt_base hlt]
        interval_cases n <;> decide
      · rw [Nat.toDigits_of_base_le (by decide) (by omega), List.map_append]
        have hne : (Nat.toDigits 10 (n / 10)).map Char.toNat ≠ [] := digitCodes_ne_nil _
        rw [List.head?_append_of_ne_nil _ hne]
        exact ih (n / 10) (by omega) (by omega)

end Digits

section Spelling

def Stops (rest : List Nat) : Prop :=
  ∀ c, rest.head? = some c → isDigit c = false ∧ c ≠ 46 ∧ c ≠ 101 ∧ c ≠ 69

/-- The text goes on with something else than this numeral; behind a fraction or an exponent
that may be a point. -/
def StopsAfter (fs : List Nat) (ex : Option (Bool × List Nat)) (rest : List Nat) : Prop :=
  ∀ c, rest.head? = some c →
    isDigit c = false ∧ (fs = [] → ex = none → c ≠ 46) ∧ c ≠ 101 ∧ c ≠ 69

theorem Stops.after {fs rest : List Nat} {ex : Option (Bool × List Nat)} (h : Stops rest) :
    StopsAfter fs ex rest := by
  intro c hc
  obtain ⟨hdigit, hpoint, hmark⟩ := h c hc
  exact ⟨hdigit, fun _ _ => hpoint, hmark⟩

def spellFraction (fs : List Nat) : List Nat := if fs = [] then [] else 46 :: fs

def spellExponent : Option (Bool × List Nat) → List Nat
  | none => []
  | some (negative, es) => 101 :: (if negative then 45 else 43) :: es

def exponentValue : Option (Bool × List Nat) → Int
  | none => 0
  | some (negative, es) => if negative then -(digitsValue es : Int) else digitsValue es

structure Spelt (ds fs : List Nat) (ex : Option (Bool × List Nat)) : Prop where
  whole : ∀ c ∈ ds, isDigit c = true
  nonempty : ds ≠ []
  fraction : ∀ c ∈ fs, isDigit c = true
  exponent : ∀ negative es, ex = some (negative, es) →
    es ≠ [] ∧ ∀ c ∈ es, isDigit c = true

variable {ds fs rest : List Nat} {ex : Option (Bool × List Nat)}

variable {tail : List Nat}

theorem takeWhile_digits (hds : ∀ c ∈ ds, isDigit c = true)
    (htail : ∀ c, tail.head? = some c → isDigit c = false) :
    (ds ++ tail).takeWhile isDigit = ds ∧ (ds ++ tail).dropWhile isDigit = tail := by
  rw [List.takeWhile_append_of_pos hds, List.dropWhile_append_of_pos hds]
  cases tail with
  | nil => simp
  | cons c tail =>
      have hc := htail c rfl
      simp [hc]

theorem head_spellExponent (fs : List Nat) (ex : Option (Bool × List Nat))
    (hrest : StopsAfter fs ex rest) {c : Nat} (hc : (spellExponent ex ++ rest).head? = some c) :
    isDigit c = false ∧ (fs = [] → c ≠ 46) := by
  cases ex with
  | none => exact ⟨(hrest c hc).1, fun hfs => (hrest c hc).2.1 hfs rfl⟩
  | some pair =>
      simp only [spellExponent, List.cons_append, List.head?_cons, Option.some.injEq] at hc
      subst hc
      exact ⟨by decide, fun _ => by decide⟩

theorem head_spellFraction (fs : List Nat) (ex : Option (Bool × List Nat))
    (hrest : StopsAfter fs ex rest) {c : Nat}
    (hc : (spellFraction fs ++ (spellExponent ex ++ rest)).head? = some c) :
    isDigit c = false := by
  unfold spellFraction at hc
  split_ifs at hc with hfs
  · exact (head_spellExponent fs ex hrest hc).1
  · simp only [List.cons_append, List.head?_cons, Option.some.injEq] at hc
    subst hc
    decide

theorem readExponent_spell (h : Spelt ds fs ex) (hrest : StopsAfter fs ex rest) :
    readExponent (spellExponent ex ++ rest) = (exponentValue ex, rest) := by
  have hstop : ∀ c, rest.head? = some c → isDigit c = false := fun c hc => (hrest c hc).1
  cases ex with
  | none =>
      cases rest with
      | nil => rfl
      | cons c rest =>
          obtain ⟨-, -, h₁, h₂⟩ := hrest c rfl
          simp [spellExponent, readExponent, exponentValue, h₁, h₂]
  | some pair =>
      obtain ⟨negative, es⟩ := pair
      obtain ⟨-, hes⟩ := h.exponent negative es rfl
      obtain ⟨htake, hdrop⟩ := takeWhile_digits hes hstop
      cases negative <;>
        simp [spellExponent, readExponent, exponentSign, exponentValue, htake, hdrop]

theorem readFraction_spell (h : Spelt ds fs ex) (hrest : StopsAfter fs ex rest) :
    readFraction (spellFraction fs ++ (spellExponent ex ++ rest)) =
      (fs, spellExponent ex ++ rest) := by
  unfold spellFraction
  split_ifs with hfs
  · subst hfs
    have hpoint : ∀ c, (spellExponent ex ++ rest).head? = some c → c ≠ 46 :=
      fun c hc => (head_spellExponent [] ex hrest hc).2 rfl
    generalize spellExponent ex ++ rest = text at hpoint
    cases text with
    | nil => rfl
    | cons c text =>
        have hne := hpoint c rfl
        rw [List.nil_append, readFraction]
        rintro tail htail
        cases htail
        exact hne rfl
  · obtain ⟨htake, hdrop⟩ := takeWhile_digits h.fraction
      (fun c hc => (head_spellExponent fs ex hrest hc).1)
    simp [readFraction, htake, hdrop]

theorem readUnsigned_spell (h : Spelt ds fs ex) (hrest : StopsAfter fs ex rest) :
    readUnsigned (ds ++ (spellFraction fs ++ (spellExponent ex ++ rest))) =
      (⟨digitsValue (ds ++ fs), exponentValue ex - fs.length⟩, rest) := by
  obtain ⟨htake, hdrop⟩ := takeWhile_digits h.whole
    (fun c hc => head_spellFraction fs ex hrest hc)
  unfold readUnsigned
  rw [htake, hdrop]
  simp only [readFraction_spell h hrest, readExponent_spell h hrest]

theorem digitRun_digits (hds : ∀ c ∈ ds, isDigit c = true) (hne : ds ≠ [])
    (htail : ∀ c, tail.head? = some c → isDigit c = false) :
    digitRun (ds ++ tail) = some tail := by
  obtain ⟨c, cs, rfl⟩ := List.exists_cons_of_ne_nil hne
  have hc := hds c (by simp)
  unfold digitRun
  rw [(takeWhile_digits hds htail).2]
  simp [hc]

theorem exponentPart_spell (h : Spelt ds fs ex) (hrest : StopsAfter fs ex rest) :
    exponentPart (spellExponent ex ++ rest) = some rest := by
  have hstop : ∀ c, rest.head? = some c → isDigit c = false := fun c hc => (hrest c hc).1
  cases ex with
  | none =>
      cases rest with
      | nil => rfl
      | cons c rest =>
          obtain ⟨-, -, h₁, h₂⟩ := hrest c rfl
          simp [spellExponent, exponentPart, h₁, h₂]
  | some pair =>
      obtain ⟨negative, es⟩ := pair
      obtain ⟨hne, hes⟩ := h.exponent negative es rfl
      have hrun := digitRun_digits hes hne hstop
      cases negative <;> simp [spellExponent, exponentPart, exponentSign, hrun]

theorem fractionPart_spell (h : Spelt ds fs ex) (hrest : StopsAfter fs ex rest) :
    fractionPart (spellFraction fs ++ (spellExponent ex ++ rest)) =
      some (spellExponent ex ++ rest) := by
  unfold spellFraction
  split_ifs with hfs
  · have hpoint := fun c hc => (head_spellExponent fs ex (c := c) hrest hc).2
    generalize spellExponent ex ++ rest = text at hpoint
    cases text with
    | nil => rfl
    | cons c text =>
        have hne := hpoint c rfl hfs
        rw [List.nil_append, fractionPart]
        rintro tail htail
        cases htail
        exact hne rfl
  · have hrun := digitRun_digits h.fraction hfs
      (fun c hc => (head_spellExponent fs ex hrest hc).1)
    simpa [fractionPart] using hrun

theorem wholePart_digits (hds : ∀ c ∈ ds, isDigit c = true) (hne : ds ≠ [])
    (hlead : ds = [48] ∨ ds.head? ≠ some 48)
    (htail : ∀ c, tail.head? = some c → isDigit c = false) :
    wholePart (ds ++ tail) = some tail := by
  rcases hlead with rfl | hlead
  · cases tail with
    | nil => rfl
    | cons c tail =>
        have hc := htail c rfl
        simp [wholePart, hc]
  · have hrun := digitRun_digits hds hne htail
    obtain ⟨c, cs, rfl⟩ := List.exists_cons_of_ne_nil hne
    rw [wholePart]
    · exact hrun
    · rintro rest hrest
      cases hrest
      exact hlead rfl

theorem wholePart_spell (h : Spelt ds fs ex) (hlead : ds = [48] ∨ ds.head? ≠ some 48)
    (hrest : StopsAfter fs ex rest) :
    wholePart (ds ++ (spellFraction fs ++ (spellExponent ex ++ rest))) =
      some (spellFraction fs ++ (spellExponent ex ++ rest)) :=
  wholePart_digits h.whole h.nonempty hlead (fun _ hc => head_spellFraction fs ex hrest hc)

theorem unsignedEnd_spell (h : Spelt ds fs ex) (hlead : ds = [48] ∨ ds.head? ≠ some 48)
    (hrest : StopsAfter fs ex rest) :
    unsignedEnd (ds ++ (spellFraction fs ++ (spellExponent ex ++ rest))) = some rest := by
  unfold unsignedEnd
  rw [wholePart_spell h hlead hrest, Option.bind_some, fractionPart_spell h hrest, Option.bind_some,
    exponentPart_spell h hrest]

end Spelling

section Written

/-- The text is a spelling of a JSON number that reads as the decimal. -/
def Spells (d : Decimal) (text : List Nat) : Prop :=
  ∃ ds fs ex, text = ds ++ (spellFraction fs ++ spellExponent ex) ∧ Spelt ds fs ex ∧
    (ds = [48] ∨ ds.head? ≠ some 48) ∧
    ofDecimal ⟨digitsValue (ds ++ fs), exponentValue ex - fs.length⟩ = ofDecimal d

structure DigitsOf (n : Nat) (ds : List Nat) : Prop where
  pos : 0 < n
  digit : ∀ c ∈ ds, isDigit c = true
  value : digitsValue ds = n
  head : ds.head? ≠ some 48
  length : 0 < ds.length

theorem digitsOf_digitCodes {n : Nat} (hpos : 0 < n) : DigitsOf n (digitCodes n) where
  pos := hpos
  digit := fun _ hc => isDigit_of_mem_digitCodes hc
  value := digitsValue_digitCodes n
  head := head_digitCodes hpos
  length := List.length_pos_of_ne_nil (digitCodes_ne_nil n)

variable {n : Nat} {ds : List Nat} {e : Int}

theorem DigitsOf.take_head (h : DigitsOf n ds) {k : Nat} (hk : 0 < k) :
    (ds.take k).head? ≠ some 48 := by
  rw [List.head?_take, if_neg (by omega)]
  exact h.head

theorem isDigit_zeros {k c : Nat} (hc : c ∈ List.replicate k 48) : isDigit c = true := by
  rw [List.eq_of_mem_replicate hc]
  decide

theorem DigitsOf.spells_whole (h : DigitsOf n ds) (he : 0 ≤ e) (hsmall : e ≤ 2048) :
    Spells ⟨n, e⟩ (ds ++ List.replicate e.toNat 48) := by
  refine ⟨ds ++ List.replicate e.toNat 48, [], none, by simp [spellFraction, spellExponent],
    ⟨?_, ?_, by simp, by simp⟩, ?_, ?_⟩
  · intro c hc
    rcases List.mem_append.mp hc with hc | hc
    · exact h.digit c hc
    · exact isDigit_zeros hc
  · exact List.append_ne_nil_of_left_ne_nil (List.ne_nil_of_length_pos h.length) _
  · right
    rw [List.head?_append_of_ne_nil _ (List.ne_nil_of_length_pos h.length)]
    exact h.head
  · have hscale := ofDecimal_mul_pow (d := n) (j := e.toNat) h.pos (by omega)
    rw [Int.toNat_of_nonneg he] at hscale
    rw [List.append_nil, digitsValue_append_zeros, h.value, ← hscale]
    rfl

theorem DigitsOf.spells_point (h : DigitsOf n ds) {k : Nat} (hk : 0 < k)
    (hlt : k < ds.length) (he : (k : Int) = ds.length + e) :
    Spells ⟨n, e⟩ (ds.take k ++ 46 :: ds.drop k) := by
  have hne : ds.drop k ≠ [] := by
    rw [ne_eq, List.drop_eq_nil_iff]
    omega
  refine ⟨ds.take k, ds.drop k, none, by simp [spellFraction, spellExponent, hne],
    ⟨fun c hc => h.digit c (List.mem_of_mem_take hc), ?_,
      fun c hc => h.digit c (List.mem_of_mem_drop hc), by simp⟩,
    Or.inr (h.take_head hk), ?_⟩
  · refine List.ne_nil_of_length_pos ?_
    rw [List.length_take]
    omega
  · rw [List.take_append_drop, h.value, List.length_drop, exponentValue]
    congr 2
    omega

theorem DigitsOf.spells_leading (h : DigitsOf n ds) {k : Nat} (he : (k : Int) = -(ds.length + e)) :
    Spells ⟨n, e⟩ (48 :: 46 :: (List.replicate k 48 ++ ds)) := by
  have hne : List.replicate k 48 ++ ds ≠ [] :=
    List.append_ne_nil_of_right_ne_nil _ (List.ne_nil_of_length_pos h.length)
  have hone : [48] ++ (List.replicate k 48 ++ ds) = List.replicate (k + 1) 48 ++ ds := by
    rw [List.replicate_succ]
    rfl
  refine ⟨[48], List.replicate k 48 ++ ds, none, ?_, ⟨by simp [isDigit], by simp, ?_, by simp⟩,
    Or.inl rfl, ?_⟩
  · rw [spellFraction, if_neg hne]
    simp [spellExponent]
  · intro c hc
    rcases List.mem_append.mp hc with hc | hc
    · exact isDigit_zeros hc
    · exact h.digit c hc
  · rw [hone, digitsValue_zeros_append, h.value, exponentValue, List.length_append,
      List.length_replicate]
    congr 2
    omega

theorem DigitsOf.spells_scientific (h : DigitsOf n ds) {p : Int}
    (he : p = ds.length + e - 1) :
    Spells ⟨n, e⟩
      (ds.take 1 ++ (if ds.length = 1 then [] else 46 :: ds.drop 1) ++
        101 :: (if 0 ≤ p then 43 else 45) :: digitCodes p.natAbs) := by
  have hlength := h.length
  refine ⟨ds.take 1, ds.drop 1, some (decide (p < 0), digitCodes p.natAbs), ?_,
    ⟨fun c hc => h.digit c (List.mem_of_mem_take hc), ?_,
      fun c hc => h.digit c (List.mem_of_mem_drop hc), ?_⟩,
    Or.inr (h.take_head Nat.one_pos), ?_⟩
  · have hpoint : (if ds.length = 1 then [] else 46 :: ds.drop 1) =
        spellFraction (ds.drop 1) := by
      unfold spellFraction
      refine if_congr ?_ rfl rfl
      rw [List.drop_eq_nil_iff]
      omega
    rw [hpoint, List.append_assoc]
    by_cases hp : p < 0
    · simp [spellExponent, hp, Int.not_le.mpr hp]
    · simp [spellExponent, hp, Int.not_lt.mp hp]
  · refine List.ne_nil_of_length_pos ?_
    rw [List.length_take]
    omega
  · rintro negative es hes
    cases hes
    exact ⟨digitCodes_ne_nil _, fun c hc => isDigit_of_mem_digitCodes hc⟩
  · have hexponent : exponentValue (some (decide (p < 0), digitCodes p.natAbs)) = p := by
      simp only [exponentValue, digitsValue_digitCodes]
      by_cases hp : p < 0
      · simp only [hp, decide_true, if_true]
        omega
      · simp only [hp, decide_false, Bool.false_eq_true, if_false]
        omega
    rw [List.take_append_drop, h.value, List.length_drop, hexponent]
    congr 2
    omega

theorem spells_layout {d : Decimal} (hpos : 0 < d.digits) : Spells d (layout d) := by
  have h := digitsOf_digitCodes hpos
  have hlength := h.length
  unfold layout
  simp only
  generalize digitCodes d.digits = ds at h hlength
  by_cases h₁ : (ds.length : Int) ≤ ds.length + d.exponent ∧ ds.length + d.exponent ≤ 21
  · have hzeros : (ds.length : Int) + d.exponent - ds.length = d.exponent := by omega
    rw [if_pos h₁, hzeros]
    exact h.spells_whole (by omega) (by omega)
  · rw [if_neg h₁]
    by_cases h₂ : 0 < (ds.length : Int) + d.exponent ∧ ds.length + d.exponent ≤ 21
    · rw [if_pos h₂]
      exact h.spells_point (by omega) (by omega) (by omega)
    · rw [if_neg h₂]
      by_cases h₃ : -6 < (ds.length : Int) + d.exponent ∧ ds.length + d.exponent ≤ 0
      · rw [if_pos h₃]
        exact h.spells_leading (by omega)
      · rw [if_neg h₃]
        exact h.spells_scientific rfl

theorem spells_scientific {d : Decimal} (hpos : 0 < d.digits) : Spells d (scientific d) :=
  (digitsOf_digitCodes hpos).spells_scientific rfl

theorem spells_positional {d : Decimal} (hpos : 0 < d.digits) (hsmall : d.exponent ≤ 2048) :
    Spells d (positional d) := by
  have h := digitsOf_digitCodes hpos
  have hlength := h.length
  unfold positional
  simp only
  generalize digitCodes d.digits = ds at h hlength
  split_ifs with h₁ h₂
  · exact h.spells_leading (by omega)
  · exact h.spells_point (by omega) (by omega) (by omega)
  · exact h.spells_whole (by omega) hsmall

variable {x : Float} {rest : List Nat} {d : Decimal}

theorem Spells.readUnsigned {text : List Nat} (h : Spells d text) (hrest : Stops rest) :
    ∃ d', readUnsigned (text ++ rest) = (d', rest) ∧ ofDecimal d' = ofDecimal d := by
  obtain ⟨ds, fs, ex, rfl, hspelt, -, hvalue⟩ := h
  refine ⟨_, ?_, hvalue⟩
  rw [List.append_assoc, List.append_assoc]
  exact readUnsigned_spell hspelt hrest.after

theorem Spells.unsignedEnd {text : List Nat} (h : Spells d text) (hrest : Stops rest) :
    unsignedEnd (text ++ rest) = some rest := by
  obtain ⟨ds, fs, ex, rfl, hspelt, hlead, -⟩ := h
  rw [List.append_assoc, List.append_assoc]
  exact unsignedEnd_spell hspelt hlead hrest.after

theorem Spells.head {text : List Nat} (h : Spells d text) :
    ∃ c tail, text = c :: tail ∧ isDigit c = true := by
  obtain ⟨ds, fs, ex, rfl, hspelt, -, -⟩ := h
  obtain ⟨c, cs, rfl⟩ := List.exists_cons_of_ne_nil hspelt.nonempty
  exact ⟨c, _, rfl, hspelt.whole c (by simp)⟩

def unsignedZero (x : Float) : Float :=
  match x.toModel.unpack with
  | .zero _ => ofDecimal ⟨0, 0⟩
  | _ => x

open Binary64

theorem numberToString_zero (h : ∃ sign, x.toModel.unpack = .zero sign) :
    numberToString x = [48] ∧ unsignedZero x = ofDecimal ⟨0, 0⟩ := by
  obtain ⟨sign, hx⟩ := h
  simp [numberToString, unsignedZero, hx]

theorem numberToString_positive {m : Nat} {e : Int} (h : IsFinite x .positive m e) :
    numberToString x = layout (shortest x) ∧ unsignedZero x = x := by
  unfold numberToString unsignedZero
  rw [h.unpack]
  exact ⟨rfl, rfl⟩

theorem numberToString_negative {m : Nat} {e : Int} (h : IsFinite x .negative m e) :
    numberToString x = 45 :: layout (shortest (-x)) ∧ unsignedZero x = x := by
  unfold numberToString unsignedZero
  rw [h.unpack]
  exact ⟨rfl, rfl⟩

theorem readNumeral_numberToString (h : x.isFinite = true) (hrest : Stops rest) :
    readNumeral (numberToString x ++ rest) = (unsignedZero x, rest) := by
  have hdigit : ∀ {c : Nat} {tail : List Nat}, isDigit c = true →
      readNumeral (c :: tail) =
        (ofDecimal (readUnsigned (c :: tail)).1, (readUnsigned (c :: tail)).2) := by
    intro c tail hc
    rw [readNumeral]
    rintro text htext
    cases htext
    exact absurd hc (by decide)
  rcases zero_or_finite h with hzero | ⟨sign, m, e, hfinite⟩
  · obtain ⟨htext, hvalue⟩ := numberToString_zero hzero
    have hspelt : Spelt [48] [] none := ⟨by simp [isDigit], by simp, by simp, by simp⟩
    have hread := readUnsigned_spell hspelt hrest.after
    simp only [spellFraction, spellExponent, if_true, List.nil_append] at hread
    rw [htext, hvalue, List.cons_append, hdigit (by decide), ← List.cons_append, hread]
    rfl
  · cases sign with
    | positive =>
        obtain ⟨htext, hvalue⟩ := numberToString_positive hfinite
        have hspells := spells_layout (shortest_pos hfinite)
        obtain ⟨d', hread, hd'⟩ := hspells.readUnsigned hrest
        obtain ⟨c, tail, hcons, hc⟩ := hspells.head
        rw [htext, hvalue, hcons, List.cons_append, hdigit hc, ← List.cons_append, ← hcons,
          hread, hd', ofDecimal_shortest hfinite]
    | negative =>
        obtain ⟨htext, hvalue⟩ := numberToString_negative hfinite
        have hneg : IsFinite (-x) .positive m e := hfinite.neg
        obtain ⟨d', hread, hd'⟩ := (spells_layout (shortest_pos hneg)).readUnsigned hrest
        rw [htext, hvalue, List.cons_append, readNumeral, hread, hd',
          ofDecimal_shortest hneg, hfinite.neg_neg]

theorem numberEnd_numberToString (h : x.isFinite = true) (hrest : Stops rest) :
    numberEnd (numberToString x ++ rest) = some rest := by
  have hdigit : ∀ {c : Nat} {tail : List Nat}, isDigit c = true →
      numberEnd (c :: tail) = unsignedEnd (c :: tail) := by
    intro c tail hc
    rw [numberEnd]
    rintro text htext
    cases htext
    exact absurd hc (by decide)
  rcases zero_or_finite h with hzero | ⟨sign, m, e, hfinite⟩
  · have hspelt : Spelt [48] [] none := ⟨by simp [isDigit], by simp, by simp, by simp⟩
    have hend := unsignedEnd_spell hspelt (Or.inl rfl) hrest.after
    simp only [spellFraction, spellExponent, if_true, List.nil_append] at hend
    rw [(numberToString_zero hzero).1, List.cons_append, hdigit (by decide),
      ← List.cons_append, hend]
  · cases sign with
    | positive =>
        have hspells := spells_layout (shortest_pos hfinite)
        obtain ⟨c, tail, hcons, hc⟩ := hspells.head
        rw [(numberToString_positive hfinite).1, hcons, List.cons_append, hdigit hc,
          ← List.cons_append, ← hcons, hspells.unsignedEnd hrest]
    | negative =>
        have hneg : IsFinite (-x) .positive m e := hfinite.neg
        rw [(numberToString_negative hfinite).1, List.cons_append, numberEnd,
          (spells_layout (shortest_pos hneg)).unsignedEnd hrest]

theorem head_numberToString (h : x.isFinite = true) :
    ∃ c tail, numberToString x = c :: tail ∧ (c = 45 ∨ isDigit c = true) := by
  rcases zero_or_finite h with hzero | ⟨sign, m, e, hfinite⟩
  · exact ⟨48, [], (numberToString_zero hzero).1, Or.inr rfl⟩
  · cases sign with
    | positive =>
        obtain ⟨c, tail, hcons, hc⟩ := (spells_layout (shortest_pos hfinite)).head
        exact ⟨c, tail, (numberToString_positive hfinite).1.trans hcons, Or.inr hc⟩
    | negative => exact ⟨45, _, (numberToString_negative hfinite).1, Or.inl rfl⟩

end Written

end Library
