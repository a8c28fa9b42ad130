import Mathlib.Data.List.TakeWhile
import Zdeceptron.Store.Value

/-!
# JSON numbers

The store looks for the grammar of RFC 8259 with a cursor over the bytes.  `IsNumber` is that
grammar, and the cursor reaches the end of a text exactly when the text is one of its numbers.
-/

namespace Zdeceptron
namespace Store

open Library

section Grammar

def IsDigits (text : List Nat) : Prop := text ≠ [] ∧ ∀ c ∈ text, isDigit c = true

/-- `int`: a lone zero, or digits led by another one. -/
inductive IsWhole : List Nat → Prop
  | zero : IsWhole [48]
  | led {c : Nat} {digits : List Nat} (hne : c ≠ 48) (h : IsDigits (c :: digits)) :
      IsWhole (c :: digits)

inductive IsFraction : List Nat → Prop
  | none : IsFraction []
  | point {digits : List Nat} (h : IsDigits digits) : IsFraction (46 :: digits)

inductive IsExponent : List Nat → Prop
  | none : IsExponent []
  | mark {c : Nat} {sign digits : List Nat} (hmark : c = 101 ∨ c = 69)
      (hsign : sign = [] ∨ sign = [43] ∨ sign = [45]) (h : IsDigits digits) :
      IsExponent (c :: (sign ++ digits))

/-- `number = [ minus ] int [ frac ] [ exp ]`. -/
inductive IsNumber : List Nat → Prop
  | mk {minus whole fraction exponent : List Nat} (hminus : minus = [] ∨ minus = [45])
      (hwhole : IsWhole whole) (hfraction : IsFraction fraction)
      (hexponent : IsExponent exponent) :
      IsNumber (minus ++ (whole ++ (fraction ++ exponent)))

end Grammar

section Cursor

variable {text rest digits : List Nat}

def NoDigit (rest : List Nat) : Prop := ∀ c, rest.head? = some c → isDigit c = false

theorem IsDigits.run (h : IsDigits digits) (hrest : NoDigit rest) :
    digitRun (digits ++ rest) = some rest :=
  digitRun_digits h.2 h.1 hrest

theorem digits_of_run (h : digitRun text = some rest) :
    ∃ digits, IsDigits digits ∧ text = digits ++ rest := by
  unfold digitRun at h
  split_ifs at h with hhead
  cases h
  refine ⟨text.takeWhile isDigit, ⟨fun hnil => ?_, fun c hc => List.mem_takeWhile_imp hc⟩,
    List.takeWhile_append_dropWhile.symm⟩
  cases text with
  | nil => cases hhead
  | cons c text =>
      have hc : isDigit c = true := hhead
      rw [List.takeWhile_cons_of_pos hc] at hnil
      cases hnil

theorem digitRun_eq_nil : digitRun text = some [] ↔ IsDigits text := by
  constructor
  · intro h
    obtain ⟨digits, hdigits, rfl⟩ := digits_of_run h
    rwa [List.append_nil]
  · intro h
    have hrun : digitRun (text ++ []) = some [] := h.run (fun c hc => nomatch hc)
    rwa [List.append_nil] at hrun

theorem exponentSign_digits (h : IsDigits digits) : (exponentSign digits).2 = digits := by
  unfold exponentSign
  split
  · exact absurd (h.2 45 List.mem_cons_self) (by decide)
  · exact absurd (h.2 43 List.mem_cons_self) (by decide)
  · rfl

theorem exists_sign (text : List Nat) :
    ∃ sign, (sign = [] ∨ sign = [43] ∨ sign = [45]) ∧ text = sign ++ (exponentSign text).2 := by
  unfold exponentSign
  split
  · exact ⟨[45], .inr (.inr rfl), rfl⟩
  · exact ⟨[43], .inr (.inl rfl), rfl⟩
  · exact ⟨[], .inl rfl, rfl⟩

theorem exponentPart_eq_nil : exponentPart text = some [] ↔ IsExponent text := by
  constructor
  · intro h
    cases text with
    | nil => exact .none
    | cons c text =>
        rw [exponentPart] at h
        split_ifs at h with hmark
        · obtain ⟨sign, hsign, heq⟩ := exists_sign text
          rw [heq]
          exact .mark hmark hsign (digitRun_eq_nil.mp h)
        · cases h
  · intro h
    cases h with
    | none => rfl
    | mark hmark hsign hdigits =>
        rw [exponentPart, if_pos hmark, digitRun_eq_nil]
        obtain rfl | rfl | rfl := hsign
        · rw [List.nil_append, exponentSign_digits hdigits]
          exact hdigits
        · exact hdigits
        · exact hdigits

theorem IsExponent.noDigit (h : IsExponent text) : NoDigit text := by
  intro c hc
  cases h with
  | none => cases hc
  | mark hmark =>
      cases hc
      obtain rfl | rfl := hmark <;> decide

theorem IsExponent.fractionPart (h : IsExponent text) : fractionPart text = some text := by
  cases h with
  | none => rfl
  | mark hmark => obtain rfl | rfl := hmark <;> rfl

theorem fractionPart_eq_nil : (fractionPart text).bind exponentPart = some [] ↔
    ∃ fraction exponent, text = fraction ++ exponent ∧ IsFraction fraction ∧
      IsExponent exponent := by
  constructor
  · intro h
    obtain ⟨rest, hrest, hend⟩ := Option.bind_eq_some_iff.mp h
    have hexponent := exponentPart_eq_nil.mp hend
    unfold Library.fractionPart at hrest
    split at hrest
    · obtain ⟨digits, hdigits, rfl⟩ := digits_of_run hrest
      exact ⟨46 :: digits, rest, rfl, .point hdigits, hexponent⟩
    · cases hrest
      exact ⟨[], text, rfl, .none, hexponent⟩
  · rintro ⟨fraction, exponent, rfl, hfraction, hexponent⟩
    have hend := exponentPart_eq_nil.mpr hexponent
    cases hfraction with
    | none => exact (congrArg (Option.bind · exponentPart) hexponent.fractionPart).trans hend
    | point hdigits =>
        have hrun := hdigits.run hexponent.noDigit
        exact (congrArg (Option.bind · exponentPart) hrun).trans hend

theorem IsFraction.noDigit (h : IsFraction text) (hrest : NoDigit rest) :
    NoDigit (text ++ rest) := by
  cases h with
  | none => exact hrest
  | point =>
      intro c hc
      cases hc
      decide

theorem IsWhole.spelt (h : IsWhole text) :
    IsDigits text ∧ (text = [48] ∨ text.head? ≠ some 48) := by
  cases h with
  | zero => exact ⟨⟨List.cons_ne_nil _ _, by simp [isDigit]⟩, .inl rfl⟩
  | led hne h => exact ⟨h, .inr (fun heq => hne (Option.some.inj heq))⟩

theorem unsignedEnd_eq_nil : unsignedEnd text = some [] ↔
    ∃ whole fraction exponent, text = whole ++ (fraction ++ exponent) ∧ IsWhole whole ∧
      IsFraction fraction ∧ IsExponent exponent := by
  constructor
  · intro h
    obtain ⟨rest, hrest, hend⟩ := Option.bind_eq_some_iff.mp h
    obtain ⟨fraction, exponent, rfl, hfraction, hexponent⟩ := fractionPart_eq_nil.mp hend
    unfold wholePart at hrest
    split at hrest
    · split_ifs at hrest
      cases hrest
      exact ⟨[48], fraction, exponent, rfl, .zero, hfraction, hexponent⟩
    · rename_i hzero
      obtain ⟨digits, hdigits, rfl⟩ := digits_of_run hrest
      obtain ⟨c, digits, rfl⟩ := List.exists_cons_of_ne_nil hdigits.1
      have hne : c ≠ 48 := fun heq => hzero (digits ++ (fraction ++ exponent)) (heq ▸ rfl)
      exact ⟨_, fraction, exponent, rfl, .led hne hdigits, hfraction, hexponent⟩
  · rintro ⟨whole, fraction, exponent, rfl, hwhole, hfraction, hexponent⟩
    obtain ⟨hdigits, hlead⟩ := hwhole.spelt
    have hstop := hfraction.noDigit hexponent.noDigit
    unfold unsignedEnd
    rw [wholePart_digits hdigits.2 hdigits.1 hlead hstop, Option.bind_some, fractionPart_eq_nil]
    exact ⟨fraction, exponent, rfl, hfraction, hexponent⟩

theorem numberEnd_digit {c : Nat} (hc : isDigit c = true) :
    numberEnd (c :: text) = unsignedEnd (c :: text) := by
  unfold numberEnd
  split
  · rename_i heq
    cases heq
    exact absurd hc (by decide)
  · rfl

/-- The cursor accepts a byte string exactly when it is a number of the grammar. -/
theorem isJsonNumber_iff (bytes : List Nat) : isJsonNumber bytes = true ↔ IsNumber bytes := by
  unfold isJsonNumber
  rw [decide_eq_true_iff]
  constructor
  · intro h
    unfold numberEnd at h
    split at h
    · obtain ⟨whole, fraction, exponent, rfl, hwhole, hfraction, hexponent⟩ :=
        unsignedEnd_eq_nil.mp h
      exact .mk (.inr rfl) hwhole hfraction hexponent
    · obtain ⟨whole, fraction, exponent, rfl, hwhole, hfraction, hexponent⟩ :=
        unsignedEnd_eq_nil.mp h
      exact .mk (.inl rfl) hwhole hfraction hexponent
  · rintro ⟨hminus, hwhole, hfraction, hexponent⟩
    have hend := unsignedEnd_eq_nil.mpr ⟨_, _, _, rfl, hwhole, hfraction, hexponent⟩
    obtain rfl | rfl := hminus
    · obtain ⟨c, digits, rfl⟩ := List.exists_cons_of_ne_nil hwhole.spelt.1.1
      exact (numberEnd_digit (hwhole.spelt.1.2 c List.mem_cons_self)).trans hend
    · exact hend

end Cursor

end Store
end Zdeceptron
