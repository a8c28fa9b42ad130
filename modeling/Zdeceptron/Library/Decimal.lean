import Mathlib.Data.List.Basic
import Zdeceptron.Library.Binary64

/-!
# Decimal numerals of binary64 numbers

Reading and writing the numbers of languages whose only number is a double.
Texts are lists of character codes, so that byte strings and strings of UTF-16
code units use the same functions.
-/

namespace Library

/-- A decimal `digits × 10 ^ exponent`. -/
structure Decimal where
  digits : Nat
  exponent : Int
deriving DecidableEq

def ofDecimal (d : Decimal) : Float :=
  Float.ofModel (Float.Model.ofScientific d.digits d.exponent)

section Reading

/-- The codes of the characters `0` to `9`. -/
def isDigit (c : Nat) : Bool := decide (48 ≤ c) && decide (c ≤ 57)

def digitsValue (ds : List Nat) : Nat :=
  ds.foldl (fun n d => 10 * n + (d - 48)) 0

def exponentSign : List Nat → Bool × List Nat
  | 45 :: rest => (true, rest)
  | 43 :: rest => (false, rest)
  | rest => (false, rest)

def readExponent : List Nat → Int × List Nat
  | c :: rest =>
      if c = 101 ∨ c = 69 then
        let (negative, digits) := exponentSign rest
        let value : Int := digitsValue (digits.takeWhile isDigit)
        (if negative then -value else value, digits.dropWhile isDigit)
      else (0, c :: rest)
  | [] => (0, [])

def readFraction : List Nat → List Nat × List Nat
  | 46 :: rest => (rest.takeWhile isDigit, rest.dropWhile isDigit)
  | rest => ([], rest)

def readUnsigned (text : List Nat) : Decimal × List Nat :=
  let whole := text.takeWhile isDigit
  let (fraction, afterFraction) := readFraction (text.dropWhile isDigit)
  let (exponent, rest) := readExponent afterFraction
  (⟨digitsValue (whole ++ fraction), exponent - fraction.length⟩, rest)

def readNumeral : List Nat → Float × List Nat
  | 45 :: text => (-(ofDecimal (readUnsigned text).1), (readUnsigned text).2)
  | text => (ofDecimal (readUnsigned text).1, (readUnsigned text).2)

end Reading

section Writing

def digitCodes (n : Nat) : List Nat := (Nat.toDigits 10 n).map Char.toNat

def exactDecimal : Float.Model.UnpackedFloat → Decimal
  | .finite _ mantissa exponent _ =>
      if 0 ≤ exponent then ⟨mantissa * 2 ^ exponent.toNat, 0⟩
      else ⟨mantissa * 5 ^ (-exponent).toNat, exponent⟩
  | _ => ⟨0, 0⟩

/-- Whether the decimal reads back as `x`. -/
def readsBack (x : Float) (d : Decimal) : Bool := decide (ofDecimal d = x)

/-- The decimals of `k` digits around `exact`, the nearer one first. -/
def neighbours (exact : Decimal) (k : Nat) : List Decimal :=
  let cut := (digitCodes exact.digits).length - k
  let below := exact.digits / 10 ^ cut
  let exponent := exact.exponent + cut
  let lower : Decimal := ⟨below, exponent⟩
  let upper : Decimal :=
    if below + 1 = 10 ^ k then ⟨10 ^ (k - 1), exponent + 1⟩ else ⟨below + 1, exponent⟩
  if 2 * (exact.digits % 10 ^ cut) ≤ 10 ^ cut then [lower, upper] else [upper, lower]

/-- The first decimal of at most `steps` more digits that reads back as `x`. -/
def shortestFrom (x : Float) (exact : Decimal) : Nat → Nat → Decimal
  | 0, _ => exact
  | steps + 1, k =>
      match (neighbours exact k).find? (readsBack x) with
      | some d => d
      | none => shortestFrom x exact steps (k + 1)

/-- The shortest decimal that reads back as the positive finite double `x`.
Seventeen digits tell every two doubles apart. -/
def shortest (x : Float) : Decimal :=
  shortestFrom x (exactDecimal x.toModel.unpack) 17 1

def positional (d : Decimal) : List Nat :=
  let digits := digitCodes d.digits
  let point : Int := digits.length + d.exponent
  if point ≤ 0 then 48 :: 46 :: (List.replicate (-point).toNat 48 ++ digits)
  else if point < digits.length then
    digits.take point.toNat ++ 46 :: digits.drop point.toNat
  else digits ++ List.replicate d.exponent.toNat 48

end Writing

section ReadBack

open Binary64

variable {x : Float} {m : Nat} {e : Int}

theorem ofDecimal_exactDecimal (h : IsFinite x .positive m e) :
    ofDecimal (exactDecimal x.toModel.unpack) = x := by
  have hexact : exactDecimal (.finite .positive m e h.pos) =
      if 0 ≤ e then ⟨m * 2 ^ e.toNat, 0⟩ else ⟨m * 5 ^ (-e).toNat, e⟩ := rfl
  unfold ofDecimal Float.Model.ofScientific
  rw [h.unpack, hexact]
  refine Eq.trans (congrArg (fun u => Float.ofModel (Float.Model.pack u)) ?_) h.eq
  by_cases he : 0 ≤ e
  · rw [if_pos he]
    exact ofScientific_whole h.pos h.target he
  · rw [if_neg he]
    exact ofScientific_fraction h.pos h.target (by omega) h.exponent_ge

theorem ofDecimal_shortestFrom (h : IsFinite x .positive m e) (steps k : Nat) :
    ofDecimal (shortestFrom x (exactDecimal x.toModel.unpack) steps k) = x := by
  induction steps generalizing k with
  | zero => exact ofDecimal_exactDecimal h
  | succ steps ih =>
      unfold shortestFrom
      cases hfind : (neighbours (exactDecimal x.toModel.unpack) k).find? (readsBack x) with
      | none => exact ih (k + 1)
      | some d =>
          have hd := List.find?_some hfind
          unfold readsBack at hd
          exact of_decide_eq_true hd

theorem ofDecimal_shortest (h : IsFinite x .positive m e) : ofDecimal (shortest x) = x :=
  ofDecimal_shortestFrom h 17 1

theorem shortest_pos (h : IsFinite x .positive m e) : 0 < (shortest x).digits := by
  refine Nat.pos_of_ne_zero ?_
  intro h0
  have hback := ofDecimal_shortest h
  unfold ofDecimal Float.Model.ofScientific Float.Model.UnpackedFloat.ofScientific at hback
  rw [dif_pos h0] at hback
  rw [← hback] at h
  have hzero : (Float.Model.pack (.zero .positive)).unpack = .zero .positive := rfl
  have := h.unpack.symm.trans hzero
  cases this

theorem shortest_exponent_le (h : IsFinite x .positive m e) : (shortest x).exponent ≤ 2048 := by
  by_contra hlarge
  have hback := ofDecimal_shortest h
  have htwo : ((2 : Int) ^ Float.Model.Format.binary64.exponentBits) = 2048 := by decide
  unfold ofDecimal Float.Model.ofScientific Float.Model.UnpackedFloat.ofScientific at hback
  rw [dif_neg (Nat.pos_iff_ne_zero.mp (shortest_pos h)), htwo,
    if_pos (Int.not_le.mp hlarge)] at hback
  rw [← hback] at h
  have hinfinite : (Float.Model.pack (.infinity .positive)).unpack = .infinity .positive := rfl
  have := h.unpack.symm.trans hinfinite
  cases this

theorem ofDecimal_mul_pow {d j : Nat} (hpos : 0 < d) (hj : j ≤ 2048) :
    ofDecimal ⟨d * 10 ^ j, 0⟩ = ofDecimal ⟨d, j⟩ := by
  unfold ofDecimal Float.Model.ofScientific
  simp only
  rw [ofScientific_mul_pow hpos hj]

end ReadBack

end Library
