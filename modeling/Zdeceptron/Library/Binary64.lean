import Mathlib.Data.Nat.Log
import Mathlib.Tactic.SplitIfs
import Mathlib.Tactic.Ring
import Mathlib.Tactic.Positivity

/-!
# Binary64 numbers without rounding error

The kernel's model of a double unpacks it to a sign, a mantissa and an exponent,
computes there, rounds and packs.  Where the result of an operation can be
represented nothing is lost.
-/

namespace Library
namespace Binary64

open Float.Model Float.Model.UnpackedFloat

abbrev Bits := BitVec Format.binary64.numBits

/-- The mantissa and the exponent of a finite double with given exponent bits and
mantissa bits: the implicit bit is missing from the small ones only. -/
inductive Parts (ev : BitVec 11) (mv : BitVec 52) : Nat → Int → Prop
  | small : ev = 0#11 → Parts ev mv mv.toNat (-1074)
  | normal : ev ≠ -1#11 → ev ≠ 0#11 → Parts ev mv (2 ^ 52 + mv.toNat) (ev.toNat - 1075)

section Pack

theorem toNat_implicit (mv : BitVec 52) : (1#1 ++ mv).toNat = 2 ^ 52 + mv.toNat := by
  have hv := mv.isLt
  rw [BitVec.toNat_append, BitVec.toNat_ofNat, show 1 % 2 ^ 1 = 1 by decide,
    Nat.shiftLeft_eq, one_mul, ← Nat.two_pow_add_eq_or_of_lt hv 1, mul_one]

theorem unpackSign_eq (b : Bits) : unpackSign b = (b.extractLsb 63 63).cast (by decide) := rfl

variable {ev : BitVec 11} {mv : BitVec 52}

theorem packComponents_of_parts {b : Bits}
    (he : unpackExponent b = ev) (hm : unpackMantissa b = mv) :
    packComponents Format.binary64 (Sign.ofBitVec (unpackSign b)) ev mv = b := by
  subst he hm
  have hsign : ∀ v : BitVec 1, (Sign.ofBitVec v).toBitVec = v := by decide
  unfold packComponents
  rw [hsign]
  apply BitVec.eq_of_getElem_eq
  intro i hi
  change i < 64 at hi
  simp only [BitVec.getElem_append, unpackSign_eq, unpackExponent, unpackMantissa]
  by_cases h₁ : i < 52
  · simp only [h₁, dif_pos]
    simp [BitVec.getLsbD_eq_getElem hi]
  · by_cases h₂ : i - 52 < 11
    · have h₃ : 52 + (i - 52) = i := by omega
      simp [h₁, h₂, h₃, BitVec.getLsbD_eq_getElem hi]
    · have h₃ : i = 63 := by omega
      subst h₃
      simp [BitVec.getLsbD_eq_getElem hi]

theorem unpack_parts (b : Bits) :
    (unpackExponent b = -1#11 ∧ unpackMantissa b = 0#52 ∧ UnpackedFloat.unpack Format.binary64 b =
          .infinity (Sign.ofBitVec (unpackSign b))) ∨
      (unpackExponent b = -1#11 ∧ unpackMantissa b ≠ 0#52 ∧
        UnpackedFloat.unpack Format.binary64 b = .notANumber) ∨
      (unpackExponent b = 0#11 ∧ unpackMantissa b = 0#52 ∧
        UnpackedFloat.unpack Format.binary64 b = .zero (Sign.ofBitVec (unpackSign b))) ∨
      ∃ m e hpos, Parts (unpackExponent b) (unpackMantissa b) m e ∧
        UnpackedFloat.unpack Format.binary64 b =
          .finite (Sign.ofBitVec (unpackSign b)) m e hpos := by
  unfold UnpackedFloat.unpack
  by_cases he : unpackExponent b = -1#11
  · by_cases hm : unpackMantissa b = 0#52
    · exact Or.inl ⟨he, hm, by rw [if_pos he, if_pos hm]⟩
    · exact Or.inr (Or.inl ⟨he, hm, by rw [if_pos he, if_neg hm]⟩)
  · by_cases he0 : unpackExponent b = 0#11
    · by_cases hm : unpackMantissa b = 0#52
      · refine Or.inr (Or.inr (Or.inl ⟨he0, hm, ?_⟩))
        rw [if_neg he, if_pos he0, dif_pos hm]
      · refine Or.inr (Or.inr (Or.inr ?_))
        have hpos : 0 < (unpackMantissa b).toNat := by
          refine Nat.pos_of_ne_zero ?_
          intro h0
          exact hm (BitVec.eq_of_toNat_eq h0)
        rw [if_neg he, if_pos he0, dif_neg hm]
        refine ⟨_, _, hpos, ?_, rfl⟩
        rw [he0]
        exact Parts.small rfl
    · refine Or.inr (Or.inr (Or.inr ?_))
      have hbias : (Format.binary64.exponentBias : Int) +
          (Format.binary64.mantissaBitsWithoutImplicit : Int) = 1075 := by decide
      have hpos : 0 < 2 ^ 52 + (unpackMantissa b).toNat := by omega
      rw [if_neg he, if_neg he0]
      refine ⟨_, _, by rw [toNat_implicit]; exact hpos, ?_, rfl⟩
      rw [toNat_implicit]
      exact hbias ▸ Parts.normal he he0

theorem log2_eq_of_bounds {m k : Nat} (hlow : 2 ^ k ≤ m) (hhigh : m < 2 ^ (k + 1)) :
    m.log2 = k := by
  have hpos : 0 < m := lt_of_lt_of_le (Nat.two_pow_pos k) hlow
  have h₁ := (Nat.le_log2 (by omega : m ≠ 0)).mpr hlow
  have h₂ := (Nat.log2_lt (by omega : m ≠ 0)).mpr hhigh
  omega

theorem Parts.pack {m : Nat} {e : Int} (h : Parts ev mv m e) (sign : Sign) (hpos : 0 < m) :
    UnpackedFloat.pack Format.binary64 (.finite sign m e hpos) =
      packComponents Format.binary64 sign ev mv := by
  have hbits : Format.binary64.mantissaBits = 53 := by decide
  have hbias : (Format.binary64.exponentBias : Int) = 1023 := by decide
  have hwidth : (Format.binary64.mantissaBitsWithoutImplicit : Int) = 52 := rfl
  have hmv := mv.isLt
  have hev := ev.isLt
  cases h with
  | small he =>
      have hlog : mv.toNat.log2 < 52 := (Nat.log2_lt (by omega)).mpr hmv
      unfold UnpackedFloat.pack
      simp only [hbias, hwidth, hbits]
      rw [if_neg (by decide), if_neg (by omega), BitVec.ofNat_toNat, BitVec.setWidth_eq, he]
  | normal he he0 =>
      have hlog := log2_eq_of_bounds (m := 2 ^ 52 + mv.toNat) (k := 52) (by omega) (by omega)
      have htop : ev.toNat ≠ 2 ^ 11 - 1 := fun heq => he (BitVec.eq_of_toNat_eq heq)
      have hback : ((ev.toNat : Int) - 1075 + 1023 + 52).toNat = ev.toNat := by omega
      have hmant : BitVec.ofNat 52 (2 ^ 52 + mv.toNat) = mv := by
        refine BitVec.eq_of_toNat_eq ?_
        rw [BitVec.toNat_ofNat, Nat.add_mod_left, Nat.mod_eq_of_lt hmv]
      unfold UnpackedFloat.pack
      simp only [hbias, hwidth, hbits, hback, hlog]
      rw [if_neg (by omega), if_pos trivial, BitVec.ofNat_toNat, BitVec.setWidth_eq]
      exact congrArg _ hmant

theorem Parts.unique {m m' : Nat} {e e' : Int}
    (h : Parts ev mv m e) (h' : Parts ev mv m' e') : m = m' ∧ e = e' := by
  cases h with
  | small he =>
      cases h' with
      | small _ => exact ⟨rfl, rfl⟩
      | normal _ he' => exact absurd he he'
  | normal _ he =>
      cases h' with
      | small he' => exact absurd he' he
      | normal _ _ => exact ⟨rfl, rfl⟩

theorem unpackSign_packComponents (sign : Sign) (ev : BitVec 11) (mv : BitVec 52) :
    Sign.ofBitVec (unpackSign (packComponents Format.binary64 sign ev mv)) = sign := by
  have h : unpackSign (packComponents Format.binary64 sign ev mv) = sign.toBitVec := by
    apply BitVec.eq_of_getElem_eq
    intro i hi
    obtain rfl : i = 0 := by omega
    have hsplit : (sign.toBitVec ++ ev ++ mv).getLsbD 63 = sign.toBitVec.getLsbD 0 := by
      rw [BitVec.getLsbD_append, BitVec.getLsbD_append]
      rfl
    simp only [unpackSign_eq, packComponents, BitVec.getElem_cast, BitVec.extractLsb,
      BitVec.getElem_extractLsb']
    exact hsplit
  rw [h]
  cases sign <;> rfl

theorem Parts.unpack_pack {m : Nat} {e : Int} (h : Parts ev mv m e) (sign : Sign) (hpos : 0 < m) :
    UnpackedFloat.unpack Format.binary64
        (UnpackedFloat.pack Format.binary64 (.finite sign m e hpos)) = .finite sign m e hpos := by
  rw [h.pack sign hpos]
  have hsign := unpackSign_packComponents sign ev mv
  rcases unpack_parts (packComponents Format.binary64 sign ev mv) with
    ⟨he, -, -⟩ | ⟨he, -, -⟩ | ⟨he, hm, -⟩ | ⟨m', e', hpos', hparts, hu⟩
  · rw [unpackExponent_packComponents] at he
    cases h with
    | small he' => exact absurd (he'.symm.trans he) (by decide)
    | normal he' _ => exact absurd he he'
  · rw [unpackExponent_packComponents] at he
    cases h with
    | small he' => exact absurd (he'.symm.trans he) (by decide)
    | normal he' _ => exact absurd he he'
  · rw [unpackExponent_packComponents] at he
    rw [unpackMantissa_packComponents] at hm
    cases h with
    | small _ =>
        subst hm
        exact absurd hpos (by decide)
    | normal _ he' => exact absurd he he'
  · rw [unpackExponent_packComponents, unpackMantissa_packComponents] at hparts
    obtain ⟨rfl, rfl⟩ := h.unique hparts
    rw [hu, hsign]

theorem pack_unpack_bits {b : Bits} (h : Format.binary64.Valid b) :
    UnpackedFloat.pack Format.binary64 (UnpackedFloat.unpack Format.binary64 b) = b := by
  rcases unpack_parts b with
    ⟨he, hm, hu⟩ | ⟨he, hm, hu⟩ | ⟨he, hm, hu⟩ | ⟨m, e, hpos, hparts, hu⟩
  · rw [hu]
    exact packComponents_of_parts he hm
  · rw [hu]
    exact (h.eq_packedNaN he hm).symm
  · rw [hu]
    exact packComponents_of_parts he hm
  · rw [hu, hparts.pack]
    exact packComponents_of_parts rfl rfl

theorem pack_unpack (f : Float.Model) : Float.Model.pack f.unpack = f := by
  obtain ⟨bits, hvalid⟩ := f
  have h := pack_unpack_bits hvalid
  exact (Float.Model.mk.injEq _ _ _ _).mpr (congrArg UInt64.ofBitVec h)

end Pack

section Round

variable {ev : BitVec 11} {mv : BitVec 52} {m : Nat} {e : Int}

theorem Parts.exponent_ge (h : Parts ev mv m e) : -1074 ≤ e := by
  cases h with
  | small he => exact le_refl _
  | normal he he0 =>
      have : ev.toNat ≠ 0 := fun h0 => he0 (BitVec.eq_of_toNat_eq h0)
      omega

theorem Parts.targetExponent (h : Parts ev mv m e) :
    Format.binary64.targetExponent (totalExponent m e) = e := by
  have hmin : Format.binary64.minExponent = -1074 := by decide
  have hbits : (Format.binary64.mantissaBits : Int) = 53 := by decide
  have hmv := mv.isLt
  have hge := h.exponent_ge
  unfold Format.targetExponent totalExponent
  rw [hmin, hbits]
  cases h with
  | small he =>
      have hlog : mv.toNat.log2 ≤ 52 := by
        by_cases h0 : mv.toNat = 0
        · simp [h0]
        · exact Nat.le_of_lt ((Nat.log2_lt h0).mpr hmv)
      omega
  | normal he he0 =>
      have hlog := log2_eq_of_bounds (m := 2 ^ 52 + mv.toNat) (k := 52) (by omega) (by omega)
      omega

theorem repeat_shiftRightOne (m n : Nat) :
    n.repeat ExtendedMantissa.shiftRightOne ⟨m * 2 ^ n, false, false⟩ = ⟨m, false, false⟩ := by
  induction n generalizing m with
  | zero => simp [Nat.repeat]
  | succ n ih =>
      have hsplit : m * 2 ^ (n + 1) = (m * 2) * 2 ^ n := by ring
      rw [hsplit, Nat.repeat, ih]
      simp [ExtendedMantissa.shiftRightOne]

theorem log2_mul_two_pow {m : Nat} (hpos : 0 < m) (n : Nat) :
    (m * 2 ^ n).log2 = m.log2 + n := by
  induction n with
  | zero => simp
  | succ n ih =>
      have hne : m * 2 ^ n ≠ 0 := by positivity
      rw [pow_succ, ← mul_assoc, mul_comm _ 2, Nat.log2_two_mul hne, ih, Nat.add_assoc]

theorem shiftToTargetExponent_shifted (hpos : 0 < m)
    (htarget : Format.binary64.targetExponent (totalExponent m e) = e) (n : Nat) :
    shiftToTargetExponent Format.binary64 (m * 2 ^ n) (e - n) .exact = (⟨m, false, false⟩, e) := by
  have htotal : totalExponent (m * 2 ^ n) (e - n) = totalExponent m e := by
    unfold totalExponent
    rw [log2_mul_two_pow hpos]
    push_cast
    ring
  have hshift : (e - (e - (n : Int))).toNat = n := by omega
  unfold shiftToTargetExponent shiftToExponent
  simp only [htotal, htarget, hshift, ExtendedMantissa.ofMantissaAndAccuracy]
  refine Prod.ext (repeat_shiftRightOne m n) ?_
  simp

/-- Rounding a number in canonical form, written with `n` more bits, gives it
back. -/
theorem roundWithAccuracy_shifted (sign : Sign) (hpos : 0 < m)
    (htarget : Format.binary64.targetExponent (totalExponent m e) = e) (n : Nat) :
    roundWithAccuracy Format.binary64 sign (m * 2 ^ n) (e - n) .exact = .finite sign m e hpos := by
  have hfirst := shiftToTargetExponent_shifted hpos htarget n
  have hsecond := shiftToTargetExponent_shifted hpos htarget 0
  simp only [Nat.pow_zero, Nat.mul_one, Nat.cast_zero, Int.sub_zero] at hsecond
  have hrounded : shiftToTargetExponent Format.binary64
      (⟨m, false, false⟩ : ExtendedMantissa).roundedMantissa e .exact = _ := hsecond
  unfold roundWithAccuracy
  rw [hfirst]
  dsimp only
  rw [hrounded]
  exact dif_neg (Nat.pos_iff_ne_zero.mp hpos)

end Round

section Scientific

variable {ev : BitVec 11} {mv : BitVec 52} {m : Nat} {e : Int}

theorem targetExponent_mono {a b : Int} (h : a ≤ b) :
    Format.binary64.targetExponent a ≤ Format.binary64.targetExponent b := by
  unfold Format.targetExponent
  omega

theorem log2_mul_le {a b : Nat} (ha : 0 < a) (hb : 0 < b) :
    (a * b).log2 ≤ a.log2 + b.log2 + 1 := by
  have hab : a * b ≠ 0 := by positivity
  have h₁ : a < 2 ^ (a.log2 + 1) := Nat.lt_log2_self
  have h₂ : b < 2 ^ (b.log2 + 1) := Nat.lt_log2_self
  have hlt : a * b < 2 ^ (a.log2 + b.log2 + 2) := by
    calc a * b < 2 ^ (a.log2 + 1) * 2 ^ (b.log2 + 1) :=
          Nat.mul_lt_mul_of_lt_of_lt h₁ h₂
      _ = 2 ^ (a.log2 + b.log2 + 2) := by ring
  have := (Nat.log2_lt hab).mpr hlt
  omega

theorem mul_finite {s s' : Sign} {a b : Nat} {x y : Int} (ha : 0 < a) (hb : 0 < b) :
    UnpackedFloat.mul Format.binary64 (.finite s a x ha) (.finite s' b y hb) =
      roundWithAccuracy Format.binary64 (s * s') (a * b) (x + y) .exact := rfl

theorem ofScientific_whole (hpos : 0 < m)
    (htarget : Format.binary64.targetExponent (totalExponent m e) = e) (he : 0 ≤ e) :
    UnpackedFloat.ofScientific Format.binary64 (m * 2 ^ e.toNat) 0 =
      .finite .positive m e hpos := by
  have hne : m * 2 ^ e.toNat ≠ 0 := by positivity
  have hbits : Format.binary64.mantissaBits = 53 := by decide
  have hshape : (m * 2 ^ e.toNat) <<< 53 * 10 ^ (0 : Int).toNat = m * 2 ^ (e.toNat + 53) := by
    rw [Nat.shiftLeft_eq]
    ring_nf
    simp
  have hexp : -((53 : Nat) : Int) + 0 = e - ((e.toNat + 53 : Nat) : Int) := by
    push_cast
    omega
  have htwo : ((2 : Int) ^ Format.binary64.exponentBits) = 2048 := by decide
  unfold UnpackedFloat.ofScientific
  rw [htwo, dif_neg hne, if_neg (by omega), if_neg (by omega), if_pos (le_refl _)]
  rw [mul_finite, hbits, hshape, hexp]
  exact roundWithAccuracy_shifted _ hpos htarget _

theorem div_finite {s s' : Sign} {a b q : Nat} {x y z : Int} {ha : 0 < a} {hb : 0 < b}
    {accuracy : Accuracy} (hcore : divCore Format.binary64 a x b y = (q, z, accuracy)) :
    UnpackedFloat.div Format.binary64 (.finite s a x ha) (.finite s' b y hb) =
      roundWithAccuracy Format.binary64 (s / s') q z accuracy := by
  show (match divCore Format.binary64 a x b y with
    | (m, e, accuracy) => roundWithAccuracy Format.binary64 (s / s') m e accuracy) = _
  rw [hcore]

theorem ofScientific_fraction (hpos : 0 < m)
    (htarget : Format.binary64.targetExponent (totalExponent m e) = e)
    (he : e < 0) (hlow : -1074 ≤ e) :
    UnpackedFloat.ofScientific Format.binary64 (m * 5 ^ (-e).toNat) e =
      .finite .positive m e hpos := by
  obtain ⟨k, rfl⟩ : ∃ k : Nat, e = -k := ⟨(-e).toNat, by omega⟩
  have hk : (- -(k : Int)).toNat = k := by omega
  rw [hk]
  have hne : m * 5 ^ k ≠ 0 := by positivity
  have hten : (10 ^ k).log2 = (5 ^ k).log2 + k := by
    rw [show (10 : Nat) ^ k = 5 ^ k * 2 ^ k by rw [← mul_pow]; rfl]
    exact log2_mul_two_pow (by positivity) k
  have hlog : (m * 5 ^ k).log2 ≤ m.log2 + (5 ^ k).log2 + 1 :=
    log2_mul_le hpos (by positivity)
  set target : Int := min (0 - 0) (Format.binary64.targetExponent
    (totalExponent (m * 5 ^ k) 0 - totalExponent (10 ^ k) 0)) with htgt
  have hle : target ≤ -k := by
    have hmono := targetExponent_mono (a := totalExponent (m * 5 ^ k) 0 -
      totalExponent (10 ^ k) 0) (b := totalExponent m (-k)) (by
        unfold totalExponent
        rw [hten]
        push_cast
        omega)
    rw [htarget] at hmono
    omega
  obtain ⟨j, hj⟩ : ∃ j : Nat, target = -(k : Int) - j := ⟨(-(k : Int) - target).toNat, by omega⟩
  have hshift : (0 - 0 - target).toNat = k + j := by omega
  have hnum : (m * 5 ^ k) <<< (k + j) = m * 2 ^ j * 10 ^ k := by
    rw [Nat.shiftLeft_eq, show (10 : Nat) = 5 * 2 by rfl, mul_pow]
    ring
  have hcore : divCore Format.binary64 (m * 5 ^ k) 0 (10 ^ (- -(k : Int)).toNat) 0 =
      (m * 2 ^ j, -(k : Int) - j, .exact) := by
    rw [hk]
    unfold divCore
    simp only [← htgt, hshift, hnum]
    rw [Nat.mul_div_cancel _ (by positivity), Nat.mul_mod_left, hj]
    rfl
  have htwo : ((2 : Int) ^ Format.binary64.exponentBits) = 2048 := by decide
  unfold UnpackedFloat.ofScientific
  rw [htwo, dif_neg hne, if_neg (by omega), if_neg (by omega), if_neg (by omega)]
  rw [div_finite hcore]
  exact roundWithAccuracy_shifted _ hpos htarget j

theorem ofScientific_natCast {d j : Nat} (hpos : 0 < d) (hj : j ≤ 2048) :
    UnpackedFloat.ofScientific Format.binary64 d j =
      roundWithAccuracy Format.binary64 .positive (d <<< 53 * 10 ^ j) (-53) .exact := by
  have htwo : ((2 : Int) ^ Format.binary64.exponentBits) = 2048 := by decide
  have hbits : Format.binary64.mantissaBits = 53 := by decide
  unfold UnpackedFloat.ofScientific
  rw [htwo, dif_neg (Nat.pos_iff_ne_zero.mp hpos), if_neg (by omega), if_neg (by omega),
    if_pos (by omega)]
  rw [mul_finite, hbits, Int.toNat_natCast, Int.add_zero]
  rfl

theorem ofScientific_mul_pow {d j : Nat} (hpos : 0 < d) (hj : j ≤ 2048) :
    UnpackedFloat.ofScientific Format.binary64 (d * 10 ^ j) 0 =
      UnpackedFloat.ofScientific Format.binary64 d j := by
  have hshape : (d * 10 ^ j) <<< 53 * 10 ^ 0 = d <<< 53 * 10 ^ j := by
    rw [Nat.shiftLeft_eq, Nat.shiftLeft_eq]
    ring
  have hzero := ofScientific_natCast (d := d * 10 ^ j) (j := 0) (by positivity) (by omega)
  rw [Nat.cast_zero, hshape] at hzero
  rw [hzero, ofScientific_natCast hpos hj]

end Scientific

section Double

theorem ofModel_pack_unpack (x : Float) : Float.ofModel (Float.Model.pack x.toModel.unpack) = x := by
  rw [pack_unpack]

/-- The parts of a finite double other than a zero. -/
structure IsFinite (x : Float) (sign : Sign) (m : Nat) (e : Int) : Prop where
  pos : 0 < m
  unpack : x.toModel.unpack = .finite sign m e pos
  parts : ∃ ev mv, Parts ev mv m e

theorem zero_or_finite {x : Float} (h : x.isFinite = true) :
    (∃ sign, x.toModel.unpack = .zero sign) ∨ ∃ sign m e, IsFinite x sign m e := by
  have hu : x.toModel.unpack.isFinite = true := h
  rcases unpack_parts x.toModel.toBits.toBitVec with
    ⟨-, -, hx⟩ | ⟨-, -, hx⟩ | ⟨-, -, hx⟩ | ⟨m, e, hpos, hparts, hx⟩
  · have : x.toModel.unpack = _ := hx
    rw [this] at hu
    cases hu
  · have : x.toModel.unpack = _ := hx
    rw [this] at hu
    cases hu
  · exact Or.inl ⟨_, hx⟩
  · exact Or.inr ⟨_, m, e, hpos, hx, _, _, hparts⟩

variable {x y : Float} {sign : Sign} {m : Nat} {e : Int}

theorem IsFinite.target (h : IsFinite x sign m e) :
    Format.binary64.targetExponent (totalExponent m e) = e := by
  obtain ⟨ev, mv, hparts⟩ := h.parts
  exact hparts.targetExponent

theorem IsFinite.exponent_ge (h : IsFinite x sign m e) : -1074 ≤ e := by
  obtain ⟨ev, mv, hparts⟩ := h.parts
  exact hparts.exponent_ge

theorem IsFinite.neg (h : IsFinite x sign m e) : IsFinite (-x) (-sign) m e := by
  obtain ⟨ev, mv, hparts⟩ := h.parts
  refine ⟨h.pos, ?_, h.parts⟩
  have hneg : (-x).toModel.unpack = (Float.Model.pack x.toModel.unpack.neg).unpack := rfl
  rw [hneg, h.unpack]
  exact hparts.unpack_pack (-sign) h.pos

theorem IsFinite.eq (h : IsFinite x sign m e) :
    Float.ofModel (Float.Model.pack (.finite sign m e h.pos)) = x := by
  rw [← h.unpack]
  exact ofModel_pack_unpack x

theorem IsFinite.neg_neg (h : IsFinite x sign m e) : - -x = x := by
  have htwice := h.neg.neg.eq
  cases sign with
  | positive => exact htwice.symm.trans h.eq
  | negative => exact htwice.symm.trans h.eq

theorem le_self (h : x.isFinite = true) : x ≤ x := by
  have hle : x.toModel.unpack.le x.toModel.unpack = true := by
    rcases zero_or_finite h with ⟨sign, hx⟩ | ⟨sign, m, e, hx⟩
    · rw [hx]
      rfl
    · rw [hx.unpack]
      have hequal : (compare e e).then (compare m m) = .eq := by simp
      cases sign with
      | positive => exact congrArg Ordering.isLE hequal
      | negative => exact congrArg (fun order => order.swap.isLE) hequal
  have hmodel : x.toModel ≤ x.toModel := hle
  exact decide_eq_true hmodel

theorem swap_then_compare (e e' : Int) (m m' : Nat) :
    ((compare e e').then (compare m m')).swap = (compare e' e).then (compare m' m) := by
  rw [Ordering.swap_then, ← Std.OrientedOrd.eq_swap, ← Std.OrientedOrd.eq_swap]

theorem compare_swap (a b : UnpackedFloat) :
    b.compare a = (a.compare b).map Ordering.swap := by
  cases a with
  | notANumber =>
      cases b with
      | infinity t => cases t <;> rfl
      | finite t => cases t <;> rfl
      | _ => rfl
  | infinity s =>
      cases b with
      | infinity t => cases s <;> cases t <;> rfl
      | finite t => cases s <;> cases t <;> rfl
      | _ => cases s <;> rfl
  | zero s =>
      cases b with
      | infinity t => cases t <;> rfl
      | finite t m e hpos => cases t <;> rfl
      | _ => rfl
  | finite s m e hpos =>
      cases b with
      | finite t m' e' hpos' =>
          have hswap := swap_then_compare e e' m m'
          cases s <;> cases t
          · exact congrArg (fun order => some order.swap) hswap.symm
          · rfl
          · rfl
          · exact congrArg some hswap.symm
      | infinity t => cases s <;> cases t <;> rfl
      | _ => cases s <;> rfl

theorem not_le_of_lt (h : x < y) : ¬ y ≤ x := by
  have hlt : x.toModel.unpack.lt y.toModel.unpack = true := of_decide_eq_true h
  intro hle
  have hge : y.toModel.unpack.le x.toModel.unpack = true := of_decide_eq_true hle
  unfold UnpackedFloat.le at hge
  rw [compare_swap, eq_of_beq hlt] at hge
  cases hge

theorem compare_isSome (hx : x.isFinite = true) (hy : y.isFinite = true) :
    ∃ order, x.toModel.unpack.compare y.toModel.unpack = some order := by
  rcases zero_or_finite hx with ⟨sign, hx⟩ | ⟨sign, m, e, hx⟩
  · rcases zero_or_finite hy with ⟨sign', hy⟩ | ⟨sign', m', e', hy⟩
    · rw [hx, hy]
      exact ⟨_, rfl⟩
    · rw [hx, hy.unpack]
      cases sign' <;> exact ⟨_, rfl⟩
  · rcases zero_or_finite hy with ⟨sign', hy⟩ | ⟨sign', m', e', hy⟩
    · rw [hx.unpack, hy]
      cases sign <;> exact ⟨_, rfl⟩
    · rw [hx.unpack, hy.unpack]
      cases sign <;> cases sign' <;> exact ⟨_, rfl⟩

theorem lt_of_not_le (hx : x.isFinite = true) (hy : y.isFinite = true) (h : ¬ y ≤ x) :
    x < y := by
  have hnot : ¬ y.toModel.unpack.le x.toModel.unpack = true :=
    fun hle => h (decide_eq_true (p := y.toModel ≤ x.toModel) hle)
  have hlt : x.toModel.unpack.lt y.toModel.unpack = true := by
    unfold UnpackedFloat.le at hnot
    rw [compare_swap] at hnot
    unfold UnpackedFloat.lt
    obtain ⟨order, horder⟩ := compare_isSome hx hy
    rw [horder] at hnot ⊢
    cases order with
    | lt => rfl
    | eq => exact absurd rfl hnot
    | gt => exact absurd rfl hnot
  exact decide_eq_true (p := x.toModel < y.toModel) hlt

theorem sub_unpacked (spec : Format) (a b : UnpackedFloat) :
    a.sub spec b = a.add spec b.neg := by
  cases a with
  | notANumber => cases b <;> rfl
  | infinity s => cases b <;> rfl
  | zero s => cases b <;> rfl
  | finite s m e hpos =>
      cases b with
      | finite t m' e' hpos' =>
          have hsign : ∀ n : Nat, (-t).apply n = -t.apply n := by
            intro n
            cases t
            · exact (Int.neg_neg _).symm
            · rfl
          have hsum : ∀ n n' : Nat, s.apply n - t.apply n' = s.apply n + (-t).apply n' := by
            intro n n'
            rw [hsign, Int.sub_eq_add_neg]
          exact congrArg (fun mantissa => normalize spec mantissa (min e e') .positive)
            (hsum (decreaseExponent m e (min e e')).1 (decreaseExponent m' e' (min e e')).1)
      | _ => rfl

theorem unpack_neg (h : x.isFinite = true) : (-x).toModel.unpack = x.toModel.unpack.neg := by
  rcases zero_or_finite h with ⟨sign, hx⟩ | ⟨sign, m, e, hx⟩
  · have hneg : (-x).toModel.unpack = (Float.Model.pack x.toModel.unpack.neg).unpack := rfl
    rw [hneg, hx]
    cases sign <;> rfl
  · rw [hx.neg.unpack, hx.unpack]
    rfl

theorem sub_eq_add_neg (x : Float) (h : y.isFinite = true) : x - y = x + -y := by
  have hmodel : x.toModel - y.toModel = x.toModel + (-y).toModel := by
    show Float.Model.pack _ = Float.Model.pack _
    rw [sub_unpacked, unpack_neg h]
  exact congrArg Float.ofModel hmodel

end Double

end Binary64
end Library
