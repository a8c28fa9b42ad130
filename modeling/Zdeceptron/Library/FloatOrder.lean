import Mathlib.Data.Prod.Lex
import Mathlib.Order.Lattice.Nat
import Mathlib.Data.Nat.Log
import Zdeceptron.Library.Decimal

/-!
# The order of finite doubles
-/

namespace Library
namespace Binary64

open Float.Model Float.Model.UnpackedFloat

section Rank

/-- The place of a finite number in the order. -/
def unpackedRank : UnpackedFloat → ℤ ×ₗ ℤ ×ₗ ℤ
  | .finite .positive m e _ => toLex (1, toLex (e, (m : ℤ)))
  | .finite .negative m e _ => toLex (-1, toLex (-e, -(m : ℤ)))
  | _ => toLex (0, toLex (0, 0))

def rank (x : Float) : ℤ ×ₗ ℤ ×ₗ ℤ := unpackedRank x.toModel.unpack

theorem isLE_then_compare (e e' : ℤ) (m m' : ℕ) :
    ((compare e e').then (compare m m')).isLE = true ↔
      toLex (e, (m : ℤ)) ≤ toLex (e', (m' : ℤ)) := by
  rw [Prod.Lex.toLex_le_toLex]
  rcases lt_trichotomy e e' with h | rfl | h
  · rw [compare_lt_iff_lt.mpr h]
    simp [h]
  · rw [compare_eq_iff_eq.mpr rfl, Ordering.eq_then, Nat.isLE_compare]
    simp
  · rw [compare_gt_iff_gt.mpr h]
    have h' : ¬ e < e' := not_lt.mpr (le_of_lt h)
    have h'' : e ≠ e' := ne_of_gt h
    simp [h', h'']

theorem isLE_swap_then_compare (e e' : ℤ) (m m' : ℕ) :
    ((compare e e').then (compare m m')).swap.isLE = true ↔
      toLex (-e, -(m : ℤ)) ≤ toLex (-e', -(m' : ℤ)) := by
  rw [swap_then_compare, isLE_then_compare, Prod.Lex.toLex_le_toLex, Prod.Lex.toLex_le_toLex]
  omega

theorem toLex_le_of_lt {a b : ℤ} (h : a < b) (p q : ℤ ×ₗ ℤ) : toLex (a, p) ≤ toLex (b, q) :=
  Prod.Lex.toLex_le_toLex.mpr (.inl h)

theorem not_toLex_le_of_lt {a b : ℤ} (h : a < b) (p q : ℤ ×ₗ ℤ) :
    ¬toLex (b, p) ≤ toLex (a, q) := by
  rw [not_le]
  exact Prod.Lex.toLex_lt_toLex.mpr (.inl h)

theorem toLex_le_same (a : ℤ) (p q : ℤ ×ₗ ℤ) : toLex (a, p) ≤ toLex (a, q) ↔ p ≤ q := by
  rw [Prod.Lex.toLex_le_toLex]
  simp

theorem unpackedLe_iff {a b : UnpackedFloat} (ha : a.isFinite = true) (hb : b.isFinite = true) :
    a.le b = true ↔ unpackedRank a ≤ unpackedRank b := by
  cases a with
  | notANumber => cases ha
  | infinity sign => cases ha
  | zero sign =>
      cases b with
      | notANumber => cases hb
      | infinity sign => cases hb
      | zero sign' => exact iff_of_true rfl (le_refl _)
      | finite sign' m e hpos =>
          cases sign' with
          | positive => exact iff_of_true rfl (toLex_le_of_lt (by decide) _ _)
          | negative => exact iff_of_false Bool.false_ne_true (not_toLex_le_of_lt (by decide) _ _)
  | finite sign m e hpos =>
      cases b with
      | notANumber => cases hb
      | infinity sign => cases hb
      | zero sign' =>
          cases sign with
          | positive => exact iff_of_false Bool.false_ne_true (not_toLex_le_of_lt (by decide) _ _)
          | negative => exact iff_of_true rfl (toLex_le_of_lt (by decide) _ _)
      | finite sign' m' e' hpos' =>
          cases sign with
          | positive =>
              cases sign' with
              | positive => exact (isLE_then_compare e e' m m').trans (toLex_le_same 1 _ _).symm
              | negative =>
                  exact iff_of_false Bool.false_ne_true (not_toLex_le_of_lt (by decide) _ _)
          | negative =>
              cases sign' with
              | positive => exact iff_of_true rfl (toLex_le_of_lt (by decide) _ _)
              | negative =>
                  exact (isLE_swap_then_compare e e' m m').trans (toLex_le_same (-1) _ _).symm

variable {x y z : Float}

theorem le_iff_rank_le (hx : x.isFinite = true) (hy : y.isFinite = true) :
    x ≤ y ↔ rank x ≤ rank y := by
  have hle : x ≤ y ↔ x.toModel.unpack.le y.toModel.unpack = true :=
    ⟨fun h => of_decide_eq_true h, fun h => decide_eq_true (p := x.toModel ≤ y.toModel) h⟩
  exact hle.trans (unpackedLe_iff hx hy)

theorem le_trans_of_finite (hx : x.isFinite = true) (hy : y.isFinite = true)
    (hz : z.isFinite = true) (hxy : x ≤ y) (hyz : y ≤ z) : x ≤ z :=
  (le_iff_rank_le hx hz).mpr
    (le_trans ((le_iff_rank_le hx hy).mp hxy) ((le_iff_rank_le hy hz).mp hyz))

theorem lt_iff_rank_lt (hx : x.isFinite = true) (hy : y.isFinite = true) :
    x < y ↔ rank x < rank y := by
  rw [← not_le, ← le_iff_rank_le hy hx]
  exact ⟨not_le_of_lt, lt_of_not_le hx hy⟩

end Rank

section Whole

variable {m n : Nat}

/-- The double of a whole number, as a numeral of its digits is read. -/
def whole (n : Nat) : Float := ofDecimal ⟨n, 0⟩

theorem log2_scaled (hpos : 0 < n) (hn : n < 2 ^ 53) :
    2 ^ 52 ≤ n * 2 ^ (52 - n.log2) ∧ n * 2 ^ (52 - n.log2) < 2 ^ 53 := by
  have hlog : n.log2 ≤ 52 := by
    have := (Nat.log2_lt (Nat.pos_iff_ne_zero.mp hpos)).mpr hn
    omega
  have hlow : 2 ^ n.log2 ≤ n := Nat.log2_self_le (Nat.pos_iff_ne_zero.mp hpos)
  have hhigh : n < 2 ^ (n.log2 + 1) := Nat.lt_log2_self
  have hsplit : ∀ k, 2 ^ (n.log2 + k) * 2 ^ (52 - n.log2) = 2 ^ (52 + k) := by
    intro k
    rw [← pow_add]
    congr 1
    omega
  constructor
  · calc 2 ^ 52 = 2 ^ n.log2 * 2 ^ (52 - n.log2) := (hsplit 0).symm
      _ ≤ n * 2 ^ (52 - n.log2) := Nat.mul_le_mul_right _ hlow
  · calc n * 2 ^ (52 - n.log2) < 2 ^ (n.log2 + 1) * 2 ^ (52 - n.log2) :=
          Nat.mul_lt_mul_of_pos_right hhigh (by positivity)
      _ = 2 ^ 53 := hsplit 1

theorem parts_scaled (hpos : 0 < n) (hn : n < 2 ^ 53) :
    Parts (BitVec.ofNat 11 (n.log2 + 1023)) (BitVec.ofNat 52 (n * 2 ^ (52 - n.log2) - 2 ^ 52))
      (n * 2 ^ (52 - n.log2)) ((n.log2 : Int) - 52) := by
  obtain ⟨hlow, hhigh⟩ := log2_scaled hpos hn
  have hlog : n.log2 ≤ 52 := by
    have := (Nat.log2_lt (Nat.pos_iff_ne_zero.mp hpos)).mpr hn
    omega
  have hev : (BitVec.ofNat 11 (n.log2 + 1023)).toNat = n.log2 + 1023 := by
    rw [BitVec.toNat_ofNat, Nat.mod_eq_of_lt (by omega)]
  have hmv : (BitVec.ofNat 52 (n * 2 ^ (52 - n.log2) - 2 ^ 52)).toNat =
      n * 2 ^ (52 - n.log2) - 2 ^ 52 := by
    rw [BitVec.toNat_ofNat, Nat.mod_eq_of_lt (by omega)]
  have hparts := @Parts.normal (BitVec.ofNat 11 (n.log2 + 1023))
    (BitVec.ofNat 52 (n * 2 ^ (52 - n.log2) - 2 ^ 52))
    (fun h => by
      have := congrArg BitVec.toNat h
      rw [hev] at this
      simp at this
      omega)
    (fun h => by
      have := congrArg BitVec.toNat h
      rw [hev] at this
      simp at this)
  rw [hmv, hev] at hparts
  have hm : 2 ^ 52 + (n * 2 ^ (52 - n.log2) - 2 ^ 52) = n * 2 ^ (52 - n.log2) := by omega
  have he : ((n.log2 + 1023 : Nat) : Int) - 1075 = (n.log2 : Int) - 52 := by omega
  rwa [hm, he] at hparts

theorem unpack_whole (hpos : 0 < n) (hn : n < 2 ^ 53) :
    ∃ hm, (whole n).toModel.unpack =
      .finite .positive (n * 2 ^ (52 - n.log2)) ((n.log2 : Int) - 52) hm := by
  have hparts := parts_scaled hpos hn
  have hm : 0 < n * 2 ^ (52 - n.log2) := by positivity
  have hlog : n.log2 ≤ 52 := by
    have := (Nat.log2_lt (Nat.pos_iff_ne_zero.mp hpos)).mpr hn
    omega
  have hshift : n <<< 53 * 10 ^ 0 = n * 2 ^ (52 - n.log2) * 2 ^ (n.log2 + 1) := by
    rw [Nat.shiftLeft_eq, pow_zero, Nat.mul_one, Nat.mul_assoc, ← pow_add]
    congr 2
    omega
  have hexp : (-53 : Int) = (n.log2 : Int) - 52 - ((n.log2 + 1 : Nat) : Int) := by
    push_cast
    omega
  have hround : UnpackedFloat.ofScientific Format.binary64 n 0 =
      .finite .positive (n * 2 ^ (52 - n.log2)) ((n.log2 : Int) - 52) hm := by
    have h := ofScientific_natCast (d := n) (j := 0) hpos (by omega)
    rw [Nat.cast_zero, hshift, hexp] at h
    rw [h]
    exact roundWithAccuracy_shifted _ hm hparts.targetExponent _
  refine ⟨hm, ?_⟩
  have hpack : (whole n).toModel.unpack = UnpackedFloat.unpack Format.binary64
      (UnpackedFloat.pack Format.binary64 (UnpackedFloat.ofScientific Format.binary64 n 0)) := rfl
  rw [hpack, hround]
  exact hparts.unpack_pack .positive hm

theorem isFinite_whole (hn : n < 2 ^ 53) : (whole n).isFinite = true := by
  rcases Nat.eq_zero_or_pos n with rfl | hpos
  · decide +kernel
  · obtain ⟨hm, h⟩ := unpack_whole hpos hn
    have : (whole n).isFinite = (whole n).toModel.unpack.isFinite := rfl
    rw [this, h]
    rfl

theorem rank_whole (hpos : 0 < n) (hn : n < 2 ^ 53) :
    rank (whole n) =
      toLex (1, toLex ((n.log2 : ℤ) - 52, ((n * 2 ^ (52 - n.log2) : ℕ) : ℤ))) := by
  obtain ⟨hm, h⟩ := unpack_whole hpos hn
  unfold rank
  rw [h]
  rfl

theorem rank_whole_lt (hmn : m < n) (hn : n < 2 ^ 53) : rank (whole m) < rank (whole n) := by
  rw [rank_whole (by omega) hn]
  rcases Nat.eq_zero_or_pos m with rfl | hpos
  · rw [show rank (whole 0) = toLex (0, toLex (0, 0)) by decide +kernel,
      Prod.Lex.toLex_lt_toLex]
    exact .inl Int.zero_lt_one
  · rw [rank_whole hpos (by omega), Prod.Lex.toLex_lt_toLex]
    refine .inr ⟨rfl, Prod.Lex.toLex_lt_toLex.mpr ?_⟩
    have hle : m.log2 ≤ n.log2 := by
      rw [Nat.log2_eq_log_two, Nat.log2_eq_log_two]
      exact Nat.log_mono_right (Nat.le_of_lt hmn)
    rcases Nat.lt_or_eq_of_le hle with hlt | heq
    · exact .inl (by simp only; omega)
    · refine .inr ⟨by simp only [heq], ?_⟩
      simp only [heq]
      exact mod_cast Nat.mul_lt_mul_of_pos_right hmn (by positivity)

theorem whole_le_iff (hm : m < 2 ^ 53) (hn : n < 2 ^ 53) : whole m ≤ whole n ↔ m ≤ n := by
  rw [le_iff_rank_le (isFinite_whole hm) (isFinite_whole hn)]
  refine ⟨fun h => not_lt.mp fun hlt => absurd (rank_whole_lt hlt hm) (not_lt.mpr h), ?_⟩
  intro h
  rcases Nat.lt_or_eq_of_le h with hlt | rfl
  · exact le_of_lt (rank_whole_lt hlt hn)
  · exact le_refl _

end Whole

end Binary64
end Library
