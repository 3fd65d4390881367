import ActorScript.Number.Exact
import Mathlib.Algebra.Group.Nat.Defs

/-!
# The arithmetic of budgets

A budget is a binary64 number, and what a run does with it is to compare and to
subtract.  This module says what these two do, by the words: for finite numbers
that are not below zero (`IsAmount`) they are comparison and rounded subtraction
of natural numbers, counted in units of the least positive number.

`Float` takes a word apart into a significand and an exponent, works on these,
and puts the outcome together again.  `view` is the first half of this, and
`unpack_of_word` with `toNat_pack` say that the second half undoes it.

## Main results

* `lt_iff`, `le_iff` — amounts compare as their units.
* `exists_round` — a rounding gives a canonical significand and exponent, and
  `Rounds` holds between the units before and after it.
* `sub_amount` — taking an amount off one that is no less gives an amount, and
  its units are the rounded difference.
* `amount_of_pos` — what is above zero is an amount or infinite.
-/

namespace ActorScript.Number

open Float.Model (UnpackedFloat Format)
open Float.Model.UnpackedFloat

/-! ## Words -/

private theorem toNat_packComponents (s : Sign) (ev : BitVec 11) (mv : BitVec 52) :
    (packComponents .binary64 s ev mv).toNat =
      s.toBitVec.toNat * 2 ^ 63 + ev.toNat * 2 ^ 52 + mv.toNat := by
  have hev : ev.toNat < 2 ^ 11 := ev.isLt
  have hmv : mv.toNat < 2 ^ 52 := mv.isLt
  unfold packComponents
  rw [BitVec.toNat_append, BitVec.toNat_append,
    ← Nat.shiftLeft_add_eq_or_of_lt hev, ← Nat.shiftLeft_add_eq_or_of_lt hmv,
    Nat.shiftLeft_eq, Nat.shiftLeft_eq]
  show (_ * 2 ^ 11 + _) * 2 ^ 52 + _ = _
  omega

private theorem toNat_unpackMantissa (b : BitVec 64) :
    (@unpackMantissa .binary64 b).toNat = b.toNat % 2 ^ 52 := by
  simp [unpackMantissa, BitVec.extractLsb]

private theorem toNat_unpackExponent (b : BitVec 64) :
    (@unpackExponent .binary64 b).toNat = b.toNat / 2 ^ 52 % 2 ^ 11 := by
  simp [unpackExponent, BitVec.extractLsb, Nat.shiftRight_eq_div_pow]

private theorem toNat_unpackSign (b : BitVec 64) :
    (@unpackSign .binary64 b).toNat = b.toNat / 2 ^ 63 % 2 := by
  delta unpackSign
  simp [BitVec.extractLsb, Nat.shiftRight_eq_div_pow]

/-- A significand and an exponent as a finite word has them. -/
structure Canonical (m : Nat) (e : Int) : Prop where
  pos : 0 < m
  lt : m < 2 ^ 53
  low : -1074 ≤ e
  high : e ≤ 971
  full : 2 ^ 52 ≤ m ∨ e = -1074

/-- The word of a finite number; a significand without the hidden bit has the
lowest exponent, so that one formula does for all. -/
def wordOf (s : Sign) (m : Nat) (e : Int) : Nat :=
  s.toBitVec.toNat * 2 ^ 63 + (e + 1074).toNat * 2 ^ 52 + m

private theorem toNat_sign_le (s : Sign) : s.toBitVec.toNat ≤ 1 := by
  cases s <;> decide

private theorem unpackSign_eq {b : BitVec 64} {s : Sign}
    (h : b.toNat / 2 ^ 63 % 2 = s.toBitVec.toNat) :
    Sign.ofBitVec (@unpackSign .binary64 b) = s := by
  have hs : @unpackSign .binary64 b = s.toBitVec :=
    BitVec.eq_of_toNat_eq ((toNat_unpackSign b).trans h)
  rw [hs]
  cases s <;> rfl

private theorem finite_congr {s s' : Sign} {m m' : Nat} {e e' : Int} {h : 0 < m}
    {h' : 0 < m'} (hs : s = s') (hm : m = m') (he : e = e') :
    UnpackedFloat.finite s m e h = .finite s' m' e' h' := by
  subst hs hm he
  rfl

theorem unpack_of_word {b : BitVec 64} {s : Sign} {m : Nat} {e : Int}
    (hc : Canonical m e) (hb : b.toNat = wordOf s m e) :
    unpack .binary64 b = .finite s m e hc.pos := by
  obtain ⟨hpos, hlt, hlow, hhigh, hfull⟩ := hc
  have hs := toNat_sign_le s
  have hsign : Sign.ofBitVec (@unpackSign .binary64 b) = s := by
    refine unpackSign_eq ?_
    rw [hb, wordOf]
    omega
  have hE : (@unpackExponent .binary64 b).toNat =
      ((e + 1074).toNat * 2 ^ 52 + m) / 2 ^ 52 := by
    rw [toNat_unpackExponent, hb, wordOf]
    omega
  have hM : (@unpackMantissa .binary64 b).toNat = m % 2 ^ 52 := by
    rw [toNat_unpackMantissa, hb, wordOf]
    omega
  have hbias : ((Format.binary64.exponentBias : Nat) : Int) = 1023 := rfl
  have hones : ¬ @unpackExponent .binary64 b = -1#_ := by
    intro h
    have h' : (@unpackExponent .binary64 b).toNat = 2047 := congrArg BitVec.toNat h
    omega
  delta UnpackedFloat.unpack
  dsimp only
  rw [if_neg hones, hbias]
  by_cases hn : 2 ^ 52 ≤ m
  · have hzero : ¬ @unpackExponent .binary64 b = 0#_ := by
      intro h
      have h' : (@unpackExponent .binary64 b).toNat = 0 := congrArg BitVec.toNat h
      omega
    rw [if_neg hzero]
    have hmant : (1#1 ++ @unpackMantissa .binary64 b).toNat = m := by
      rw [BitVec.toNat_append, ← Nat.shiftLeft_add_eq_or_of_lt (BitVec.isLt _), hM,
        Nat.shiftLeft_eq]
      show 1 * 2 ^ 52 + _ = m
      omega
    have hexp : (((@unpackExponent .binary64 b).toNat : Int) - (1023 + (52 : Nat))) =
        e := by
      rw [hE]
      omega
    exact finite_congr hsign hmant hexp
  · have hzero : @unpackExponent .binary64 b = 0#_ := by
      refine BitVec.eq_of_toNat_eq ?_
      rw [hE]
      show _ = 0
      omega
    have hmz : ¬ @unpackMantissa .binary64 b = 0#_ := by
      intro h
      have h' : (@unpackMantissa .binary64 b).toNat = 0 := congrArg BitVec.toNat h
      omega
    rw [if_pos hzero, dif_neg hmz]
    have hexp : (((@unpackExponent .binary64 b).toNat : Int) - (1023 + (52 : Nat)) + 1) =
        e := by
      rw [hE]
      omega
    have hmant : (@unpackMantissa .binary64 b).toNat = m := by omega
    exact finite_congr hsign hmant hexp

theorem toNat_pack {s : Sign} {m : Nat} {e : Int} (hc : Canonical m e) :
    (pack .binary64 (.finite s m e hc.pos)).toNat = wordOf s m e := by
  obtain ⟨hpos, hlt, hlow, hhigh, hfull⟩ := hc
  have hbias : (e + (Format.binary64.exponentBias : Nat) + ((52 : Nat) : Int)).toNat =
      (e + 1075).toNat := by
    show (e + ((2 ^ (11 - 1) - 1 : Nat) : Int) + ((52 : Nat) : Int)).toNat = _
    omega
  have hover : ¬ 2 ^ 11 ≤ (e + 1075).toNat + 1 := by omega
  delta UnpackedFloat.pack
  simp only [hbias, if_neg hover]
  by_cases hn : 2 ^ 52 ≤ m
  · have hlog : m.log2 + 1 = Format.binary64.mantissaBits := by
      have h₁ : 52 ≤ m.log2 := (Nat.le_log2 (by omega)).mpr hn
      have h₂ : m.log2 < 53 := (Nat.log2_lt (by omega)).mpr hlt
      show m.log2 + 1 = 1 + 52
      omega
    rw [if_pos hlog, toNat_packComponents, BitVec.toNat_ofNat, BitVec.toNat_ofNat, wordOf]
    omega
  · have hlog : ¬ m.log2 + 1 = Format.binary64.mantissaBits := by
      have h₂ : m.log2 < 52 := (Nat.log2_lt (by omega)).mpr (by omega)
      show ¬ m.log2 + 1 = 1 + 52
      omega
    rw [if_neg hlog, toNat_packComponents, BitVec.toNat_ofNat, wordOf]
    show _ + 0 * _ + m % 2 ^ 52 = _
    omega

/-- A number as the arithmetic of `Float` takes it apart. -/
def view (a : Number) : UnpackedFloat := a.toFloat.toModel.unpack

theorem view_eq (a : Number) :
    a.view = unpack .binary64 (pack .binary64 (unpack .binary64 a.bits.toBitVec)) := rfl

theorem view_of_word {a : Number} {s : Sign} {m : Nat} {e : Int} (hc : Canonical m e)
    (ha : a.bits.toNat = wordOf s m e) : a.view = .finite s m e hc.pos := by
  rw [view_eq, unpack_of_word hc ha]
  exact unpack_of_word hc (toNat_pack hc)

/-! ## Amounts -/

/-- A finite number that is not below zero (and is not `-0`): its word is below
that of infinity. -/
def IsAmount (a : Number) : Prop := a.bits.toNat < infinityWord

/-- The number `m · 2 ^ e` in units of the least positive number. -/
def scaled (m : Nat) (e : Int) : Nat := m * 2 ^ (e + 1074).toNat

/-- An amount in units of the least positive number. -/
def units (a : Number) : Nat := scaled a.significand a.exponent

theorem ext_toNat {a b : Number} (h : a.bits.toNat = b.bits.toNat) : a = b := by
  cases a
  cases b
  exact congrArg _ (UInt64.toNat_inj.mp h)

section Amount

variable {a b : Number}

theorem IsAmount.word_eq (ha : a.IsAmount) :
    a.bits.toNat = wordOf .positive a.significand a.exponent := by
  unfold IsAmount infinityWord hiddenBit at ha
  unfold wordOf significand exponent exponentField fractionField hiddenBit
  show _ = 0 * _ + _ + _
  split <;> omega

theorem IsAmount.canonical (ha : a.IsAmount) (hne : a ≠ zero) :
    Canonical a.significand a.exponent := by
  have hw : a.bits.toNat ≠ 0 := fun h => hne (ext_toNat h)
  unfold IsAmount infinityWord hiddenBit at ha
  unfold significand exponent exponentField fractionField hiddenBit
  by_cases hE : a.bits.toNat / 0x10000000000000 % 2048 = 0
  · rw [if_pos hE]
    constructor <;> omega
  · rw [if_neg hE]
    constructor <;> omega

/-- A word and the units that it stands for. -/
theorem amount_of_word {m : Nat} {e : Int} (hc : Canonical m e)
    (ha : a.bits.toNat = wordOf .positive m e) : a.IsAmount ∧ a.units = scaled m e := by
  obtain ⟨hpos, hlt, hlow, hhigh, hfull⟩ := hc
  have hw : a.bits.toNat = (e + 1074).toNat * 2 ^ 52 + m := by
    rw [ha]
    show 0 * _ + _ + _ = _
    omega
  constructor
  · unfold IsAmount infinityWord hiddenBit
    omega
  · have hm : a.significand = m := by
      unfold significand exponentField fractionField hiddenBit
      split <;> omega
    have he : a.exponent = e := by
      unfold exponent exponentField hiddenBit
      omega
    rw [units, hm, he]

theorem isAmount_zero : zero.IsAmount := by
  unfold IsAmount
  decide

theorem units_zero : zero.units = 0 := by
  have h : zero.significand = 0 := by decide
  rw [units, h, scaled, Nat.zero_mul]

theorem view_zero : zero.view = .zero .positive := by rfl

theorem view_infinity : infinity.view = .infinity .positive := by rfl

theorem IsAmount.view_eq (ha : a.IsAmount) (hne : a ≠ zero) :
    a.view = .finite .positive a.significand a.exponent (ha.canonical hne).pos :=
  view_of_word (ha.canonical hne) ha.word_eq

theorem IsAmount.units_pos (ha : a.IsAmount) (hne : a ≠ zero) : 0 < a.units :=
  Nat.mul_pos (ha.canonical hne).pos (Nat.two_pow_pos _)

theorem two_pow_carry (k : Nat) : 2 ^ 52 * 2 ^ (k + 1) = 2 ^ 53 * 2 ^ k := by
  rw [Nat.pow_succ]
  omega

/-- The greater exponent makes the greater number. -/
theorem scaled_lt {m₁ m₂ : Nat} {e₁ e₂ : Int} (h₁ : m₁ < 2 ^ 53) (hlow : -1074 ≤ e₁)
    (h₂ : 2 ^ 52 ≤ m₂ ∨ e₂ = -1074) (he : e₁ < e₂) : scaled m₁ e₁ < scaled m₂ e₂ := by
  have hm₂ : 2 ^ 52 ≤ m₂ := by omega
  have hexp : (e₁ + 1074).toNat + 1 ≤ (e₂ + 1074).toNat := by omega
  calc m₁ * 2 ^ (e₁ + 1074).toNat
      < 2 ^ 53 * 2 ^ (e₁ + 1074).toNat :=
        Nat.mul_lt_mul_of_pos_right h₁ (Nat.two_pow_pos _)
    _ = 2 ^ 52 * 2 ^ ((e₁ + 1074).toNat + 1) := (two_pow_carry _).symm
    _ ≤ 2 ^ 52 * 2 ^ (e₂ + 1074).toNat :=
        Nat.mul_le_mul_left _ (Nat.pow_le_pow_right (by decide) hexp)
    _ ≤ m₂ * 2 ^ (e₂ + 1074).toNat := Nat.mul_le_mul_right _ hm₂

/-- Amounts compare as their units do. -/
theorem compare_view (ha : a.IsAmount) (hb : b.IsAmount) :
    UnpackedFloat.compare a.view b.view = some (compare a.units b.units) := by
  by_cases ha0 : a = zero
  · subst ha0
    by_cases hb0 : b = zero
    · subst hb0
      rw [units_zero, view_zero]
      rfl
    · rw [view_zero, hb.view_eq hb0, units_zero]
      exact congrArg some (Nat.compare_eq_lt.mpr (hb.units_pos hb0)).symm
  · by_cases hb0 : b = zero
    · subst hb0
      rw [view_zero, ha.view_eq ha0, units_zero]
      exact congrArg some (Nat.compare_eq_gt.mpr (ha.units_pos ha0)).symm
    · have hca := ha.canonical ha0
      have hcb := hb.canonical hb0
      rw [ha.view_eq ha0, hb.view_eq hb0]
      refine congrArg some ?_
      rcases Int.lt_trichotomy a.exponent b.exponent with he | he | he
      · rw [Int.compare_eq_lt.mpr he]
        exact (Nat.compare_eq_lt.mpr (scaled_lt hca.lt hca.low hcb.full he)).symm
      · rw [he, Int.compare_eq_eq.mpr rfl]
        show compare a.significand b.significand = _
        rw [units, units, he, scaled, scaled]
        rcases Nat.lt_trichotomy a.significand b.significand with hm | hm | hm
        · rw [Nat.compare_eq_lt.mpr hm, Nat.compare_eq_lt.mpr]
          exact Nat.mul_lt_mul_of_pos_right hm (Nat.two_pow_pos _)
        · rw [hm, Nat.compare_eq_eq.mpr rfl, Nat.compare_eq_eq.mpr rfl]
        · rw [Nat.compare_eq_gt.mpr hm, Nat.compare_eq_gt.mpr]
          exact Nat.mul_lt_mul_of_pos_right hm (Nat.two_pow_pos _)
      · rw [Int.compare_eq_gt.mpr he]
        exact (Nat.compare_eq_gt.mpr (scaled_lt hcb.lt hcb.low hca.full he)).symm

theorem lt_iff_view : a < b ↔ UnpackedFloat.compare a.view b.view = some .lt := by
  have h : a < b ↔ UnpackedFloat.lt a.view b.view = true := decide_eq_true_iff
  rw [h, UnpackedFloat.lt, beq_iff_eq]

theorem le_iff_view : a ≤ b ↔
    (UnpackedFloat.compare a.view b.view).any Ordering.isLE = true :=
  decide_eq_true_iff

theorem lt_iff (ha : a.IsAmount) (hb : b.IsAmount) : a < b ↔ a.units < b.units := by
  rw [lt_iff_view, compare_view ha hb, Option.some_inj, Nat.compare_eq_lt]

theorem le_iff (ha : a.IsAmount) (hb : b.IsAmount) : a ≤ b ↔ a.units ≤ b.units := by
  rw [le_iff_view, compare_view ha hb]
  exact Nat.isLE_compare

theorem IsAmount.eq_zero (ha : a.IsAmount) (h : a.units = 0) : a = zero := by
  by_cases h0 : a = zero
  · exact h0
  · have hpos := ha.units_pos h0
    omega

/-- An amount is determined by its units. -/
theorem IsAmount.eq_of_units (ha : a.IsAmount) (hb : b.IsAmount) (h : a.units = b.units) :
    a = b := by
  by_cases ha0 : a = zero
  · subst ha0
    rw [units_zero] at h
    exact (hb.eq_zero h.symm).symm
  · have hb0 : b ≠ zero := by
      rintro rfl
      rw [units_zero] at h
      exact ha0 (ha.eq_zero h)
    have hca := ha.canonical ha0
    have hcb := hb.canonical hb0
    rcases Int.lt_trichotomy a.exponent b.exponent with he | he | he
    · exact absurd h (Nat.ne_of_lt (scaled_lt hca.lt hca.low hcb.full he))
    · rw [units, units, he, scaled, scaled] at h
      have hm := Nat.eq_of_mul_eq_mul_right (Nat.two_pow_pos _) h
      exact ext_toNat (by rw [ha.word_eq, hb.word_eq, he, hm])
    · exact absurd h (Nat.ne_of_gt (scaled_lt hcb.lt hcb.low hca.full he))

end Amount

/-! ## Rounding -/

/-- `r` is `d` rounded to 53 binary digits, but not below the unit. -/
structure Rounds (d r : Nat) : Prop where
  dvd : 2 ^ (d.log2 - 52) ∣ r
  low : d / 2 ^ (d.log2 - 52) ≤ r / 2 ^ (d.log2 - 52)
  high : r / 2 ^ (d.log2 - 52) ≤ d / 2 ^ (d.log2 - 52) + 1
  exact : 2 ^ (d.log2 - 52) ∣ d → r = d

/-- An exact significand after shifts to the right. -/
private def shifted (m n : Nat) : ExtendedMantissa :=
  n.repeat ExtendedMantissa.shiftRightOne ⟨m, false, false⟩

private theorem shifted_succ (m n : Nat) :
    shifted m (n + 1) = (shifted m n).shiftRightOne := rfl

private theorem mantissa_shifted (m n : Nat) : (shifted m n).mantissa = m / 2 ^ n := by
  induction n with
  | zero => simp [shifted, Nat.repeat]
  | succ n ih =>
      rw [shifted_succ]
      show (shifted m n).mantissa / 2 = _
      rw [ih, Nat.div_div_eq_div_mul, ← Nat.pow_succ]

/-- Nothing is lost if only zeros are shifted out. -/
private theorem bits_shifted {m n : Nat} (h : 2 ^ n ∣ m) :
    (shifted m n).roundBit = false ∧ (shifted m n).stickyBit = false := by
  induction n with
  | zero => exact ⟨rfl, rfl⟩
  | succ n ih =>
      obtain ⟨hr, hs⟩ := ih (Nat.dvd_trans (Nat.pow_dvd_pow 2 (Nat.le_succ n)) h)
      have heven : m / 2 ^ n % 2 = 0 := by
        obtain ⟨q, rfl⟩ := h
        rw [Nat.pow_succ, Nat.mul_assoc, Nat.mul_div_cancel_left _ (Nat.two_pow_pos n)]
        exact Nat.mul_mod_right 2 q
      rw [shifted_succ]
      constructor
      · show ((shifted m n).mantissa % 2 != 0) = false
        rw [mantissa_shifted, heven]
        rfl
      · show ((shifted m n).roundBit || (shifted m n).stickyBit) = false
        rw [hr, hs]
        rfl

private theorem roundedMantissa_bounds (em : ExtendedMantissa) :
    em.mantissa ≤ em.roundedMantissa ∧ em.roundedMantissa ≤ em.mantissa + 1 := by
  obtain ⟨m, r, s⟩ := em
  cases r <;> cases s <;>
    simp only [ExtendedMantissa.roundedMantissa, ExtendedMantissa.accuracy,
      Accuracy.roundToNearestEven] <;> omega

private theorem roundedMantissa_exact {em : ExtendedMantissa} (hr : em.roundBit = false)
    (hs : em.stickyBit = false) : em.roundedMantissa = em.mantissa := by
  obtain ⟨m, r, s⟩ := em
  cases hr
  cases hs
  rfl

private theorem log2_mul_two_pow {m : Nat} (hm : m ≠ 0) (k : Nat) :
    (m * 2 ^ k).log2 = m.log2 + k := by
  have hne : m * 2 ^ k ≠ 0 := Nat.mul_ne_zero hm (Nat.ne_of_gt (Nat.two_pow_pos k))
  obtain ⟨hlow, hhigh⟩ := (Nat.log2_eq_iff hm).mp rfl
  rw [Nat.log2_eq_iff hne]
  constructor
  · rw [Nat.pow_add]
    exact Nat.mul_le_mul_right _ hlow
  · rw [show m.log2 + k + 1 = m.log2 + 1 + k from by omega, Nat.pow_add _ _ k]
    exact Nat.mul_lt_mul_of_pos_right hhigh (Nat.two_pow_pos k)

/-- The exponent that a number is rounded at. -/
private theorem targetExponent_eq {m : Nat} {e : Int} (hm : m ≠ 0) (he : -1074 ≤ e) :
    Format.binary64.targetExponent (Float.Model.totalExponent m e) =
      (((scaled m e).log2 - 52 : Nat) : Int) - 1074 := by
  have hlog : (scaled m e).log2 = m.log2 + (e + 1074).toNat := log2_mul_two_pow hm _
  rw [hlog]
  show max ((m.log2 : Int) + 1 + e - ((1 + 52 : Nat) : Int))
    (3 - 2 ^ (11 - 1) - ((1 + 52 : Nat) : Int)) = _
  omega

private theorem shiftToTargetExponent_eq {m : Nat} {e : Int} (hm : m ≠ 0) (he : -1074 ≤ e)
    {n : Nat} (hn : ((((scaled m e).log2 - 52 : Nat) : Int) - 1074 - e).toNat = n) :
    shiftToTargetExponent .binary64 m e .exact = (shifted m n, e + n) := by
  unfold shiftToTargetExponent
  rw [targetExponent_eq hm he, ← hn]
  rfl

private theorem roundWithAccuracy_eq {s : Sign} {m : Nat} {e e₁ e₂ : Int}
    {em em' : ExtendedMantissa}
    (h₁ : shiftToTargetExponent .binary64 m e .exact = (em, e₁))
    (h₂ : shiftToTargetExponent .binary64 em.roundedMantissa e₁ .exact = (em', e₂))
    (hpos : 0 < em'.mantissa) :
    roundWithAccuracy .binary64 s m e .exact = .finite s em'.mantissa e₂ hpos := by
  unfold roundWithAccuracy
  rw [h₁]
  dsimp only
  rw [h₂]
  exact dif_neg (Nat.ne_of_gt hpos)

/-- The second shift of a rounding does nothing unless the significand has been
rounded up to a power of two. -/
private theorem exists_settled {r : Nat} {e : Int} (hpos : 0 < r) (hle : r ≤ 2 ^ 53)
    (he : -1074 ≤ e) :
    ∃ em e', shiftToTargetExponent .binary64 r e .exact = (em, e') ∧
      scaled em.mantissa e' = scaled r e ∧ 0 < em.mantissa ∧ em.mantissa < 2 ^ 53 ∧
      e ≤ e' ∧ (2 ^ 52 ≤ em.mantissa ∨ em.mantissa = r ∧ e' = e) := by
  have hlog : (scaled r e).log2 = r.log2 + (e + 1074).toNat :=
    log2_mul_two_pow (by omega) _
  by_cases hlt : r < 2 ^ 53
  · have hlog' : r.log2 < 53 := (Nat.log2_lt (by omega)).mpr hlt
    have hnone : ((((scaled r e).log2 - 52 : Nat) : Int) - 1074 - e).toNat = 0 := by omega
    refine ⟨_, _, shiftToTargetExponent_eq (by omega) he hnone, ?_⟩
    rw [mantissa_shifted, Nat.pow_zero, Nat.div_one]
    exact ⟨by simp, hpos, hlt, by omega, .inr ⟨rfl, by simp⟩⟩
  · have hr : r = 2 ^ 53 := by omega
    subst hr
    rw [Nat.log2_two_pow] at hlog
    have hone : ((((scaled (2 ^ 53) e).log2 - 52 : Nat) : Int) - 1074 - e).toNat = 1 := by
      omega
    refine ⟨_, _, shiftToTargetExponent_eq (by omega) he hone, ?_⟩
    rw [mantissa_shifted]
    refine ⟨?_, by decide, by decide, by omega, .inl (by decide)⟩
    have hexp : (e + (1 : Nat) + 1074).toNat = (e + 1074).toNat + 1 := by omega
    rw [scaled, scaled, hexp]
    exact two_pow_carry _

/-- Rounding starts by lowering an exponent that is above the one to round at. -/
private theorem exists_lowered (s : Sign) {m : Nat} {e : Int} (hm : 0 < m)
    (he : -1074 ≤ e) :
    ∃ m₀ e₀, round .binary64 s m e = roundWithAccuracy .binary64 s m₀ e₀ .exact ∧
      0 < m₀ ∧ -1074 ≤ e₀ ∧ e₀ ≤ (((scaled m e).log2 - 52 : Nat) : Int) - 1074 ∧
      scaled m₀ e₀ = scaled m e := by
  obtain ⟨k, hk⟩ : ∃ k, (e - ((((scaled m e).log2 - 52 : Nat) : Int) - 1074)).toNat = k :=
    ⟨_, rfl⟩
  refine ⟨m <<< k, e - k, ?_, ?_, by omega, by omega, ?_⟩
  · unfold UnpackedFloat.round decreaseExponent
    simp only [targetExponent_eq (Nat.ne_of_gt hm) he, hk]
  · rw [Nat.shiftLeft_eq]
    exact Nat.mul_pos hm (Nat.two_pow_pos k)
  · have hexp : (e + 1074).toNat = k + (e - k + 1074).toNat := by omega
    rw [scaled, scaled, Nat.shiftLeft_eq, hexp, Nat.pow_add, Nat.mul_assoc]

/-- The significand of `m · 2 ^ e` at `n` more digits to the left, rounded. -/
private theorem rounded_bounds (m : Nat) {n u : Nat} {e : Int}
    (hu : (e + 1074).toNat + n = u) :
    scaled m e / 2 ^ u ≤ (shifted m n).roundedMantissa ∧
    (shifted m n).roundedMantissa ≤ scaled m e / 2 ^ u + 1 ∧
    (2 ^ u ∣ scaled m e → (shifted m n).roundedMantissa = scaled m e / 2 ^ u) := by
  have hpow : 2 ^ u = 2 ^ n * 2 ^ (e + 1074).toNat := by
    rw [← Nat.pow_add, Nat.add_comm n, hu]
  have hquot : (shifted m n).mantissa = scaled m e / 2 ^ u := by
    rw [mantissa_shifted, scaled, hpow, Nat.mul_div_mul_right _ _ (Nat.two_pow_pos _)]
  obtain ⟨hlow, hhigh⟩ := roundedMantissa_bounds (shifted m n)
  rw [hquot] at hlow hhigh
  refine ⟨hlow, hhigh, fun hdvd => ?_⟩
  have hdvd' : 2 ^ n ∣ m := by
    rw [scaled, hpow] at hdvd
    exact Nat.dvd_of_mul_dvd_mul_right (Nat.two_pow_pos _) hdvd
  obtain ⟨hr, hs⟩ := bits_shifted hdvd'
  rw [roundedMantissa_exact hr hs, hquot]

/-- At the unit that it is rounded at, a number has 53 digits, or the unit is the
least one. -/
theorem quotient_bounds {d : Nat} (hd : 0 < d) :
    d / 2 ^ (d.log2 - 52) < 2 ^ 53 ∧
    (2 ^ 52 ≤ d / 2 ^ (d.log2 - 52) ∨ d.log2 - 52 = 0) := by
  constructor
  · rw [Nat.div_lt_iff_lt_mul (Nat.two_pow_pos _), ← Nat.pow_add]
    have h : d < 2 ^ (d.log2 + 1) := Nat.lt_log2_self
    exact Nat.lt_of_lt_of_le h (Nat.pow_le_pow_right (by decide) (by omega))
  · by_cases hu : d.log2 - 52 = 0
    · exact .inr hu
    · left
      rw [Nat.le_div_iff_mul_le (Nat.two_pow_pos _), ← Nat.pow_add]
      have h : 2 ^ d.log2 ≤ d := Nat.log2_self_le (by omega)
      exact Nat.le_trans (Nat.pow_le_pow_right (by decide) (by omega)) h

/-- **Rounding.**  A positive number is rounded to a finite one in canonical form,
unless its exponent is too high. -/
theorem exists_round (s : Sign) {m : Nat} {e : Int} (hm : 0 < m) (he : -1074 ≤ e) :
    ∃ m' e', ∃ h : 0 < m', round .binary64 s m e = .finite s m' e' h ∧ m' < 2 ^ 53 ∧
      -1074 ≤ e' ∧ (2 ^ 52 ≤ m' ∨ e' = -1074) ∧ Rounds (scaled m e) (scaled m' e') := by
  obtain ⟨m₀, e₀, hround, hm₀, he₀, hle₀, hscaled₀⟩ := exists_lowered s hm he
  rw [hround, ← hscaled₀]
  rw [← hscaled₀] at hle₀
  have hd : 0 < scaled m₀ e₀ := Nat.mul_pos hm₀ (Nat.two_pow_pos _)
  obtain ⟨hquot_lt, hquot_ge⟩ := quotient_bounds hd
  obtain ⟨u, hu⟩ : ∃ u, (scaled m₀ e₀).log2 - 52 = u := ⟨_, rfl⟩
  obtain ⟨n, hn⟩ : ∃ n, ((u : Int) - 1074 - e₀).toNat = n := ⟨_, rfl⟩
  rw [hu] at hquot_lt hquot_ge hle₀
  -- the first shift goes to the unit `2 ^ u` and leaves the significand `r`
  have hfirst := shiftToTargetExponent_eq (Nat.ne_of_gt hm₀) he₀ (hu ▸ hn)
  have hu' : (e₀ + 1074).toNat + n = u := by omega
  obtain ⟨hlow, hhigh, hexact⟩ := rounded_bounds m₀ hu'
  obtain ⟨r, hr⟩ : ∃ r, (shifted m₀ n).roundedMantissa = r := ⟨_, rfl⟩
  rw [hr] at hlow hhigh hexact
  have hrpos : 0 < r := by
    rcases hquot_ge with h | rfl
    · omega
    · rw [Nat.pow_zero, Nat.div_one] at hlow
      omega
  have hbound : -1074 ≤ e₀ + n := by omega
  obtain ⟨em, e₂, hsecond, hscaled, hempos, hemlt, hle, hfull⟩ :=
    exists_settled hrpos (by omega) hbound
  have hr' : scaled em.mantissa e₂ = r * 2 ^ u := by
    have hexp : (e₀ + n + 1074).toNat = u := by omega
    rw [hscaled, scaled, hexp]
  refine ⟨em.mantissa, e₂, hempos, ?_, hemlt, by omega, ?_, ?_⟩
  · exact roundWithAccuracy_eq hfirst (hr ▸ hsecond) hempos
  · rcases hfull with h | ⟨h, he₂⟩
    · exact .inl h
    · rcases hquot_ge with hq | hu0
      · exact .inl (by omega)
      · exact .inr (by omega)
  · rw [hr']
    constructor
    · exact hu ▸ Nat.dvd_mul_left _ _
    · rw [hu, Nat.mul_div_cancel _ (Nat.two_pow_pos u)]
      exact hlow
    · rw [hu, Nat.mul_div_cancel _ (Nat.two_pow_pos u)]
      exact hhigh
    · rw [hu]
      intro hdvd
      rw [hexact hdvd, Nat.div_mul_cancel hdvd]

section Rounds

variable {d r : Nat}

/-- Rounding goes no further than to the next number that needs none. -/
theorem Rounds.le_of_exact (h : Rounds d r) {x : Nat} (hx : 2 ^ (x.log2 - 52) ∣ x)
    (hle : d ≤ x) : r ≤ x := by
  by_cases hdvd : 2 ^ (d.log2 - 52) ∣ d
  · exact h.exact hdvd ▸ hle
  · have hd : d ≠ 0 := fun h0 => hdvd (h0 ▸ Nat.dvd_zero _)
    have hlog : d.log2 ≤ x.log2 :=
      (Nat.le_log2 (by omega)).mpr (Nat.le_trans (Nat.log2_self_le hd) hle)
    obtain ⟨q, hq⟩ : 2 ^ (d.log2 - 52) ∣ x :=
      Nat.dvd_trans (Nat.pow_dvd_pow 2 (by omega)) hx
    have hpos := Nat.two_pow_pos (d.log2 - 52)
    have hlt : d / 2 ^ (d.log2 - 52) < q := by
      refine Nat.div_lt_of_lt_mul (Nat.lt_of_le_of_ne (hq ▸ hle) fun heq => ?_)
      exact hdvd ⟨q, heq⟩
    have hr : r / 2 ^ (d.log2 - 52) ≤ q := Nat.le_trans h.high hlt
    rw [hq, ← Nat.mul_div_cancel' h.dvd]
    exact Nat.mul_le_mul_left _ hr

/-- A multiple of a power of two is rounded to one. -/
theorem Rounds.dvd_of_dvd (h : Rounds d r) {k : Nat} (hk : 2 ^ k ∣ d) : 2 ^ k ∣ r := by
  by_cases hle : k ≤ d.log2 - 52
  · exact Nat.dvd_trans (Nat.pow_dvd_pow 2 hle) h.dvd
  · have heq := h.exact (Nat.dvd_trans (Nat.pow_dvd_pow 2 (by omega)) hk)
    rw [heq]
    exact hk

/-- What is above zero is not rounded to zero. -/
theorem Rounds.pos (h : Rounds d r) (hd : 0 < d) : 0 < r := by
  rcases (quotient_bounds hd).2 with hq | hu
  · have hlow := h.low
    refine Nat.pos_of_ne_zero fun hr => ?_
    rw [hr, Nat.zero_div] at hlow
    omega
  · have heq := h.exact (by rw [hu]; exact Nat.one_dvd d)
    omega

/-- What needs no rounding is rounded to itself. -/
theorem rounds_self (h : 2 ^ (d.log2 - 52) ∣ d) : Rounds d d :=
  ⟨h, Nat.le_refl _, Nat.le_succ _, fun _ => rfl⟩

end Rounds

/-! ## Subtraction -/

section Subtraction

variable {a b : Number}

theorem isNaN_eq : a.isNaN = a.view.isNaN := rfl

theorem isFinite_eq : a.isFinite = a.view.isFinite := rfl

theorem IsAmount.isFinite (ha : a.IsAmount) : a.isFinite = true := by
  by_cases h : a = zero
  · subst h
    rfl
  · rw [isFinite_eq, ha.view_eq h]
    rfl

theorem IsAmount.isNaN (ha : a.IsAmount) : a.isNaN = false := by
  by_cases h : a = zero
  · subst h
    rfl
  · rw [isNaN_eq, ha.view_eq h]
    rfl

/-- A difference by its view. -/
private theorem sub_eq {u : UnpackedFloat} (ha : a.isNaN = false) (hb : b.isNaN = false)
    (hu : UnpackedFloat.sub .binary64 a.view b.view = u)
    (hn : (unpack .binary64 (pack .binary64 u)).isNaN = false) :
    a - b = ⟨UInt64.ofBitVec (pack .binary64 u)⟩ := by
  show lift₂ (· - ·) a b = _
  have hsub : (a.toFloat - b.toFloat).toModel = Float.Model.pack u :=
    congrArg Float.Model.pack hu
  have hnan : (a.toFloat - b.toFloat).isNaN = false := by
    show (a.toFloat - b.toFloat).toModel.unpack.isNaN = false
    rw [hsub]
    exact hn
  unfold lift₂
  simp only [ha, hb, Bool.false_eq_true, ↓reduceIte]
  unfold ofResult
  rw [hnan]
  show ofFloat (a.toFloat - b.toFloat) = _
  unfold ofFloat
  show (⟨(a.toFloat - b.toFloat).toModel.toBits⟩ : Number) = _
  rw [hsub]
  rfl

private theorem sub_of_finite {m : Nat} {e : Int} (ha : a.IsAmount) (hb : b.IsAmount)
    (hc : Canonical m e)
    (hu : UnpackedFloat.sub .binary64 a.view b.view = .finite .positive m e hc.pos) :
    (a - b).IsAmount ∧ (a - b).units = scaled m e := by
  have hword : (pack .binary64 (.finite .positive m e hc.pos)).toNat =
      wordOf .positive m e :=
    toNat_pack hc
  have hn : (unpack .binary64 (pack .binary64 (.finite .positive m e hc.pos))).isNaN =
      false := by
    rw [unpack_of_word hc hword]
    rfl
  have hsub := sub_eq ha.isNaN hb.isNaN hu hn
  refine amount_of_word hc ?_
  rw [hsub]
  exact hword

private theorem sub_of_zero (ha : a.IsAmount) (hb : b.IsAmount)
    (hu : UnpackedFloat.sub .binary64 a.view b.view = .zero .positive) : a - b = zero :=
  sub_eq ha.isNaN hb.isNaN hu rfl

/-- The units of an amount need no rounding. -/
theorem IsAmount.exact (ha : a.IsAmount) : 2 ^ (a.units.log2 - 52) ∣ a.units := by
  by_cases h : a = zero
  · subst h
    rw [units_zero]
    exact Nat.dvd_zero _
  · have hc := ha.canonical h
    have hlog : a.units.log2 = a.significand.log2 + (a.exponent + 1074).toNat :=
      log2_mul_two_pow (Nat.ne_of_gt hc.pos) _
    have hlt : a.significand.log2 < 53 :=
      (Nat.log2_lt (Nat.ne_of_gt hc.pos)).mpr hc.lt
    exact Nat.dvd_trans (Nat.pow_dvd_pow 2 (by omega)) (Nat.dvd_mul_left _ _)

/-- The difference of finite numbers is that of the significands, at the lesser of
the exponents. -/
private theorem sub_view (ha : a.IsAmount) (hb : b.IsAmount) (ha0 : a ≠ zero)
    (hb0 : b ≠ zero) (h : b.units ≤ a.units) :
    ∃ m e, -1074 ≤ e ∧ scaled m e = a.units - b.units ∧
      UnpackedFloat.sub .binary64 a.view b.view = normalize .binary64 m e .positive := by
  have hca := ha.canonical ha0
  have hcb := hb.canonical hb0
  obtain ⟨e, he⟩ : ∃ e, min a.exponent b.exponent = e := ⟨_, rfl⟩
  have hlow : -1074 ≤ e := by
    have := hca.low
    have := hcb.low
    omega
  have hunits : ∀ (m : Nat) (e' : Int), e ≤ e' →
      (m <<< (e' - e).toNat) * 2 ^ (e + 1074).toNat = scaled m e' := by
    intro m e' hle
    have hexp : (e' + 1074).toNat = (e' - e).toNat + (e + 1074).toNat := by omega
    rw [Nat.shiftLeft_eq, scaled, hexp, Nat.pow_add, Nat.mul_assoc]
  have hua : _ = a.units := hunits a.significand a.exponent (by omega)
  have hub : _ = b.units := hunits b.significand b.exponent (by omega)
  have hle : b.significand <<< (b.exponent - e).toNat ≤
      a.significand <<< (a.exponent - e).toNat := by
    rw [← hua, ← hub] at h
    exact Nat.le_of_mul_le_mul_right h (Nat.two_pow_pos _)
  refine ⟨a.significand <<< (a.exponent - e).toNat -
    b.significand <<< (b.exponent - e).toNat, e, hlow, ?_, ?_⟩
  · rw [scaled, Nat.sub_mul, hua, hub]
  · rw [ha.view_eq ha0, hb.view_eq hb0]
    show UnpackedFloat.normalize .binary64
      ((a.significand <<< (a.exponent - min a.exponent b.exponent).toNat : Nat) -
        (b.significand <<< (b.exponent - min a.exponent b.exponent).toNat : Nat))
      (min a.exponent b.exponent) .positive = _
    rw [he, Int.ofNat_sub hle]

/-- **Subtraction** of an amount that is no greater gives the difference, rounded. -/
theorem sub_amount (ha : a.IsAmount) (hb : b.IsAmount) (h : b.units ≤ a.units) :
    (a - b).IsAmount ∧ Rounds (a.units - b.units) (a - b).units := by
  by_cases hb0 : b = zero
  · subst hb0
    rw [units_zero, Nat.sub_zero]
    by_cases ha0 : a = zero
    · subst ha0
      rw [show zero - zero = zero from by decide]
      exact ⟨isAmount_zero, rounds_self isAmount_zero.exact⟩
    · have hc := ha.canonical ha0
      have hu : UnpackedFloat.sub .binary64 a.view zero.view =
          .finite .positive a.significand a.exponent hc.pos := by
        rw [ha.view_eq ha0, view_zero]
        rfl
      obtain ⟨hamount, hunits⟩ := sub_of_finite ha hb hc hu
      refine ⟨hamount, ?_⟩
      rw [hunits]
      exact rounds_self ha.exact
  · have ha0 : a ≠ zero := by
      intro ha0
      have hpos := hb.units_pos hb0
      rw [ha0, units_zero] at h
      omega
    obtain ⟨m, e, hlow, hscaled, hsub⟩ := sub_view ha hb ha0 hb0 h
    rw [← hscaled]
    rcases Nat.eq_zero_or_pos m with rfl | hm
    · rw [sub_of_zero ha hb (hsub.trans rfl), units_zero, scaled, Nat.zero_mul]
      exact ⟨isAmount_zero, rounds_self (Nat.dvd_zero _)⟩
    · obtain ⟨m', e', hpos, hround, hlt, hlow', hfull, hrounds⟩ :=
        exists_round .positive hm hlow
      have hsub' : UnpackedFloat.sub .binary64 a.view b.view =
          .finite .positive m' e' hpos := by
        rw [hsub, UnpackedFloat.normalize, Int.compare_eq_gt.mpr (by omega)]
        exact hround
      -- the difference is at most `a`, so that its exponent is not too high
      have hca := ha.canonical ha0
      have hle : scaled m' e' ≤ a.units :=
        hrounds.le_of_exact ha.exact (hscaled ▸ Nat.sub_le _ _)
      have hhigh : e' ≤ 971 := by
        refine Int.not_lt.mp fun hgt => ?_
        have hlt' := scaled_lt hca.lt hca.low hfull (Int.lt_of_le_of_lt hca.high hgt)
        exact absurd hle (Nat.not_le.mpr hlt')
      obtain ⟨hamount, hunits⟩ :=
        sub_of_finite ha hb ⟨hpos, hlt, hlow', hhigh, hfull⟩ hsub'
      rw [hunits]
      exact ⟨hamount, hrounds⟩

/-- An amount less itself leaves nothing. -/
theorem IsAmount.sub_self (ha : a.IsAmount) : a - a = zero := by
  obtain ⟨hamount, hrounds⟩ := sub_amount ha ha (Nat.le_refl _)
  rw [Nat.sub_self] at hrounds
  exact hamount.eq_zero (hrounds.exact (Nat.dvd_zero _))

theorem IsAmount.sub_self_le (ha : a.IsAmount) : a - a ≤ zero := by
  rw [ha.sub_self]
  decide

/-- An amount less a lesser one leaves something. -/
theorem IsAmount.sub_pos (ha : a.IsAmount) (hb : b.IsAmount) (h : b.units < a.units) :
    (a - b).IsAmount ∧ 0 < (a - b).units := by
  obtain ⟨hamount, hrounds⟩ := sub_amount ha hb (Nat.le_of_lt h)
  exact ⟨hamount, hrounds.pos (Nat.sub_pos_of_lt h)⟩

/-- What is taken off infinity does not tell. -/
theorem IsAmount.infinity_sub (ha : a.IsAmount) : infinity - a = infinity := by
  refine sub_eq (u := .infinity .positive) rfl ha.isNaN ?_ rfl
  rw [view_infinity]
  by_cases h : a = zero
  · subst h
    rfl
  · rw [ha.view_eq h]
    rfl

end Subtraction

/-! ## Signs -/

section Signs

variable {a b : Number}

/-- The sign is negative, if there is one. -/
private def Negative : UnpackedFloat → Prop
  | .notANumber => True
  | .infinity s | .zero s | .finite s .. => s = .negative

private theorem negative_unpack {b : BitVec 64} (hb : b.toNat / 2 ^ 63 % 2 = 1) :
    Negative (unpack .binary64 b) := by
  have hsign : Sign.ofBitVec (@unpackSign .binary64 b) = .negative := unpackSign_eq hb
  delta UnpackedFloat.unpack
  dsimp only
  rw [hsign]
  by_cases hones : @unpackExponent .binary64 b = -1#_
  · rw [if_pos hones]
    by_cases hmz : @unpackMantissa .binary64 b = 0#_
    · rw [if_pos hmz]
      rfl
    · rw [if_neg hmz]
      trivial
  · rw [if_neg hones]
    by_cases hzero : @unpackExponent .binary64 b = 0#_
    · rw [if_pos hzero]
      by_cases hmz : @unpackMantissa .binary64 b = 0#_
      · rw [dif_pos hmz]
        rfl
      · rw [dif_neg hmz]
        rfl
    · rw [if_neg hzero]
      rfl

private theorem negative_unpack_pack {u : UnpackedFloat} (hu : Negative u) :
    Negative (unpack .binary64 (pack .binary64 u)) := by
  have hcomponents : ∀ ev mv,
      Negative (unpack .binary64 (packComponents .binary64 .negative ev mv)) := by
    intro ev mv
    refine negative_unpack ?_
    have hev : ev.toNat < 2 ^ 11 := ev.isLt
    have hmv : mv.toNat < 2 ^ 52 := mv.isLt
    rw [toNat_packComponents]
    show (1 * 2 ^ 63 + _ + _) / 2 ^ 63 % 2 = 1
    omega
  cases u with
  | notANumber => trivial
  | infinity s =>
      cases hu
      exact hcomponents _ _
  | zero s =>
      cases hu
      exact hcomponents _ _
  | finite s m e h =>
      cases hu
      delta UnpackedFloat.pack
      simp only
      split
      · exact hcomponents _ _
      · split
        · exact hcomponents _ _
        · exact hcomponents _ _

/-- What has the sign bit set is not above zero. -/
theorem not_pos_of_sign (ha : 2 ^ 63 ≤ a.bits.toNat) : ¬ zero < a := by
  have hlt : a.bits.toNat < 2 ^ 64 := a.bits.toNat_lt
  have hneg : Negative a.view :=
    negative_unpack_pack (negative_unpack (by show a.bits.toNat / _ % _ = 1; omega))
  rw [lt_iff_view, view_zero]
  intro hlt
  cases hv : a.view <;> rw [hv] at hneg hlt
  · cases hneg
    cases hlt
  · cases hlt
  · cases hlt
  · cases hneg
    cases hlt

/-- A word beyond those of the infinities, the sign apart, is not a number. -/
theorem view_of_nan (h : infinityWord < a.bits.toNat % 2 ^ 63) :
    a.view = .notANumber := by
  have hlt : a.bits.toNat < 2 ^ 64 := a.bits.toNat_lt
  unfold infinityWord hiddenBit at h
  have hE : @unpackExponent .binary64 a.bits.toBitVec = -1#_ := by
    refine BitVec.eq_of_toNat_eq ((toNat_unpackExponent _).trans ?_)
    show a.bits.toNat / 2 ^ 52 % 2 ^ 11 = 2047
    omega
  have hM : ¬ @unpackMantissa .binary64 a.bits.toBitVec = 0#_ := by
    intro hM
    have h₀ : a.bits.toNat % 2 ^ 52 = 0 :=
      (toNat_unpackMantissa a.bits.toBitVec).symm.trans (congrArg BitVec.toNat hM)
    omega
  have hu : unpack .binary64 a.bits.toBitVec = .notANumber := by
    delta UnpackedFloat.unpack
    dsimp only
    rw [if_pos hE, if_neg hM]
  rw [view_eq, hu]
  rfl

/-- What is above zero is an amount or infinite. -/
theorem amount_of_pos (h : zero < a) : a.IsAmount ∨ a = infinity := by
  rcases Nat.lt_trichotomy a.bits.toNat infinityWord with hlt | heq | hgt
  · exact .inl hlt
  · exact .inr (ext_toNat heq)
  · by_cases hs : 2 ^ 63 ≤ a.bits.toNat
    · exact absurd h (not_pos_of_sign hs)
    · have hnan : a.view = .notANumber := view_of_nan (by omega)
      rw [lt_iff_view, view_zero, hnan] at h
      cases h

theorem amount_of_pos_of_finite (h : zero < a) (hf : a.isFinite = true) : a.IsAmount := by
  rcases amount_of_pos h with ha | rfl
  · exact ha
  · exact absurd hf (by decide)

/-- An amount is below infinity. -/
theorem IsAmount.lt_infinity (ha : a.IsAmount) : a < infinity := by
  rw [lt_iff_view, view_infinity]
  by_cases h : a = zero
  · subst h
    rfl
  · rw [ha.view_eq h]
    rfl

theorem pos_of_units (ha : a.IsAmount) (hu : 0 < a.units) : zero < a := by
  rw [lt_iff isAmount_zero ha, units_zero]
  exact hu

/-- What is not below a positive amount is positive. -/
theorem pos_of_le (hb : b.IsAmount) (hb0 : b ≠ zero) (h : b ≤ a) : zero < a := by
  rw [le_iff_view, hb.view_eq hb0] at h
  rw [lt_iff_view, view_zero]
  cases hv : a.view with
  | notANumber =>
      rw [hv] at h
      cases h
  | zero s =>
      rw [hv] at h
      cases h
  | infinity s =>
      rw [hv] at h
      cases s with
      | positive => rfl
      | negative => cases h
  | finite s m e hm =>
      rw [hv] at h
      cases s with
      | positive => rfl
      | negative => cases h

theorem maxNum_zero_of_pos (h : zero < a) : a.maxNum zero = a := by
  have hnan : a.isNaN = false := by
    rcases amount_of_pos h with ha | rfl
    · exact ha.isNaN
    · rfl
  unfold maxNum
  rw [hnan, isAmount_zero.isNaN, if_pos h]
  rfl

theorem maxNum_zero_of_not_pos (h : ¬ zero < a) : a.maxNum zero = zero := by
  unfold maxNum
  rw [isAmount_zero.isNaN, if_neg h]
  split <;> rfl

theorem IsAmount.maxNum_zero (ha : a.IsAmount) : a.maxNum zero = a := by
  by_cases h : a = zero
  · subst h
    decide
  · exact maxNum_zero_of_pos (pos_of_units ha (ha.units_pos h))

/-- A finite time, cut off at zero, is an amount. -/
theorem amount_maxNum_zero (h : a.isFinite = true) : (a.maxNum zero).IsAmount := by
  by_cases hpos : zero < a
  · rw [maxNum_zero_of_pos hpos]
    exact amount_of_pos_of_finite hpos h
  · rw [maxNum_zero_of_not_pos hpos]
    exact isAmount_zero

theorem not_pos_neg (ha : a.IsAmount) : ¬ zero < -a := by
  refine not_pos_of_sign ?_
  show 2 ^ 63 ≤ (a.bits ^^^ 0x8000000000000000).toNat
  have hlt : a.bits.toNat < 2 ^ 63 := by
    unfold IsAmount infinityWord hiddenBit at ha
    omega
  refine Nat.ge_two_pow_of_testBit ?_
  rw [UInt64.toNat_xor, Nat.testBit_xor, Nat.testBit_lt_two_pow hlt]
  rfl

end Signs

end ActorScript.Number
