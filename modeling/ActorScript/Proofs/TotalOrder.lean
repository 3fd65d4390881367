import ActorScript.Evaluation.Candidates
import ActorScript.Proofs.Binary64

/-!
# The total order of numbers

Comparison leaves some pairs of numbers undecided: a not-a-number is neither below nor
above anything, and the two zeros are equal.  The keys of a loop are put in an order that
decides every pair, and in which only equal words are tied.

A word is a sign and a magnitude.  Counted from zero to both sides, it is the `position`
of a number, and comparison goes by it; `orderKey` moves the negative words down by one,
which takes `-0` off the place of `0`.

## Main results

* `lt_iff_position`, `equal_iff_position` — numbers compare as their positions do.
* `eq_or_zeros_of_equal` — values that are equal are one word, or the two zeros.
* `orderKey_lt_iff` — `orderKey` counts along the total order, which `Precedes` states.
-/

namespace ActorScript

namespace Number

open Float.Model (UnpackedFloat)
open Float.Model.UnpackedFloat

variable {a b : Number}

/-! ## Positions -/

/-- The word without its sign. -/
def magnitude (a : Number) : Nat := a.bits.toNat % 2 ^ 63

/-- The magnitude, counted from zero to the side that the sign gives. -/
def position (a : Number) : Int :=
  if a.negative then -(a.magnitude : Int) else a.magnitude

theorem negative_iff : a.negative = true ↔ 2 ^ 63 ≤ a.bits.toNat := by
  unfold negative
  rw [decide_eq_true_iff, UInt64.le_iff_toNat_le]
  rfl

/-- The sign and the magnitude make up the word. -/
theorem toNat_bits (a : Number) :
    a.bits.toNat = (if a.negative then 2 ^ 63 else 0) + a.magnitude := by
  have hlt : a.bits.toNat < 2 ^ 64 := a.bits.toNat_lt
  unfold magnitude
  split
  next h =>
    rw [negative_iff] at h
    omega
  next h =>
    rw [negative_iff] at h
    omega

theorem ext_magnitude (hs : a.negative = b.negative) (hm : a.magnitude = b.magnitude) :
    a = b := by
  apply ext_toNat
  rw [toNat_bits a, toNat_bits b, hs, hm]

/-- The words of the negative numbers lie one further down than their positions. -/
theorem orderKey_eq (a : Number) :
    a.orderKey = if a.negative then a.position - 1 else a.position := by
  have hword := toNat_bits a
  unfold orderKey position
  split
  next h =>
    rw [h] at hword
    rw [hword]
    simp only [if_true]
    omega
  next h =>
    rw [if_neg h] at hword
    rw [hword]
    simp

/-! ## Comparison by position -/

/-- What is taken apart and its position. -/
inductive Ranked : UnpackedFloat → Int → Prop
  | zero (s : Sign) : Ranked (.zero s) 0
  | above {m : Nat} {e : Int} (hc : Canonical m e) :
      Ranked (.finite .positive m e hc.pos) (wordOf .positive m e)
  | below {m : Nat} {e : Int} (hc : Canonical m e) :
      Ranked (.finite .negative m e hc.pos) (-wordOf .positive m e)
  | top : Ranked (.infinity .positive) infinityWord
  | bottom : Ranked (.infinity .negative) (-infinityWord)

theorem wordOf_positive (m : Nat) (e : Int) :
    wordOf .positive m e = (e + 1074).toNat * 2 ^ 52 + m := by
  show 0 * _ + _ + _ = _
  omega

theorem wordOf_negative (m : Nat) (e : Int) :
    wordOf .negative m e = 2 ^ 63 + wordOf .positive m e := by
  rw [wordOf_positive]
  show 1 * _ + _ + _ = _
  omega

theorem Canonical.word_pos {m : Nat} {e : Int} (hc : Canonical m e) :
    0 < wordOf .positive m e := by
  have hpos := hc.pos
  rw [wordOf_positive]
  omega

theorem Canonical.word_lt {m : Nat} {e : Int} (hc : Canonical m e) :
    wordOf .positive m e < infinityWord := by
  obtain ⟨-, hlt, -, hhigh, -⟩ := hc
  rw [wordOf_positive]
  unfold infinityWord hiddenBit
  omega

/-- Exponents first, then significands: this is how the words compare. -/
theorem Canonical.compare_eq {m₁ m₂ : Nat} {e₁ e₂ : Int} (h₁ : Canonical m₁ e₁)
    (h₂ : Canonical m₂ e₂) :
    (compare e₁ e₂).then (compare m₁ m₂) =
      compare (wordOf .positive m₁ e₁ : Int) (wordOf .positive m₂ e₂) := by
  obtain ⟨-, hlt₁, hlow₁, -, hfull₁⟩ := h₁
  obtain ⟨-, hlt₂, hlow₂, -, hfull₂⟩ := h₂
  rw [wordOf_positive, wordOf_positive]
  rcases Int.lt_trichotomy e₁ e₂ with he | rfl | he
  · rw [Int.compare_eq_lt.mpr he]
    exact (Int.compare_eq_lt.mpr (by omega)).symm
  · rw [Int.compare_eq_eq.mpr rfl]
    show compare m₁ m₂ = _
    rcases Nat.lt_trichotomy m₁ m₂ with hm | rfl | hm
    · rw [Nat.compare_eq_lt.mpr hm, Int.compare_eq_lt.mpr (by omega)]
    · rw [Nat.compare_eq_eq.mpr rfl, Int.compare_eq_eq.mpr rfl]
    · rw [Nat.compare_eq_gt.mpr hm, Int.compare_eq_gt.mpr (by omega)]
  · rw [Int.compare_eq_gt.mpr he]
    exact (Int.compare_eq_gt.mpr (by omega)).symm

private theorem compare_neg_neg (i j : Int) : compare (-i) (-j) = (compare i j).swap := by
  rcases Int.lt_trichotomy i j with h | rfl | h
  · rw [Int.compare_eq_lt.mpr h, Int.compare_eq_gt.mpr (by omega)]
    rfl
  · rw [Int.compare_eq_eq.mpr rfl, Int.compare_eq_eq.mpr rfl]
    rfl
  · rw [Int.compare_eq_gt.mpr h, Int.compare_eq_lt.mpr (by omega)]
    rfl

/-- **Comparison goes by position.**  The cases are those of the comparison: what is
finite and has the sign of the other is compared by its word, all else is settled by the
kinds and the signs. -/
theorem Ranked.compare_eq {u v : UnpackedFloat} {i j : Int} (hu : Ranked u i)
    (hv : Ranked v j) :
    UnpackedFloat.compare u v = some (compare i j) := by
  have hlt : i < j → some Ordering.lt = some (compare i j) :=
    fun h => congrArg some (Int.compare_eq_lt.mpr h).symm
  have hgt : j < i → some Ordering.gt = some (compare i j) :=
    fun h => congrArg some (Int.compare_eq_gt.mpr h).symm
  have heq : i = j → some Ordering.eq = some (compare i j) :=
    fun h => congrArg some (Int.compare_eq_eq.mpr h).symm
  have hinf : (0 : Int) < infinityWord := by decide
  cases hu with
  | zero s =>
      cases hv with
      | zero => exact heq rfl
      | above hc =>
          have hpos := hc.word_pos
          exact hlt (by omega)
      | below hc =>
          have hpos := hc.word_pos
          exact hgt (by omega)
      | top => exact hlt (by omega)
      | bottom => exact hgt (by omega)
  | above hc =>
      have hpos := hc.word_pos
      have hword := hc.word_lt
      cases hv with
      | zero => exact hgt (by omega)
      | above hc' => exact congrArg some (hc.compare_eq hc')
      | below hc' => exact hgt (by omega)
      | top => exact hlt (by omega)
      | bottom => exact hgt (by omega)
  | below hc =>
      have hpos := hc.word_pos
      have hword := hc.word_lt
      cases hv with
      | zero => exact hlt (by omega)
      | above hc' => exact hlt (by omega)
      | below hc' =>
          rw [compare_neg_neg, ← hc.compare_eq hc']
          rfl
      | top => exact hlt (by omega)
      | bottom => exact hgt (by omega)
  | top =>
      cases hv with
      | zero => exact hgt (by omega)
      | above hc' | below hc' =>
          have hword := hc'.word_lt
          exact hgt (by omega)
      | top => exact heq rfl
      | bottom => exact hgt (by omega)
  | bottom =>
      cases hv with
      | zero => exact hlt (by omega)
      | above hc' | below hc' =>
          have hword := hc'.word_lt
          exact hlt (by omega)
      | top => exact hlt (by omega)
      | bottom => exact heq rfl

/-- A magnitude below that of the infinities and not zero is a significand with an
exponent. -/
theorem canonical_of_magnitude (h : a.magnitude < infinityWord) (h0 : a.magnitude ≠ 0) :
    Canonical a.significand a.exponent ∧
      a.magnitude = wordOf .positive a.significand a.exponent := by
  rw [wordOf_positive]
  unfold magnitude infinityWord hiddenBit at *
  unfold significand exponent exponentField fractionField hiddenBit
  by_cases hE : a.bits.toNat / 0x10000000000000 % 2048 = 0
  · rw [if_pos hE]
    refine ⟨?_, by omega⟩
    constructor <;> omega
  · rw [if_neg hE]
    refine ⟨?_, by omega⟩
    constructor <;> omega

theorem toNat_neg_zero : (-zero).bits.toNat = 2 ^ 63 := by decide

theorem toNat_infinity : infinity.bits.toNat = infinityWord := by decide

theorem toNat_neg_infinity : (-infinity).bits.toNat = 2 ^ 63 + infinityWord := by decide

theorem view_neg_zero : (-zero).view = .zero .negative := by rfl

theorem view_neg_infinity : (-infinity).view = .infinity .negative := by rfl

/-- A word up to those of the infinities is a number, and its position is that of what it
is taken apart into. -/
theorem ranked_view (h : a.magnitude ≤ infinityWord) : Ranked a.view a.position := by
  have hword := toNat_bits a
  unfold position
  cases hs : a.negative with
  | true =>
      rw [hs, if_pos rfl] at hword
      rw [if_pos rfl]
      rcases Nat.lt_or_eq_of_le h with hlt | heq
      · by_cases h0 : a.magnitude = 0
        · rw [h0, Nat.add_zero, ← toNat_neg_zero] at hword
          rw [h0, ext_toNat hword, view_neg_zero]
          exact .zero .negative
        · obtain ⟨hc, hm⟩ := canonical_of_magnitude hlt h0
          rw [hm, ← wordOf_negative] at hword
          rw [hm, view_of_word hc hword]
          exact .below hc
      · rw [heq, ← toNat_neg_infinity] at hword
        rw [heq, ext_toNat hword, view_neg_infinity]
        exact .bottom
  | false =>
      rw [hs, if_neg Bool.false_ne_true, Nat.zero_add] at hword
      rw [if_neg Bool.false_ne_true]
      rcases Nat.lt_or_eq_of_le h with hlt | heq
      · by_cases h0 : a.magnitude = 0
        · rw [h0] at hword
          rw [h0, ext_toNat (b := zero) hword, view_zero]
          exact .zero .positive
        · obtain ⟨hc, hm⟩ := canonical_of_magnitude hlt h0
          rw [hm] at hword
          rw [hm, view_of_word hc hword]
          exact .above hc
      · rw [heq, ← toNat_infinity] at hword
        rw [heq, ext_toNat hword, view_infinity]
        exact .top

theorem Ranked.isNaN {u : UnpackedFloat} {i : Int} (h : Ranked u i) :
    u.isNaN = false := by
  cases h <;> rfl

theorem Ranked.compare_notANumber {u : UnpackedFloat} {i : Int} (h : Ranked u i) :
    UnpackedFloat.compare u .notANumber = none := by
  cases h <;> rfl

theorem isNaN_iff : a.isNaN = true ↔ infinityWord < a.magnitude := by
  rw [isNaN_eq]
  constructor
  · intro h
    refine Nat.lt_of_not_le fun hle => ?_
    rw [(ranked_view hle).isNaN] at h
    cases h
  · intro h
    rw [view_of_nan h]
    rfl

theorem magnitude_le_of_number (h : a.isNaN = false) : a.magnitude ≤ infinityWord := by
  refine Nat.le_of_not_lt fun hlt => ?_
  rw [isNaN_iff.mpr hlt] at h
  cases h

/-- Numbers are compared by their positions, and nothing else is compared at all. -/
theorem compare_view_eq_some {o : Ordering} :
    UnpackedFloat.compare a.view b.view = some o ↔
      a.isNaN = false ∧ b.isNaN = false ∧ compare a.position b.position = o := by
  cases ha : a.isNaN with
  | true =>
      rw [view_of_nan (isNaN_iff.mp ha)]
      exact ⟨nofun, nofun⟩
  | false =>
      have hra := ranked_view (magnitude_le_of_number ha)
      cases hb : b.isNaN with
      | true =>
          rw [view_of_nan (a := b) (isNaN_iff.mp hb), hra.compare_notANumber]
          exact ⟨nofun, nofun⟩
      | false =>
          rw [hra.compare_eq (ranked_view (magnitude_le_of_number hb)), Option.some_inj]
          simp

theorem lt_iff_position :
    a < b ↔ a.isNaN = false ∧ b.isNaN = false ∧ a.position < b.position := by
  rw [lt_iff_view, compare_view_eq_some, Int.compare_eq_lt]

theorem equal_iff_position :
    a.equal b = true ↔ a.isNaN = false ∧ b.isNaN = false ∧ a.position = b.position := by
  show (UnpackedFloat.compare a.view b.view == some .eq) = true ↔ _
  rw [beq_iff_eq, compare_view_eq_some, Int.compare_eq_eq]

/-- One of two numbers is zero and the other `-0`. -/
def OppositeZeros (a b : Number) : Prop := (a = zero ∧ b = -zero) ∨ (a = -zero ∧ b = zero)

instance (a b : Number) : Decidable (OppositeZeros a b) :=
  inferInstanceAs (Decidable ((a = zero ∧ b = -zero) ∨ (a = -zero ∧ b = zero)))

private theorem eq_zero (hs : a.negative = false) (h : a.magnitude = 0) : a = zero :=
  ext_magnitude (hs.trans (by decide)) (h.trans (by decide))

private theorem eq_neg_zero (hs : a.negative = true) (h : a.magnitude = 0) : a = -zero :=
  ext_magnitude (hs.trans (by decide)) (h.trans (by decide))

/-- Values that are equal are **one word, or the two zeros**. -/
theorem eq_or_zeros_of_equal (h : a.equal b = true) : a = b ∨ OppositeZeros a b := by
  obtain ⟨-, -, hpos⟩ := equal_iff_position.mp h
  unfold position at hpos
  cases ha : a.negative with
  | true =>
      rw [ha, if_pos rfl] at hpos
      cases hb : b.negative with
      | true =>
          rw [hb, if_pos rfl] at hpos
          exact .inl (ext_magnitude (ha.trans hb.symm) (by omega))
      | false =>
          rw [hb, if_neg Bool.false_ne_true] at hpos
          exact .inr (.inr ⟨eq_neg_zero ha (by omega), eq_zero hb (by omega)⟩)
  | false =>
      rw [ha, if_neg Bool.false_ne_true] at hpos
      cases hb : b.negative with
      | true =>
          rw [hb, if_pos rfl] at hpos
          exact .inr (.inl ⟨eq_zero ha (by omega), eq_neg_zero hb (by omega)⟩)
      | false =>
          rw [hb, if_neg Bool.false_ne_true] at hpos
          exact .inl (ext_magnitude (ha.trans hb.symm) (by omega))

/-! ## The total order -/

/-- The total order of all words: not-a-numbers with a sign stand before the numbers, and
those without one after them; the numbers stand as they compare, `-0` before `0`; and of
not-a-numbers on one side the one with the lesser magnitude is closer to the numbers. -/
inductive Precedes : Number → Number → Prop
  | lt {a b : Number} (h : a < b) : Precedes a b
  | zeros : Precedes (-zero) zero
  | negativeNaN {a b : Number} (ha : a.isNaN = true) (hs : a.negative = true)
      (hb : b.isNaN = false ∨ b.negative = false) : Precedes a b
  | positiveNaN {a b : Number} (ha : a.isNaN = false ∨ a.negative = true)
      (hb : b.isNaN = true) (hs : b.negative = false) : Precedes a b
  | negativeNaNs {a b : Number} (ha : a.isNaN = true) (hb : b.isNaN = true)
      (hs : a.negative = true) (hs' : b.negative = true) (h : b.magnitude < a.magnitude) :
      Precedes a b
  | positiveNaNs {a b : Number} (ha : a.isNaN = true) (hb : b.isNaN = true)
      (hs : a.negative = false) (hs' : b.negative = false)
      (h : a.magnitude < b.magnitude) :
      Precedes a b

theorem orderKey_of_negative (h : a.negative = true) :
    a.orderKey = -(a.magnitude : Int) - 1 := by
  rw [orderKey_eq, position, h, if_pos rfl, if_pos rfl]

theorem orderKey_of_not_negative (h : a.negative = false) : a.orderKey = a.magnitude := by
  rw [orderKey_eq, position, h, if_neg Bool.false_ne_true, if_neg Bool.false_ne_true]

theorem orderKey_lt_of_position (h : a.position < b.position) :
    a.orderKey < b.orderKey := by
  rw [orderKey_eq, orderKey_eq]
  unfold position at *
  cases ha : a.negative <;> cases hb : b.negative <;>
    simp only [ha, hb, if_true, Bool.false_eq_true, if_false] at h ⊢ <;> omega

theorem Precedes.orderKey_lt (h : Precedes a b) : a.orderKey < b.orderKey := by
  cases h with
  | lt h => exact orderKey_lt_of_position (lt_iff_position.mp h).2.2
  | zeros => decide
  | negativeNaN ha hs hb =>
      rw [isNaN_iff] at ha
      rw [orderKey_of_negative hs]
      cases hs' : b.negative with
      | true =>
          have hb' := magnitude_le_of_number (hb.resolve_right (by simp [hs']))
          rw [orderKey_of_negative hs']
          omega
      | false =>
          rw [orderKey_of_not_negative hs']
          omega
  | positiveNaN ha hb hs =>
      rw [isNaN_iff] at hb
      rw [orderKey_of_not_negative hs]
      cases hs' : a.negative with
      | true =>
          rw [orderKey_of_negative hs']
          omega
      | false =>
          have ha' := magnitude_le_of_number (ha.resolve_right (by simp [hs']))
          rw [orderKey_of_not_negative hs']
          omega
  | negativeNaNs _ _ hs hs' h =>
      rw [orderKey_of_negative hs, orderKey_of_negative hs']
      omega
  | positiveNaNs _ _ hs hs' h =>
      rw [orderKey_of_not_negative hs, orderKey_of_not_negative hs']
      omega

/-- Numbers whose keys are in order compare so, unless they are the two zeros. -/
theorem precedes_of_numbers (ha : a.isNaN = false) (hb : b.isNaN = false)
    (h : a.orderKey < b.orderKey) : Precedes a b := by
  by_cases hpos : a.position < b.position
  · exact .lt (lt_iff_position.mpr ⟨ha, hb, hpos⟩)
  · unfold position at hpos
    cases hsa : a.negative with
    | true =>
        rw [orderKey_of_negative hsa] at h
        cases hsb : b.negative with
        | true =>
            rw [orderKey_of_negative hsb] at h
            rw [hsa, hsb, if_pos rfl, if_pos rfl] at hpos
            omega
        | false =>
            rw [hsa, hsb, if_pos rfl, if_neg Bool.false_ne_true] at hpos
            rw [eq_neg_zero hsa (by omega), eq_zero hsb (by omega)]
            exact .zeros
    | false =>
        rw [orderKey_of_not_negative hsa] at h
        cases hsb : b.negative with
        | true =>
            rw [orderKey_of_negative hsb] at h
            omega
        | false =>
            rw [orderKey_of_not_negative hsb] at h
            rw [hsa, hsb, if_neg Bool.false_ne_true, if_neg Bool.false_ne_true] at hpos
            omega

/-- **The keys count along the total order.** -/
theorem orderKey_lt_iff : a.orderKey < b.orderKey ↔ Precedes a b := by
  refine ⟨fun h => ?_, Precedes.orderKey_lt⟩
  cases ha : a.isNaN with
  | false =>
      cases hb : b.isNaN with
      | false => exact precedes_of_numbers ha hb h
      | true =>
          cases hsb : b.negative with
          | false => exact .positiveNaN (.inl ha) hb hsb
          | true =>
              -- before such a `b` there are only not-a-numbers
              have hma := magnitude_le_of_number ha
              rw [isNaN_iff] at hb
              rw [orderKey_of_negative hsb, orderKey_eq, position] at h
              split at h <;> omega
  | true =>
      cases hsa : a.negative with
      | true =>
          by_cases hb : b.isNaN = false ∨ b.negative = false
          · exact .negativeNaN ha hsa hb
          · rw [not_or, Bool.not_eq_false, Bool.not_eq_false] at hb
            rw [orderKey_of_negative hsa, orderKey_of_negative hb.2] at h
            exact .negativeNaNs ha hb.1 hsa hb.2 (by omega)
      | false =>
          rw [orderKey_of_not_negative hsa] at h
          cases hsb : b.negative with
          | true =>
              rw [orderKey_of_negative hsb] at h
              omega
          | false =>
              rw [orderKey_of_not_negative hsb] at h
              have hma := isNaN_iff.mp ha
              exact .positiveNaNs ha (isNaN_iff.mpr (by omega)) hsa hsb (by omega)

end Number

/-! ## Orders of keys -/

namespace SortOrder

/-- A key stands strictly before another one. -/
def Before : SortOrder → Number → Number → Prop
  | .ascending, a, b => a.Precedes b
  | .descending, a, b => b.Precedes a

variable {order : SortOrder} {a b c : Number}

theorem le_iff : order.le a b = true ↔ ¬ order.Before b a := by
  cases order with
  | ascending => rw [le, decide_eq_true_iff, Before, ← Number.orderKey_lt_iff, Int.not_lt]
  | descending =>
      rw [le, decide_eq_true_iff, Before, ← Number.orderKey_lt_iff, Int.not_lt]

theorem le_trans (h : order.le a b = true) (h' : order.le b c = true) :
    order.le a c = true := by
  cases order <;> rw [le, decide_eq_true_iff] at * <;> omega

theorem le_total (order : SortOrder) (a b : Number) :
    (order.le a b || order.le b a) = true := by
  cases order <;> rw [le, le, Bool.or_eq_true, decide_eq_true_iff, decide_eq_true_iff]
    <;> omega

theorem not_before_self (order : SortOrder) (a : Number) : ¬ order.Before a a := by
  have h := order.le_total a a
  rw [Bool.or_self] at h
  exact le_iff.mp h

end SortOrder

end ActorScript
