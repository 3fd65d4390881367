import ActorScript.Budget
import ActorScript.Proofs.Binary64

/-!
# Whole numbers and spending

Budgets that are natural numbers, and what is left of a time that has been paid
for in part.

## Main results

* `ofInt_sub`, `ofInt_le_iff`, `ofInt_lt_iff` — up to `2 ^ 53` the arithmetic of
  natural numbers is exact.
* `IsWhole.sub` — beyond that, a difference is still rounded to a whole number.
* `Budget.spend_amount` — whatever the budget is, what it spends on a time is an
  amount no greater than the time.
-/

namespace ActorScript

namespace Number

/-! ## Whole numbers -/

section Whole

variable {a b : Number}

/-- The number of binary digits behind the point. -/
@[irreducible] def fractionDigits : Nat := 1074

theorem fractionDigits_eq : fractionDigits = 1074 := by
  unfold fractionDigits
  rfl

/-- The units of the number one. -/
def oneUnits : Nat := 2 ^ fractionDigits

/-- A number without a fraction that is not below zero. -/
structure IsWhole (a : Number) : Prop where
  amount : a.IsAmount
  dvd : oneUnits ∣ a.units

private theorem log2Ratio_one {n : Nat} (hn : 0 < n) : log2Ratio n 1 = n.log2 := by
  have hlog : (Nat.log2 1 : Int) = 0 := by decide
  have hneg : (-((n.log2 : Int) - 0)).toNat = 0 := by omega
  have hpos : ((n.log2 : Int) - 0).toNat = n.log2 := by omega
  have hle : 2 ^ n.log2 ≤ n := Nat.log2_self_le (by omega)
  unfold log2Ratio
  simp only [hlog, hneg, hpos]
  rw [if_neg]
  · omega
  · rw [Nat.shiftLeft_eq, Nat.shiftLeft_eq, Nat.one_mul, Nat.pow_zero, Nat.mul_one]
    omega

private theorem roundDiv_bounds (n d : Nat) :
    n / d ≤ roundDiv n d ∧ roundDiv n d ≤ n / d + 1 := by
  unfold roundDiv
  simp only
  split
  · omega
  · split <;> omega

private theorem roundDiv_one (n : Nat) : roundDiv n 1 = n := by
  unfold roundDiv
  simp only [Nat.mod_one, Nat.div_one, Nat.mul_zero]
  rfl

private theorem ofInt_eq {n : Nat} (hn : 0 < n) :
    ofInt n = ofMagnitude false
      (min (roundDiv (n <<< (52 - n.log2)) (1 <<< (n.log2 - 52)) +
        (n.log2 + 1022) * 2 ^ 52) infinityWord) := by
  have hneg : decide ((n : Int) < 0) = false := decide_eq_false (by omega)
  have hunit : max ((n.log2 : Int) - 52) (-1074) = (n.log2 : Int) - 52 := by omega
  have h₁ : (-((n.log2 : Int) - 52)).toNat = 52 - n.log2 := by omega
  have h₂ : ((n.log2 : Int) - 52).toNat = n.log2 - 52 := by omega
  have h₃ : ((n.log2 : Int) - 52 + 1074).toNat = n.log2 + 1022 := by omega
  unfold ofInt nearest
  rw [hneg, Int.natAbs_natCast, if_neg (by omega), log2Ratio_one hn]
  simp only [hunit, h₁, h₂, h₃]
  rfl

private theorem toNat_ofMagnitude {w : Nat} (hw : w ≤ infinityWord) :
    (ofMagnitude false w).bits.toNat = w := by
  unfold infinityWord hiddenBit at hw
  show w % 2 ^ 64 = w
  omega

/-- Integers of up to 53 digits are numbers. -/
private theorem ofInt_lt {n : Nat} (hn : 0 < n) (hlt : n < 2 ^ 53) :
    (ofInt n).IsAmount ∧ (ofInt n).units = n * oneUnits := by
  have hlog : n.log2 < 53 := (Nat.log2_lt (by omega)).mpr hlt
  have hlow : 2 ^ n.log2 ≤ n := Nat.log2_self_le (by omega)
  have hhigh : n < 2 ^ (n.log2 + 1) := Nat.lt_log2_self
  obtain ⟨m, hm⟩ : ∃ m, n * 2 ^ (52 - n.log2) = m := ⟨_, rfl⟩
  have hmlow : 2 ^ 52 ≤ m := by
    rw [← hm, show (52 : Nat) = n.log2 + (52 - n.log2) from by omega, Nat.pow_add]
    simp only [Nat.add_sub_cancel_left]
    exact Nat.mul_le_mul_right _ hlow
  have hmhigh : m < 2 ^ 53 := by
    rw [← hm, show (53 : Nat) = n.log2 + 1 + (52 - n.log2) from by omega, Nat.pow_add]
    exact Nat.mul_lt_mul_of_pos_right hhigh (Nat.two_pow_pos _)
  have hc : Canonical m ((n.log2 : Int) - 52) :=
    ⟨by omega, hmhigh, by omega, by omega, .inl hmlow⟩
  have hword : (ofInt n).bits.toNat = m + (n.log2 + 1022) * 2 ^ 52 := by
    have hsub : n.log2 - 52 = 0 := by omega
    rw [ofInt_eq hn, hsub, Nat.shiftLeft_eq, Nat.shiftLeft_zero, roundDiv_one, hm,
      toNat_ofMagnitude (Nat.min_le_right _ _)]
    unfold infinityWord hiddenBit
    omega
  have hwordOf : (ofInt n).bits.toNat = wordOf .positive m ((n.log2 : Int) - 52) := by
    rw [hword, wordOf]
    show _ = 0 * _ + _ + _
    omega
  obtain ⟨hamount, hunits⟩ := amount_of_word hc hwordOf
  refine ⟨hamount, ?_⟩
  have hexp : ((n.log2 : Int) - 52 + 1074).toNat = n.log2 + 1022 := by omega
  have hsum : 52 - n.log2 + (n.log2 + 1022) = fractionDigits := by
    rw [fractionDigits_eq]
    omega
  rw [hunits, scaled, ← hm, hexp, Nat.mul_assoc, ← Nat.pow_add, hsum, oneUnits]

/-- Natural numbers up to `2 ^ 53` are exact. -/
theorem ofInt_amount {n : Nat} (hn : n ≤ 2 ^ 53) :
    (ofInt n).IsAmount ∧ (ofInt n).units = n * oneUnits := by
  by_cases h0 : n = 0
  · subst h0
    have hz : ofInt (0 : Nat) = zero := by decide
    rw [hz, units_zero, Nat.zero_mul]
    exact ⟨isAmount_zero, rfl⟩
  · by_cases hlt : n < 2 ^ 53
    · exact ofInt_lt (by omega) hlt
    · have heq : n = 2 ^ 53 := by omega
      subst heq
      have hc : Canonical (2 ^ 52) 1 := by constructor <;> decide
      have hword : (ofInt (2 ^ 53 : Nat)).bits.toNat = wordOf .positive (2 ^ 52) 1 := by
        decide
      obtain ⟨hamount, hunits⟩ := amount_of_word hc hword
      have hexp : ((1 : Int) + 1074).toNat = fractionDigits + 1 := by
        rw [fractionDigits_eq]
        decide
      refine ⟨hamount, hunits.trans ?_⟩
      rw [scaled, hexp]
      exact two_pow_carry _

/-- A natural number too great to be exact is rounded to a whole number. -/
private theorem ofInt_ge {n : Nat} (hn : 2 ^ 53 ≤ n)
    (hw : (ofInt n).bits.toNat ≠ infinityWord) : (ofInt n).IsWhole := by
  have hlog : 53 ≤ n.log2 := (Nat.le_log2 (by omega)).mpr hn
  obtain ⟨m, hm⟩ : ∃ m, roundDiv n (2 ^ (n.log2 - 52)) = m := ⟨_, rfl⟩
  obtain ⟨hlow, hhigh⟩ := roundDiv_bounds n (2 ^ (n.log2 - 52))
  obtain ⟨hquot_lt, hquot_ge⟩ := quotient_bounds (show 0 < n by omega)
  have hword : (ofInt n).bits.toNat = m + (n.log2 + 1022) * 2 ^ 52 ∧
      m + (n.log2 + 1022) * 2 ^ 52 < infinityWord := by
    have hsub : 52 - n.log2 = 0 := by omega
    rw [ofInt_eq (by omega), hsub, Nat.shiftLeft_zero, Nat.shiftLeft_eq, Nat.one_mul, hm,
      toNat_ofMagnitude (Nat.min_le_right _ _)] at hw ⊢
    omega
  obtain ⟨hword, hinf⟩ := hword
  unfold infinityWord hiddenBit at hinf
  have hdvd : ∀ (k : Nat) (e : Int), 0 ≤ e → oneUnits ∣ scaled k e := by
    intro k e he
    have hexp : fractionDigits ≤ (e + 1074).toNat := by
      rw [fractionDigits_eq]
      omega
    exact Nat.dvd_trans (Nat.pow_dvd_pow 2 hexp) (Nat.dvd_mul_left _ _)
  -- the significand may have been rounded up to a power of two
  by_cases hlt : m < 2 ^ 53
  · have hc : Canonical m ((n.log2 : Int) - 52) :=
      ⟨by omega, hlt, by omega, by omega, .inl (by omega)⟩
    have hwordOf : (ofInt n).bits.toNat = wordOf .positive m ((n.log2 : Int) - 52) := by
      rw [hword, wordOf]
      show _ = 0 * _ + _ + _
      omega
    obtain ⟨hamount, hunits⟩ := amount_of_word hc hwordOf
    exact ⟨hamount, hunits ▸ hdvd _ _ (by omega)⟩
  · have hc : Canonical (2 ^ 52) ((n.log2 : Int) - 51) :=
      ⟨by decide, by decide, by omega, by omega, .inl (Nat.le_refl _)⟩
    have hwordOf : (ofInt n).bits.toNat =
        wordOf .positive (2 ^ 52) ((n.log2 : Int) - 51) := by
      rw [hword, wordOf]
      show _ = 0 * _ + _ + _
      omega
    obtain ⟨hamount, hunits⟩ := amount_of_word hc hwordOf
    exact ⟨hamount, hunits ▸ hdvd _ _ (by omega)⟩

theorem isWhole_ofInt {n : Nat} (hf : (ofInt n).isFinite = true) : (ofInt n).IsWhole := by
  by_cases hn : n ≤ 2 ^ 53
  · obtain ⟨hamount, hunits⟩ := ofInt_amount hn
    exact ⟨hamount, hunits ▸ Nat.dvd_mul_left _ _⟩
  · refine ofInt_ge (by omega) fun hw => ?_
    have heq : ofInt n = infinity := ext_toNat hw
    rw [heq] at hf
    exact absurd hf (by decide)

/-- Whole numbers are closed under subtraction, rounding included. -/
theorem IsWhole.sub (ha : a.IsWhole) (hb : b.IsWhole) (h : b.units ≤ a.units) :
    (a - b).IsWhole := by
  obtain ⟨hamount, hrounds⟩ := sub_amount ha.amount hb.amount h
  exact ⟨hamount, hrounds.dvd_of_dvd (Nat.dvd_sub ha.dvd hb.dvd)⟩

private theorem oneUnits_pos : 0 < oneUnits := Nat.two_pow_pos _

/-- A whole number that is no greater than an exact one is exact. -/
theorem IsWhole.exists_ofInt (ha : a.IsWhole) {n : Nat} (hn : n ≤ 2 ^ 53)
    (h : a.units ≤ (ofInt n).units) : ∃ k, k ≤ n ∧ a = ofInt k := by
  obtain ⟨k, hk⟩ := ha.dvd
  rw [(ofInt_amount hn).2, hk, Nat.mul_comm] at h
  have hle : k ≤ n := Nat.le_of_mul_le_mul_right h oneUnits_pos
  obtain ⟨hamount, hunits⟩ := ofInt_amount (show k ≤ 2 ^ 53 by omega)
  refine ⟨k, hle, ha.amount.eq_of_units hamount ?_⟩
  rw [hunits, hk, Nat.mul_comm]

section Exact

variable {m n : Nat}

theorem ofInt_le_iff (hm : m ≤ 2 ^ 53) (hn : n ≤ 2 ^ 53) : ofInt m ≤ ofInt n ↔ m ≤ n := by
  rw [le_iff (ofInt_amount hm).1 (ofInt_amount hn).1, (ofInt_amount hm).2,
    (ofInt_amount hn).2]
  exact Nat.mul_le_mul_right_iff oneUnits_pos

theorem ofInt_lt_iff (hm : m ≤ 2 ^ 53) (hn : n ≤ 2 ^ 53) : ofInt m < ofInt n ↔ m < n := by
  rw [lt_iff (ofInt_amount hm).1 (ofInt_amount hn).1, (ofInt_amount hm).2,
    (ofInt_amount hn).2]
  exact Nat.mul_lt_mul_right oneUnits_pos

/-- The subtraction of natural numbers up to `2 ^ 53` is exact. -/
theorem ofInt_sub (hm : m ≤ 2 ^ 53) (h : n ≤ m) :
    ofInt m - ofInt n = ofInt (m - n : Nat) := by
  obtain ⟨hma, hmu⟩ := ofInt_amount hm
  obtain ⟨hna, hnu⟩ := ofInt_amount (Nat.le_trans h hm)
  obtain ⟨hda, hdu⟩ := ofInt_amount (show m - n ≤ 2 ^ 53 by omega)
  have hle : (ofInt n).units ≤ (ofInt m).units := by
    rw [hmu, hnu]
    exact Nat.mul_le_mul_right _ h
  obtain ⟨hamount, hrounds⟩ := sub_amount hma hna hle
  have hdiff : (ofInt m).units - (ofInt n).units = (ofInt (m - n : Nat)).units := by
    rw [hmu, hnu, hdu, Nat.sub_mul]
  rw [hdiff] at hrounds
  exact hamount.eq_of_units hda (hrounds.exact hda.exact)

end Exact

theorem zero_eq_ofInt : zero = ofInt (0 : Nat) := by decide

theorem one_eq_ofInt : one = ofInt (1 : Nat) := by decide

theorem isAmount_one : one.IsAmount ∧ one.units = oneUnits := by
  have h := ofInt_amount (n := 1) (by decide)
  rw [Nat.one_mul] at h
  rw [one_eq_ofInt]
  exact h

/-- A natural number up to `2 ^ 53`. -/
def IsCount (a : Number) : Prop := ∃ n : Nat, n ≤ 2 ^ 53 ∧ a = ofInt n

theorem isCount_zero : zero.IsCount := ⟨0, by decide, zero_eq_ofInt⟩

theorem IsCount.isWhole (ha : a.IsCount) : a.IsWhole := by
  obtain ⟨n, hn, rfl⟩ := ha
  exact isWhole_ofInt (ofInt_amount hn).1.isFinite

end Whole

end Number

/-! ## Spending -/

namespace Budget

variable {b : Budget} {owed : Number}

/-- What is spent on a time is an amount no greater than it. -/
theorem spend_amount (b : Budget) (ho : owed.IsAmount) :
    (b.spend owed).1.IsAmount ∧ (b.spend owed).1.units ≤ owed.units := by
  show ((owed.minNum b.remaining).maxNum .zero).IsAmount ∧
    ((owed.minNum b.remaining).maxNum .zero).units ≤ owed.units
  by_cases hpos : .zero < owed.minNum b.remaining
  · rw [Number.maxNum_zero_of_pos hpos]
    unfold Number.minNum at hpos ⊢
    rw [ho.isNaN] at hpos ⊢
    simp only [Bool.false_eq_true, ↓reduceIte] at hpos ⊢
    by_cases hnan : b.remaining.isNaN = true
    · rw [if_pos hnan]
      exact ⟨ho, Nat.le_refl _⟩
    · rw [if_neg hnan] at hpos ⊢
      by_cases hlt : owed < b.remaining
      · rw [if_pos hlt]
        exact ⟨ho, Nat.le_refl _⟩
      · rw [if_neg hlt] at hpos ⊢
        rcases Number.amount_of_pos hpos with hr | hr
        · rw [Number.lt_iff ho hr] at hlt
          exact ⟨hr, by omega⟩
        · rw [hr] at hlt
          exact absurd ho.lt_infinity hlt
  · rw [Number.maxNum_zero_of_not_pos hpos, Number.units_zero]
    exact ⟨Number.isAmount_zero, Nat.zero_le _⟩

/-- What is left of a time is an amount. -/
theorem left_amount (b : Budget) (ho : owed.IsAmount) :
    (owed - (b.spend owed).1).IsAmount := by
  obtain ⟨hspent, hle⟩ := b.spend_amount ho
  exact (Number.sub_amount ho hspent hle).1

/-- Of two amounts the lesser is spent. -/
theorem spend_eq (ho : owed.IsAmount) (hr : b.remaining.IsAmount) :
    (b.spend owed).1 = if owed.units < b.remaining.units then owed else b.remaining := by
  have hmin : owed.minNum b.remaining =
      if owed.units < b.remaining.units then owed else b.remaining := by
    unfold Number.minNum
    rw [ho.isNaN, hr.isNaN]
    simp only [Bool.false_eq_true, ↓reduceIte, Number.lt_iff ho hr]
  show (owed.minNum b.remaining).maxNum .zero = _
  rw [hmin]
  split
  · exact ho.maxNum_zero
  · exact hr.maxNum_zero

section Exact

variable {r : Nat} (hr : r ≤ 2 ^ 53) (hb : b.remaining = .ofInt r)

include hr hb

theorem canStep_iff : b.canStep = true ↔ 1 ≤ r := by
  unfold canStep
  rw [decide_eq_true_iff, hb, Number.one_eq_ofInt, Number.ofInt_le_iff (by decide) hr]

theorem hasTime_iff : b.hasTime = true ↔ 0 < r := by
  unfold hasTime
  rw [decide_eq_true_iff, hb, Number.zero_eq_ofInt, Number.ofInt_lt_iff (by decide) hr]

theorem payStep_ofInt (h : 1 ≤ r) : b.payStep.remaining = .ofInt (r - 1 : Nat) := by
  show b.remaining - .one = _
  rw [hb, Number.one_eq_ofInt, Number.ofInt_sub hr h]

end Exact

/-- Times and budgets that are natural numbers up to `2 ^ 53` are spent exactly. -/
theorem spend_ofInt {m r : Nat} (hm : m ≤ 2 ^ 53) (hr : r ≤ 2 ^ 53)
    (hb : b.remaining = .ofInt r) :
    .ofInt m - (b.spend (.ofInt m)).1 = .ofInt (m - r : Nat) ∧
      (b.spend (.ofInt m)).2.remaining = .ofInt (r - m : Nat) := by
  have hspent : (b.spend (.ofInt m)).1 = .ofInt (min m r : Nat) := by
    have hamount : b.remaining.IsAmount := hb ▸ (Number.ofInt_amount hr).1
    have hiff := Number.ofInt_lt_iff hm hr
    rw [Number.lt_iff (Number.ofInt_amount hm).1 (Number.ofInt_amount hr).1] at hiff
    rw [spend_eq (Number.ofInt_amount hm).1 hamount, hb]
    by_cases hlt : m < r
    · rw [if_pos (hiff.mpr hlt), Nat.min_eq_left (Nat.le_of_lt hlt)]
    · rw [if_neg fun h => hlt (hiff.mp h), Nat.min_eq_right (Nat.not_lt.mp hlt)]
  constructor
  · rw [hspent, Number.ofInt_sub hm (Nat.min_le_left m r)]
    congr 2
    omega
  · show b.remaining - (b.spend (.ofInt m)).1 = _
    rw [hspent, hb, Number.ofInt_sub hr (Nat.min_le_right m r)]
    congr 2
    omega

/-- Spending whole numbers leaves whole numbers. -/
theorem spend_isWhole (ho : owed.IsCount) (hr : b.remaining.IsWhole) :
    (owed - (b.spend owed).1).IsCount ∧ (b.spend owed).2.remaining.IsWhole := by
  obtain ⟨n, hn, rfl⟩ := ho
  have howed := (Number.ofInt_amount hn).1
  by_cases hlt : (Number.ofInt n).units < b.remaining.units
  · -- there is more than enough
    have hspent : (b.spend (.ofInt n)).1 = .ofInt n := by
      rw [spend_eq howed hr.amount, if_pos hlt]
    refine ⟨⟨0, by decide, ?_⟩, ?_⟩
    · rw [hspent, Number.ofInt_sub hn (Nat.le_refl n), Nat.sub_self]
    · show (b.remaining - (b.spend (.ofInt n)).1).IsWhole
      rw [hspent]
      exact hr.sub (Number.isWhole_ofInt howed.isFinite) (Nat.le_of_lt hlt)
  · -- what is left of the budget is no more than the time, and so it is exact
    obtain ⟨r, hrn, hb⟩ := hr.exists_ofInt hn (Nat.not_lt.mp hlt)
    obtain ⟨hleft, hremaining⟩ := spend_ofInt hn (Nat.le_trans hrn hn) hb
    rw [hleft, hremaining]
    exact ⟨⟨n - r, by omega, rfl⟩, Number.isWhole_ofInt
      (Number.ofInt_amount (show r - n ≤ 2 ^ 53 by omega)).1.isFinite⟩

/-- A step leaves a whole number of a whole number. -/
theorem payStep_isWhole (hb : b.canStep = true) (hr : b.remaining.IsWhole) :
    b.payStep.remaining.IsWhole := by
  have hcount : Number.one.IsCount := ⟨1, by decide, Number.one_eq_ofInt⟩
  have hle : Number.one ≤ b.remaining := of_decide_eq_true hb
  exact hr.sub hcount.isWhole ((Number.le_iff hcount.isWhole.amount hr.amount).mp hle)

/-- An endless budget pays for every time, and stays what it is. -/
theorem spend_infinity (ho : owed.IsAmount) (hr : b.remaining = .infinity) :
    (b.spend owed).1 = owed ∧ (b.spend owed).2.remaining = .infinity := by
  have hmin : owed.minNum b.remaining = owed := by
    unfold Number.minNum
    rw [hr, ho.isNaN, if_pos ho.lt_infinity]
    rfl
  have hspent : (b.spend owed).1 = owed := by
    show (owed.minNum b.remaining).maxNum .zero = owed
    rw [hmin, ho.maxNum_zero]
  refine ⟨hspent, ?_⟩
  show b.remaining - (b.spend owed).1 = .infinity
  rw [hspent, hr, ho.infinity_sub]

end Budget

end ActorScript
