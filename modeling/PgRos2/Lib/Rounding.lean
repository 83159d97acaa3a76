import Mathlib

/-!
# When rounding overflows

Lean's model of floating point rounds a mantissa and an exponent to a format, to nearest and ties to
even, and packing the result gives an infinity when the exponent is out of the format's range. Here
is when that happens: from the midpoint between the largest finite number and the next power of two
on (`isFinite_round_iff`). The numbers of a format lie below (`abs_value_unpack_le`).
-/

namespace Lib

open Float.Model Float.Model.UnpackedFloat

/-- What `n` shifts to the right leave: twice the mantissa and the round bit are the quotient, and
the sticky bit says whether there is a remainder. -/
theorem shift_spec (m : ℕ) : ∀ n : ℕ,
    let em := (⟨m, false, false⟩ : ExtendedMantissa) >>> n
    ∃ rest < 2 ^ n, 2 * m = (2 * em.mantissa + em.roundBit.toNat) * 2 ^ n + rest
      ∧ (em.stickyBit = true ↔ rest ≠ 0)
  | 0 => ⟨0, by simp, by simp [HShiftRight.hShiftRight, Nat.repeat], by
      simp [HShiftRight.hShiftRight, Nat.repeat]⟩
  | n + 1 => by
    intro em
    obtain ⟨rest, hlt, heq, hsticky⟩ := shift_spec m n
    set em' := (⟨m, false, false⟩ : ExtendedMantissa) >>> n
    have hem : em = em'.shiftRightOne := rfl
    have hdiv : 2 * (em'.mantissa / 2) + em'.mantissa % 2 = em'.mantissa := Nat.div_add_mod _ 2
    have hbit : (em'.mantissa % 2 != 0).toNat = em'.mantissa % 2 := by
      rcases Nat.mod_two_eq_zero_or_one em'.mantissa with h | h <;> simp [h]
    refine ⟨em'.roundBit.toNat * 2 ^ n + rest, ?_, ?_, ?_⟩
    · have := em'.roundBit.toNat_le
      have : em'.roundBit.toNat * 2 ^ n ≤ 1 * 2 ^ n := Nat.mul_le_mul_right _ this
      rw [pow_succ]
      omega
    · rw [hem, heq]
      simp only [ExtendedMantissa.shiftRightOne, hbit, hdiv]
      ring
    · rw [hem]
      simp only [ExtendedMantissa.shiftRightOne, Bool.or_eq_true, hsticky]
      cases em'.roundBit <;> simp

theorem shift_mantissa (m n : ℕ) :
    ((⟨m, false, false⟩ : ExtendedMantissa) >>> n).mantissa = m / 2 ^ n := by
  obtain ⟨rest, hlt, heq, -⟩ := shift_spec m n
  set em := (⟨m, false, false⟩ : ExtendedMantissa) >>> n
  have hb : em.roundBit.toNat * 2 ^ n ≤ 1 * 2 ^ n := Nat.mul_le_mul_right _ em.roundBit.toNat_le
  have hsplit : 2 * m = 2 * (em.mantissa * 2 ^ n) + em.roundBit.toNat * 2 ^ n + rest := by
    rw [heq]
    ring
  symm
  apply Nat.div_eq_of_lt_le
  · omega
  · rw [add_mul]
    omega

theorem rounded_eq (em : ExtendedMantissa) :
    em.roundedMantissa = em.mantissa ∨ em.roundedMantissa = em.mantissa + 1 := by
  rcases em with ⟨m, _ | _, _ | _⟩
  · exact .inl rfl
  · exact .inl rfl
  · have h : (⟨m, true, false⟩ : ExtendedMantissa).roundedMantissa = m + m % 2 := rfl
    simp only []
    omega
  · exact .inr rfl

/-- Rounding carries by one at most. -/
theorem rounded_le {m n k : ℕ} (hm : m < k * 2 ^ n) :
    ((⟨m, false, false⟩ : ExtendedMantissa) >>> n).roundedMantissa ≤ k := by
  have hdiv := (Nat.div_lt_iff_lt_mul (Nat.two_pow_pos n)).2 hm
  have hfloor := shift_mantissa m n
  rcases rounded_eq ((⟨m, false, false⟩ : ExtendedMantissa) >>> n) with h | h <;> omega

/-- Below the carry out of an odd mantissa: up to the midpoint, which a tie rounds away from. -/
theorem rounded_le_iff {m n K : ℕ} (hodd : K % 2 = 1) (hm : m < (K + 1) * 2 ^ n) :
    ((⟨m, false, false⟩ : ExtendedMantissa) >>> n).roundedMantissa ≤ K
      ↔ 2 * m < (2 * K + 1) * 2 ^ n := by
  obtain ⟨rest, hlt, heq, hsticky⟩ := shift_spec m n
  set em := (⟨m, false, false⟩ : ExtendedMantissa) >>> n
  have hK : em.mantissa ≤ K := by
    have := (Nat.div_lt_iff_lt_mul (Nat.two_pow_pos n)).2 hm
    have : em.mantissa = m / 2 ^ n := shift_mantissa m n
    omega
  rcases Nat.lt_or_ge em.mantissa K with hlt' | hge
  · -- the carry does not reach `K + 1`, and twice `m` is below `2 * K` quotients
    have hle : em.roundedMantissa ≤ K := by rcases rounded_eq em with h | h <;> omega
    have hb := em.roundBit.toNat_le
    have : (2 * em.mantissa + em.roundBit.toNat) * 2 ^ n ≤ (2 * K) * 2 ^ n - 2 ^ n := by
      rw [← Nat.sub_one_mul]
      exact Nat.mul_le_mul_right _ (by omega)
    have : 2 ^ n ≤ 2 * K * 2 ^ n := Nat.le_mul_of_pos_left _ (by omega)
    have : (2 * K + 1) * 2 ^ n = 2 * K * 2 ^ n + 2 ^ n := by ring
    exact iff_of_true hle (by omega)
  · obtain rfl : em.mantissa = K := le_antisymm hK hge
    have : (2 * em.mantissa + 1) * 2 ^ n = 2 * em.mantissa * 2 ^ n + 2 ^ n := by ring
    rcases hem : em with ⟨k, r, s⟩
    rw [hem] at heq this hodd hsticky
    simp only [] at heq this hodd hsticky
    -- without the round bit the rest is below half a quotient, with it the odd mantissa goes up
    rcases r with _ | _
    · have h : (⟨k, false, s⟩ : ExtendedMantissa).roundedMantissa = k := by cases s <;> rfl
      simp at heq
      simp only [h]
      omega
    · have h : (⟨k, true, s⟩ : ExtendedMantissa).roundedMantissa = k + 1 := by
        cases s
        · exact congrArg (k + ·) hodd
        · rfl
      simp at heq
      simp only [h]
      omega

/-- The exponent an infinity is packed from on. -/
def overflowExponent (spec : Format) : ℤ := spec.exponentBias + 2 - spec.mantissaBits

/-- The midpoint between the largest finite number of a format and the next power of two. -/
def overflow (spec : Format) : ℚ :=
  (2 ^ (spec.mantissaBits + 1) - 1) * 2 ^ ((spec.exponentBias : ℤ) - spec.mantissaBits)

theorem two_pow_exponentBits (spec : Format) :
    2 ^ spec.exponentBits = 2 * spec.exponentBias + 2 := by
  obtain ⟨k, hk⟩ : ∃ k, spec.exponentBits = k + 1 := ⟨spec.exponentBits - 1, by
    have := spec.he
    omega⟩
  have : 1 ≤ 2 ^ k := Nat.one_le_two_pow
  unfold Format.exponentBias
  rw [hk, pow_succ, Nat.add_sub_cancel]
  omega

theorem two_pow_mantissaBits (spec : Format) :
    2 ^ spec.mantissaBits = 2 * 2 ^ spec.mantissaBitsWithoutImplicit := by
  unfold Format.mantissaBits
  rw [pow_add, pow_one]

theorem minExponent_eq (spec : Format) :
    spec.minExponent = 2 - spec.exponentBias - spec.mantissaBits := by
  have : 1 ≤ 2 ^ (spec.exponentBits - 1) := Nat.one_le_two_pow
  unfold Format.minExponent Format.exponentBias
  push_cast [Nat.cast_sub this]
  ring

/-- A packed number is finite unless its exponent is all ones. -/
theorem isFinite_unpack_iff (spec : Format) (b : BitVec spec.numBits) :
    (unpack spec b).isFinite = true ↔ unpackExponent b ≠ -1#_ := by
  unfold UnpackedFloat.unpack
  simp only []
  split_ifs with h1 h2 h3 h4 <;> simp [UnpackedFloat.isFinite, h1]

theorem isFinite_pack_finite (spec : Format) (s : Sign) {m : ℕ} {e : ℤ} (hm : 0 < m) :
    (unpack spec (pack spec (.finite s m e hm))).isFinite = true ↔ e < overflowExponent spec := by
  have hbits := two_pow_exponentBits spec
  have hpos := spec.he
  have hM : (spec.mantissaBits : ℤ) = 1 + spec.mantissaBitsWithoutImplicit := by
    simp [Format.mantissaBits]
  rw [isFinite_unpack_iff]
  unfold UnpackedFloat.pack overflowExponent
  simp only []
  split_ifs with h1 h2
  · simp [packedInfinity]
    omega
  · have hlt : (e + spec.exponentBias + spec.mantissaBitsWithoutImplicit).toNat
        < 2 ^ spec.exponentBits - 1 := by omega
    rw [unpackExponent_packComponents, ne_eq, ← BitVec.toNat_inj]
    simp only [BitVec.toNat_ofNat, BitVec.neg_one_eq_allOnes, BitVec.toNat_allOnes]
    rw [Nat.mod_eq_of_lt (by omega)]
    omega
  · have hne : ¬ (BitVec.ofNat spec.exponentBits 0 = -1#_) := by
      rw [← BitVec.toNat_inj]
      simp only [BitVec.toNat_zero, BitVec.neg_one_eq_allOnes, BitVec.toNat_allOnes]
      omega
    rw [unpackExponent_packComponents]
    simp only [ne_eq, hne, not_false_eq_true, true_iff]
    omega

theorem isFinite_pack_zero (spec : Format) (s : Sign) :
    (unpack spec (pack spec (.zero s))).isFinite = true := by
  have hbits := two_pow_exponentBits spec
  have hzero : (0 : BitVec spec.exponentBits).toNat = 0 := BitVec.toNat_zero
  rw [isFinite_unpack_iff]
  unfold UnpackedFloat.pack packedZero
  rw [unpackExponent_packComponents, ne_eq, ← BitVec.toNat_inj, hzero]
  simp only [BitVec.neg_one_eq_allOnes, BitVec.toNat_allOnes]
  omega

/-- A mantissa within the format needs no shift. -/
theorem target_le_of_lt {spec : Format} {r : ℕ} {t : ℤ} (hr : r < 2 ^ spec.mantissaBits)
    (ht : spec.minExponent ≤ t) : spec.targetExponent (totalExponent r t) ≤ t := by
  have hlog : r.log2 < spec.mantissaBits := by
    rcases Nat.eq_zero_or_pos r with rfl | hpos
    · simp [Format.mantissaBits]
    · exact (Nat.log2_lt hpos.ne').2 hr
  unfold Format.targetExponent totalExponent
  omega

/-- A mantissa that was carried out of the format needs one. -/
theorem target_two_pow {spec : Format} {t : ℤ} (ht : spec.minExponent ≤ t) :
    spec.targetExponent (totalExponent (2 ^ spec.mantissaBits) t) = t + 1 := by
  unfold Format.targetExponent totalExponent
  rw [Nat.log2_two_pow]
  omega

/-- Rounding shifts to the target, rounds the mantissa and shifts again, by one where the mantissa
was carried. -/
theorem roundWithAccuracy_eq {spec : Format} (s : Sign) {m : ℕ} {e t : ℤ} {r : ℕ} (he : e ≤ t)
    (ht : spec.targetExponent (totalExponent m e) = t)
    (hr : ((⟨m, false, false⟩ : ExtendedMantissa) >>> (t - e).toNat).roundedMantissa = r)
    (hle : r ≤ 2 ^ spec.mantissaBits) :
    ∃ k : ℕ, (k = 0 ↔ r = 0) ∧ roundWithAccuracy spec s m e .exact = if h : k = 0 then .zero s
      else .finite s k (if r < 2 ^ spec.mantissaBits then t else t + 1) (Nat.pos_of_ne_zero h) := by
  have hmin : spec.minExponent ≤ t := by
    rw [← ht]
    exact le_max_right _ _
  have hfirst : shiftToTargetExponent spec m e .exact
      = ((⟨m, false, false⟩ : ExtendedMantissa) >>> (t - e).toNat, t) := by
    unfold shiftToTargetExponent shiftToExponent
    simp only [ht, ExtendedMantissa.ofMantissaAndAccuracy, Prod.mk.injEq, true_and]
    omega
  obtain ⟨last, hlast⟩ : ∃ last, shiftToTargetExponent spec r t .exact = last := ⟨_, rfl⟩
  have hdef : roundWithAccuracy spec s m e .exact = if h : last.1.mantissa = 0 then .zero s
      else .finite s last.1.mantissa last.2 (Nat.pos_of_ne_zero h) := by
    unfold roundWithAccuracy
    simp only [hfirst, hr, hlast]
  refine ⟨last.1.mantissa, ?_⟩
  rcases hle.lt_or_eq with hlt | heq
  · have hsecond : last = (⟨r, false, false⟩, t) := by
      have hle := target_le_of_lt hlt hmin
      have hn : (spec.targetExponent (totalExponent r t) - t).toNat = 0 := by omega
      rw [← hlast]
      unfold shiftToTargetExponent shiftToExponent
      simp [hn, ExtendedMantissa.ofMantissaAndAccuracy, HShiftRight.hShiftRight, Nat.repeat]
    subst hsecond
    exact ⟨Iff.rfl, by simpa only [if_pos hlt] using hdef⟩
  · have hsecond : last = (⟨r / 2, r % 2 != 0, false⟩, t + 1) := by
      have hn : spec.targetExponent (totalExponent r t) = t + 1 := by rw [heq, target_two_pow hmin]
      rw [← hlast]
      unfold shiftToTargetExponent shiftToExponent
      simp [hn, ExtendedMantissa.ofMantissaAndAccuracy, HShiftRight.hShiftRight, Nat.repeat,
        ExtendedMantissa.shiftRightOne]
    have hpow := two_pow_mantissaBits spec
    have hpos : 0 < 2 ^ spec.mantissaBitsWithoutImplicit := Nat.two_pow_pos _
    have hhalf : r / 2 = 0 ↔ r = 0 := by omega
    subst hsecond
    exact ⟨hhalf, by simpa only [if_neg heq.not_lt] using hdef⟩

/-- The exponent decides: one more than the target where the mantissa was carried. -/
theorem isFinite_round_exponent {spec : Format} (s : Sign) {m : ℕ} {e t : ℤ} {r : ℕ} (he : e ≤ t)
    (ht : spec.targetExponent (totalExponent m e) = t)
    (hr : ((⟨m, false, false⟩ : ExtendedMantissa) >>> (t - e).toNat).roundedMantissa = r)
    (hle : r ≤ 2 ^ spec.mantissaBits) :
    (unpack spec (pack spec (roundWithAccuracy spec s m e .exact))).isFinite = true
      ↔ r = 0 ∨ (if r < 2 ^ spec.mantissaBits then t else t + 1) < overflowExponent spec := by
  obtain ⟨k, hk, hround⟩ := roundWithAccuracy_eq s he ht hr hle
  rw [hround]
  by_cases hzero : k = 0
  · rw [dif_pos hzero]
    exact iff_of_true (isFinite_pack_zero spec s) (.inl (hk.1 hzero))
  · rw [dif_neg hzero, isFinite_pack_finite]
    simp only [mt hk.2 hzero, false_or]

/-- The numbers below a power of two, by the position of their first digit. -/
theorem mul_zpow_lt_iff {m : ℕ} (hm : 0 < m) (e k : ℤ) :
    (m : ℚ) * 2 ^ e < 2 ^ k ↔ totalExponent m e ≤ k := by
  have hpos : (0 : ℚ) < 2 ^ e := by positivity
  unfold totalExponent
  constructor
  · intro h
    by_contra hk
    have hlog : ((2 : ℚ) ^ m.log2) ≤ m := by exact_mod_cast Nat.log2_self_le hm.ne'
    have hle : (2 : ℚ) ^ k ≤ 2 ^ (m.log2 + e : ℤ) := zpow_le_zpow_right₀ (by norm_num) (by omega)
    rw [zpow_add₀ (by norm_num), zpow_natCast] at hle
    have := mul_le_mul_of_nonneg_right hlog hpos.le
    linarith
  · intro h
    have hlog : (m : ℚ) < 2 ^ (m.log2 + 1) := by exact_mod_cast Nat.lt_log2_self
    have hle : (2 : ℚ) ^ (m.log2 + 1 + e : ℤ) ≤ 2 ^ k := zpow_le_zpow_right₀ (by norm_num) h
    rw [zpow_add₀ (by norm_num), show ((m.log2 : ℤ) + 1) = ((m.log2 + 1 : ℕ) : ℤ) by simp,
      zpow_natCast] at hle
    have := mul_lt_mul_of_pos_right hlog hpos
    linarith

/-- The midpoint lies strictly between the two powers of two next to it. -/
theorem overflow_bounds {spec : Format} :
    (2 : ℚ) ^ (spec.exponentBias : ℤ) < overflow spec
      ∧ overflow spec < 2 ^ (spec.exponentBias + 1 : ℤ) := by
  have hpos : (0 : ℚ) < 2 ^ ((spec.exponentBias : ℤ) - spec.mantissaBits) := by positivity
  have hbias : (2 : ℚ) ^ (spec.exponentBias : ℤ)
      = 2 ^ spec.mantissaBits * 2 ^ ((spec.exponentBias : ℤ) - spec.mantissaBits) := by
    rw [← zpow_natCast, ← zpow_add₀ (by norm_num)]
    congr 1
    omega
  have hM : (1 : ℚ) < 2 ^ spec.mantissaBits :=
    one_lt_pow₀ (by norm_num) (by simp [Format.mantissaBits])
  rw [zpow_add_one₀ (by norm_num), hbias]
  unfold overflow
  rw [pow_succ]
  constructor <;> nlinarith

/-- Shifted to the target, a mantissa is within the format. -/
theorem mantissa_lt {spec : Format} {m n : ℕ} {e t : ℤ} (hm : 0 < m)
    (ht : spec.targetExponent (totalExponent m e) = t) (hn : t - e = n) :
    m < 2 ^ spec.mantissaBits * 2 ^ n := by
  have h := (mul_zpow_lt_iff hm 0 (spec.mantissaBits + n : ℤ)).2 (by
    unfold Format.targetExponent totalExponent at ht
    unfold totalExponent
    omega)
  rw [zpow_zero, mul_one, ← Nat.cast_add, zpow_natCast] at h
  rw [← pow_add]
  exact_mod_cast h

/-- At the last exponent, the mantissas whose double is below `2 * K + 1` make the numbers below the
midpoint. -/
theorem below_midpoint_iff {spec : Format} {m n K : ℕ} {e : ℤ} (hK : K + 1 = 2 ^ spec.mantissaBits)
    (he : e + n = overflowExponent spec - 1) :
    2 * m < (2 * K + 1) * 2 ^ n ↔ (m : ℚ) * 2 ^ e < overflow spec := by
  have hscale : (2 : ℚ) ^ e * 2 ^ n = 2 * 2 ^ ((spec.exponentBias : ℤ) - spec.mantissaBits) := by
    rw [← zpow_natCast, ← zpow_add₀ (by norm_num), ← zpow_one_add₀ (by norm_num)]
    congr 1
    unfold overflowExponent at he
    omega
  have hmid : 2 * m < (2 * K + 1) * 2 ^ n ↔ (2 * m : ℚ) < (2 * K + 1) * 2 ^ n := by
    exact_mod_cast Iff.rfl
  have hK' : (K : ℚ) + 1 = 2 ^ spec.mantissaBits := by exact_mod_cast hK
  have hP : (0 : ℚ) < 2 ^ ((spec.exponentBias : ℤ) - spec.mantissaBits) := by positivity
  have hnumber : (m : ℚ) * 2 ^ e * 2 ^ n
      = 2 * m * 2 ^ ((spec.exponentBias : ℤ) - spec.mantissaBits) := by
    rw [mul_assoc, hscale]
    ring
  have hover : overflow spec * 2 ^ n
      = (2 * K + 1) * 2 ^ n * 2 ^ ((spec.exponentBias : ℤ) - spec.mantissaBits) := by
    unfold overflow
    rw [pow_succ, ← hK']
    ring
  rw [hmid, ← mul_lt_mul_iff_left₀ hP, ← hnumber, ← hover]
  exact mul_lt_mul_iff_left₀ (by positivity)

/-- Rounding a number whose exponent is at most the target: it is finite unless it is too large. -/
theorem isFinite_roundWithAccuracy_iff {spec : Format} (hbias : 1 ≤ spec.exponentBias) (s : Sign)
    {m : ℕ} {e : ℤ} (hm : 0 < m) (he : e ≤ spec.targetExponent (totalExponent m e)) :
    (unpack spec (pack spec (roundWithAccuracy spec s m e .exact))).isFinite = true
      ↔ (m : ℚ) * 2 ^ e < overflow spec := by
  have hmin := minExponent_eq spec
  obtain ⟨K, hK⟩ : ∃ K, K + 1 = 2 ^ spec.mantissaBits :=
    ⟨2 ^ spec.mantissaBits - 1, Nat.sub_add_cancel Nat.one_le_two_pow⟩
  have hodd : K % 2 = 1 := by
    have := two_pow_mantissaBits spec
    omega
  obtain ⟨t, ht⟩ : ∃ t, spec.targetExponent (totalExponent m e) = t := ⟨_, rfl⟩
  obtain ⟨n, hn⟩ : ∃ n : ℕ, t - e = n := Int.eq_ofNat_of_zero_le (by omega)
  have htop : totalExponent m e ≤ t + spec.mantissaBits := by
    unfold Format.targetExponent at ht
    omega
  have hlt : m < (K + 1) * 2 ^ n := by
    rw [hK]
    exact mantissa_lt hm ht hn
  have hmid := rounded_le_iff hodd hlt
  have hround := rounded_le hlt
  have hfloor := shift_mantissa m n
  have hcarry := rounded_eq ((⟨m, false, false⟩ : ExtendedMantissa) >>> n)
  generalize hr : ((⟨m, false, false⟩ : ExtendedMantissa) >>> n).roundedMantissa = r
    at hmid hround hcarry
  have hexp := isFinite_round_exponent s (t := t) (r := r) (by omega) ht
    (by rw [hn, Int.toNat_natCast]; exact hr) (by omega)
  obtain ⟨hlow, hhigh⟩ := @overflow_bounds spec
  rw [hexp]
  rcases lt_trichotomy t (overflowExponent spec - 1) with hlt' | heq | hgt
  · -- not even the carry gets there
    refine iff_of_true (.inr ?_) (lt_trans ((mul_zpow_lt_iff hm e _).2 ?_) hlow)
    · split_ifs <;> omega
    · unfold overflowExponent at hlt'
      omega
  · -- the mantissas below the carry are those below the midpoint
    have hside : (r = 0 ∨ (if r < 2 ^ spec.mantissaBits then t else t + 1) < overflowExponent spec)
        ↔ r ≤ K := by
      split_ifs <;> omega
    rw [hside, hmid]
    exact below_midpoint_iff hK (by omega)
  · -- the number has too many digits for the format
    have htotal : totalExponent m e = t + spec.mantissaBits := by
      unfold Format.targetExponent at ht
      unfold overflowExponent at hgt
      omega
    have hr0 : r ≠ 0 := by
      intro hr0
      have h0 : m < 2 ^ n := (Nat.div_eq_zero_iff_lt (Nat.two_pow_pos n)).1 (by omega)
      have hlog := (Nat.log2_lt hm.ne').2 h0
      have hM := spec.hm
      unfold totalExponent at htotal
      simp only [Format.mantissaBits] at htotal
      omega
    have hge : ¬ (m : ℚ) * 2 ^ e < 2 ^ (spec.exponentBias + 1 : ℤ) := by
      rw [mul_zpow_lt_iff hm]
      unfold overflowExponent at hgt
      omega
    refine iff_of_false ?_ fun h => hge (h.trans hhigh)
    split_ifs <;> omega

/-- Rounding first brings the exponent down to the target, which changes no value. -/
theorem round_eq (spec : Format) (s : Sign) {m : ℕ} (e : ℤ) (hm : 0 < m) :
    ∃ (m' : ℕ) (e' : ℤ), 0 < m' ∧ totalExponent m' e' = totalExponent m e
      ∧ (m' : ℚ) * 2 ^ e' = m * 2 ^ e ∧ e' ≤ spec.targetExponent (totalExponent m' e')
      ∧ round spec s m e = roundWithAccuracy spec s m' e' .exact := by
  obtain ⟨k, hk⟩ : ∃ k, (e - spec.targetExponent (totalExponent m e)).toNat = k := ⟨_, rfl⟩
  have hpos : 0 < m * 2 ^ k := Nat.mul_pos hm (Nat.two_pow_pos k)
  have htotal : totalExponent (m * 2 ^ k) (e - k) = totalExponent m e := by
    have hlog : (m * 2 ^ k).log2 = m.log2 + k := by
      rw [Nat.log2_eq_iff hpos.ne', pow_add, Nat.add_right_comm, pow_add]
      exact ⟨Nat.mul_le_mul_right _ (Nat.log2_self_le hm.ne'),
        Nat.mul_lt_mul_of_pos_right Nat.lt_log2_self (Nat.two_pow_pos k)⟩
    unfold totalExponent
    rw [hlog]
    push_cast
    ring
  refine ⟨m * 2 ^ k, e - k, hpos, htotal, ?_, by rw [htotal]; omega, ?_⟩
  · rw [zpow_sub₀ (by norm_num), zpow_natCast]
    push_cast
    rw [mul_assoc, mul_div_cancel₀ _ (by positivity)]
  · unfold UnpackedFloat.round decreaseExponent
    simp only [hk, Nat.shiftLeft_eq]

/-- Rounding a positive number, whatever its exponent: it is finite up to the midpoint. -/
theorem isFinite_round_iff {spec : Format} (hbias : 1 ≤ spec.exponentBias) (s : Sign)
    {m : ℕ} (e : ℤ) (hm : 0 < m) :
    (unpack spec (pack spec (round spec s m e))).isFinite = true
      ↔ (m : ℚ) * 2 ^ e < overflow spec := by
  obtain ⟨m', e', hm', -, hvalue, he', hround⟩ := round_eq spec s e hm
  rw [hround, ← hvalue]
  exact isFinite_roundWithAccuracy_iff hbias s hm' he'

/-- Rounding an integer and an exponent. -/
theorem isFinite_normalize_iff {spec : Format} (hbias : 1 ≤ spec.exponentBias) (i e : ℤ)
    (z : Sign) :
    (unpack spec (pack spec (UnpackedFloat.normalize spec i e z))).isFinite = true
      ↔ |(i : ℚ)| * 2 ^ e < overflow spec := by
  unfold UnpackedFloat.normalize
  rcases lt_trichotomy i 0 with hneg | rfl | hpos
  · have hcast : (((-i).toNat : ℕ) : ℚ) = |(i : ℚ)| := by
      rw [abs_of_neg (by exact_mod_cast hneg)]
      exact_mod_cast Int.toNat_of_nonneg (by omega)
    rw [Int.compare_eq_lt.2 hneg, ← hcast]
    exact isFinite_round_iff hbias _ e (by omega)
  · rw [Int.compare_eq_eq.2 rfl, Int.cast_zero, abs_zero, zero_mul]
    refine iff_of_true (isFinite_pack_zero spec z) (lt_trans ?_ overflow_bounds.1)
    positivity
  · have hcast : ((i.toNat : ℕ) : ℚ) = |(i : ℚ)| := by
      rw [abs_of_pos (by exact_mod_cast hpos)]
      exact_mod_cast Int.toNat_of_nonneg (by omega)
    rw [Int.compare_eq_gt.2 hpos, ← hcast]
    exact isFinite_round_iff hbias _ e (by omega)

/-- The number an unpacked float stands for. -/
def value : UnpackedFloat → ℚ
  | .finite s m e _ => s.apply m * 2 ^ e
  | _ => 0

/-- The largest finite number of a format. -/
def largest (spec : Format) : ℚ :=
  (2 ^ spec.mantissaBits - 1) * 2 ^ ((spec.exponentBias : ℤ) + 1 - spec.mantissaBits)

theorem abs_value_finite (s : Sign) {m : ℕ} (e : ℤ) (hm : 0 < m) :
    |value (.finite s m e hm)| = m * 2 ^ e := by
  have hpos : (0 : ℚ) < 2 ^ e := by positivity
  cases s <;> simp [value, Sign.apply, abs_mul, abs_of_pos hpos]

theorem largest_lt_overflow (spec : Format) : largest spec < overflow spec := by
  have hpos : (0 : ℚ) < 2 ^ ((spec.exponentBias : ℤ) - spec.mantissaBits) := by positivity
  unfold largest overflow
  rw [add_sub_right_comm, zpow_add_one₀ (by norm_num), pow_succ]
  linarith

theorem two_pow_le_largest (spec : Format) : (2 : ℚ) ^ (spec.exponentBias : ℤ) ≤ largest spec := by
  have hpos : (0 : ℚ) < 2 ^ ((spec.exponentBias : ℤ) + 1 - spec.mantissaBits) := by positivity
  have hsplit : (2 : ℚ) ^ (spec.exponentBias : ℤ) = 2 ^ spec.mantissaBitsWithoutImplicit
      * 2 ^ ((spec.exponentBias : ℤ) + 1 - spec.mantissaBits) := by
    rw [← zpow_natCast, ← zpow_add₀ (by norm_num)]
    congr 1
    unfold Format.mantissaBits
    omega
  have hone : (1 : ℚ) ≤ 2 ^ spec.mantissaBitsWithoutImplicit := one_le_pow₀ (by norm_num)
  unfold largest
  rw [hsplit]
  apply mul_le_mul_of_nonneg_right _ hpos.le
  simp only [Format.mantissaBits]
  rw [pow_add, pow_one]
  linarith

/-- What a pattern unpacks to: nothing but a zero, or a mantissa of the format's bits under the
exponent of the pattern, which is never all ones. -/
theorem unpack_cases (spec : Format) (b : BitVec spec.numBits) : value (unpack spec b) = 0
    ∨ ∃ s m e, ∃ hm : 0 < m, unpack spec b = .finite s m e hm ∧ m < 2 ^ spec.mantissaBits
      ∧ (unpackExponent b).toNat + 1 < 2 ^ spec.exponentBits
      ∧ e = max ((unpackExponent b).toNat : ℤ) 1
        - (spec.exponentBias + spec.mantissaBitsWithoutImplicit) := by
  have hexp : unpackExponent b ≠ -1#_ → (unpackExponent b).toNat + 1 < 2 ^ spec.exponentBits := by
    intro hne
    have hlt := (unpackExponent b).isLt
    rw [ne_eq, ← BitVec.toNat_inj] at hne
    simp only [BitVec.neg_one_eq_allOnes, BitVec.toNat_allOnes] at hne
    omega
  unfold UnpackedFloat.unpack
  simp only []
  split_ifs with h1 h2 h3 h4
  · exact .inl rfl
  · exact .inl rfl
  · exact .inl rfl
  · have hzero : (unpackExponent b).toNat = 0 := by rw [h3, BitVec.toNat_zero]
    have hpos : 0 < (unpackMantissa b).toNat := Nat.pos_of_ne_zero fun h =>
      h4 (BitVec.eq_of_toNat_eq (by rw [h, BitVec.toNat_zero]))
    refine .inr ⟨_, _, _, hpos, rfl, (unpackMantissa b).isLt.trans ?_, hexp h1, ?_⟩
    · exact Nat.pow_lt_pow_right (by norm_num) (by unfold Format.mantissaBits; omega)
    · rw [hzero]
      omega
  · have hpos : 0 < (1#1 ++ unpackMantissa b).toNat := by simp
    refine .inr ⟨_, _, _, hpos, rfl, (1#1 ++ unpackMantissa b).isLt, hexp h1, ?_⟩
    have hne : (unpackExponent b).toNat ≠ 0 := by
      intro hzero
      exact h3 (BitVec.eq_of_toNat_eq (by rw [hzero, BitVec.toNat_zero]))
    omega

theorem abs_value_finite_le {spec : Format} (s : Sign) {m : ℕ} {e k : ℤ} (hm : 0 < m)
    (hlt : m < 2 ^ spec.mantissaBits) (he : e ≤ k) :
    |value (.finite s m e hm)| ≤ (2 ^ spec.mantissaBits - 1) * 2 ^ k := by
  have hm' : (m : ℚ) ≤ 2 ^ spec.mantissaBits - 1 := by
    have : ((m + 1 : ℕ) : ℚ) ≤ (2 ^ spec.mantissaBits : ℕ) := by exact_mod_cast hlt
    push_cast at this
    linarith
  rw [abs_value_finite]
  have hle : (2 : ℚ) ^ e ≤ 2 ^ k := zpow_le_zpow_right₀ (by norm_num) he
  exact mul_le_mul hm' hle (by positivity) (le_trans (by positivity) hm')

/-- A finite number of a format is no larger than its largest. -/
theorem abs_value_unpack_le {spec : Format} (hbias : 1 ≤ spec.exponentBias)
    (b : BitVec spec.numBits) : |value (unpack spec b)| ≤ largest spec := by
  have hbits := two_pow_exponentBits spec
  have hM : (spec.mantissaBits : ℤ) = 1 + spec.mantissaBitsWithoutImplicit := by
    simp [Format.mantissaBits]
  rcases unpack_cases spec b with hzero | ⟨s, m, e, hm, hunpack, hlt, hexp, rfl⟩
  · have : (1 : ℚ) ≤ 2 ^ spec.mantissaBits := one_le_pow₀ (by norm_num)
    rw [hzero, abs_zero]
    exact mul_nonneg (by linarith) (by positivity)
  · rw [hunpack]
    exact abs_value_finite_le s hm hlt (by omega)

/-- A packed number is below the power of two its mantissa's bits and its exponent give. -/
theorem abs_value_pack_lt {spec : Format} (s : Sign) {m : ℕ} {e k : ℤ} (hm : 0 < m)
    (he : e ≤ k) (hk : spec.minExponent ≤ k) :
    |value (unpack spec (pack spec (.finite s m e hm)))| < 2 ^ (k + spec.mantissaBits : ℤ) := by
  have hmin := minExponent_eq spec
  have hM : (spec.mantissaBits : ℤ) = 1 + spec.mantissaBitsWithoutImplicit := by
    simp [Format.mantissaBits]
  have hpos : (0 : ℚ) < 2 ^ k := by positivity
  rcases unpack_cases spec (UnpackedFloat.pack spec (.finite s m e hm))
    with hzero | ⟨s', m', e', hm', hunpack, hlt, hexp, rfl⟩
  · rw [hzero, abs_zero]
    positivity
  · rw [hunpack, zpow_add₀ (by norm_num), zpow_natCast]
    refine (abs_value_finite_le s' hm' hlt (k := k) ?_).trans_lt (by linarith)
    have hle : ((unpackExponent (UnpackedFloat.pack spec (.finite s m e hm))).toNat : ℤ)
        ≤ max (e + spec.exponentBias + spec.mantissaBitsWithoutImplicit) 0 := by
      have hbits := two_pow_exponentBits spec
      revert hexp
      unfold UnpackedFloat.pack
      simp only []
      split_ifs with h1 h2
      · simp only [packedInfinity, unpackExponent_packComponents, BitVec.neg_one_eq_allOnes,
          BitVec.toNat_allOnes]
        omega
      · simp only [unpackExponent_packComponents, BitVec.toNat_ofNat]
        rw [Nat.mod_eq_of_lt (by omega)]
        omega
      · simp
    omega

theorem value_pack_zero (spec : Format) (s : Sign) :
    value (unpack spec (pack spec (.zero s))) = 0 := by
  unfold UnpackedFloat.pack packedZero UnpackedFloat.unpack
  simp only [unpackExponent_packComponents, unpackMantissa_packComponents]
  split_ifs <;> first | rfl | contradiction

/-- Rounding at most doubles the power of two above a number. -/
theorem abs_value_round_lt {spec : Format} (s : Sign) {m : ℕ} {e k : ℤ} (hm : 0 < m)
    (htotal : totalExponent m e ≤ k) (hk : spec.minExponent + spec.mantissaBits ≤ k) :
    |value (unpack spec (pack spec (round spec s m e)))| < 2 ^ (k + 1) := by
  obtain ⟨m', e', hm', htotal', -, he', hround⟩ := round_eq spec s e hm
  obtain ⟨t, ht⟩ : ∃ t, spec.targetExponent (totalExponent m' e') = t := ⟨_, rfl⟩
  obtain ⟨n, hn⟩ : ∃ n : ℕ, t - e' = n := Int.eq_ofNat_of_zero_le (by omega)
  have hle := rounded_le (mantissa_lt hm' ht hn)
  obtain ⟨m'', -, heq⟩ := roundWithAccuracy_eq s (by omega) ht rfl
    (by rw [hn, Int.toNat_natCast]; exact hle)
  rw [hround, heq]
  by_cases hzero : m'' = 0
  · rw [dif_pos hzero, value_pack_zero, abs_zero]
    positivity
  · have htarget : t ≤ k - spec.mantissaBits := by
      unfold Format.targetExponent at ht
      omega
    have hpow : k + 1 = (k + 1 - spec.mantissaBits : ℤ) + spec.mantissaBits := by ring
    rw [dif_neg hzero, hpow]
    apply abs_value_pack_lt
    · split_ifs <;> omega
    · omega

/-- So does rounding an integer. -/
theorem abs_value_normalize_lt {spec : Format} {i : ℤ} (z : Sign) {k : ℕ}
    (hi : |i| < 2 ^ k) (hk : spec.minExponent + spec.mantissaBits ≤ k) :
    |value (unpack spec (pack spec (UnpackedFloat.normalize spec i 0 z)))| < 2 ^ (k + 1 : ℤ) := by
  have htotal : ∀ m : ℕ, 0 < m → (m : ℤ) = |i| → totalExponent m 0 ≤ k := by
    intro m hm hmi
    have hlt : m < 2 ^ k := by exact_mod_cast hmi.trans_lt hi
    have := (Nat.log2_lt hm.ne').2 hlt
    unfold totalExponent
    omega
  unfold UnpackedFloat.normalize
  rcases lt_trichotomy i 0 with hneg | rfl | hpos
  · rw [Int.compare_eq_lt.2 hneg]
    refine abs_value_round_lt _ (by omega) (htotal _ (by omega) ?_) hk
    rw [abs_of_neg hneg]
    omega
  · rw [Int.compare_eq_eq.2 rfl]
    simp only [value_pack_zero, abs_zero]
    positivity
  · rw [Int.compare_eq_gt.2 hpos]
    refine abs_value_round_lt _ (by omega) (htotal _ (by omega) ?_) hk
    rw [abs_of_pos hpos]
    omega

end Lib
