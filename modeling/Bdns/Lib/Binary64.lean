import Mathlib

/-!
# Bounds for binary64 arithmetic

`float64` is Lean's `Float`, whose operations are defined on the bits of the format. The
results of this file compare floating-point numbers with powers of two: `Above k x` says that
`x` is at least `2 ^ k`, and `Below k x` that it is nonnegative and less than `2 ^ k`. Both
survive the rounding and the packing of a result, so a chain of operations can be bounded
without computing its bits.
-/

namespace Bdns.Lib.Binary64

open Float.Model Float.Model.UnpackedFloat

/-- The conversion from unsigned integers rounds to the nearest number of the format. -/
instance natCastFloat : NatCast Float := ⟨Nat.toFloat⟩

/-- An infinite number, or a normal one that is at least `2 ^ k`. -/
inductive Above (k : Int) : UnpackedFloat → Prop
  | infinity : Above k (.infinity .positive)
  | finite {m : Nat} {e : Int} (hPos : 0 < m) (hLow : 2 ^ 52 ≤ m) (hHigh : m < 2 ^ 53)
      (hMin : -1074 ≤ e) (hExp : k ≤ e + 52) : Above k (.finite .positive m e hPos)

/-- Zero, or a positive number less than `2 ^ k`. -/
inductive Below (k : Int) : UnpackedFloat → Prop
  | zero : Below k (.zero .positive)
  | finite {m : Nat} {e : Int} (hPos : 0 < m) (hHigh : m < 2 ^ 53) (hMin : -1074 ≤ e)
      (hExp : e + 53 ≤ k) : Below k (.finite .positive m e hPos)

variable {k : Int} {m : Nat} {e : Int} {acc : Accuracy}

/-! ## Rounding -/

theorem shiftRight_mantissa (em : ExtendedMantissa) (n : Nat) :
    (em >>> n).mantissa = em.mantissa / 2 ^ n := by
  induction n with
  | zero => exact (Nat.div_one _).symm
  | succ n ih =>
    calc (em >>> (n + 1)).mantissa = (em >>> n).mantissa / 2 := rfl
      _ = em.mantissa / 2 ^ n / 2 := by rw [ih]
      _ = em.mantissa / 2 ^ (n + 1) := by rw [Nat.div_div_eq_div_mul, Nat.pow_succ]

theorem roundedMantissa_bounds (em : ExtendedMantissa) :
    em.mantissa ≤ em.roundedMantissa ∧ em.roundedMantissa ≤ em.mantissa + 1 := by
  obtain ⟨mantissa, roundBit, stickyBit⟩ := em
  cases roundBit <;> cases stickyBit <;>
    simp only [ExtendedMantissa.roundedMantissa, ExtendedMantissa.accuracy,
      Accuracy.roundToNearestEven] <;> omega

theorem ofMantissaAndAccuracy_mantissa (m : Nat) (acc : Accuracy) :
    (ExtendedMantissa.ofMantissaAndAccuracy m acc).mantissa = m := by
  obtain _ | o := acc
  · rfl
  · cases o <;> rfl

/-- From an exponent that is not below the least one, a mantissa is shifted to 53 bits. -/
theorem shiftToTargetExponent_eq (hMin : -1074 ≤ e) :
    shiftToTargetExponent .binary64 m e acc =
      (ExtendedMantissa.ofMantissaAndAccuracy m acc >>> (m.log2 - 52), e + (m.log2 - 52 : Nat)) := by
  have hShift : (Format.binary64.targetExponent (totalExponent m e) - e).toNat = m.log2 - 52 := by
    simp only [Format.targetExponent, totalExponent, Format.mantissaBits, Format.minExponent]
    omega
  simp only [shiftToTargetExponent, shiftToExponent, hShift]

theorem log2_eq_52 (hLow : 2 ^ 52 ≤ m) (hHigh : m < 2 ^ 53) : m.log2 = 52 :=
  (Nat.log2_eq_iff (by omega)).mpr ⟨hLow, hHigh⟩

/-- The mantissa that is left after the first shift, up to the rounding. -/
theorem shift_lt (m : Nat) : m / 2 ^ (m.log2 - 52) < 2 ^ 53 := by
  rw [Nat.div_lt_iff_lt_mul (by positivity), ← Nat.pow_add]
  refine lt_of_lt_of_le Nat.lt_log2_self ?_
  exact Nat.pow_le_pow_right (by decide) (by omega)

theorem le_shift (hLow : 2 ^ 52 ≤ m) : 2 ^ 52 ≤ m / 2 ^ (m.log2 - 52) := by
  have hLog : 52 ≤ m.log2 := (Nat.le_log2 (by omega)).mpr hLow
  rw [Nat.le_div_iff_mul_le (by positivity), ← Nat.pow_add, Nat.add_sub_cancel' hLog]
  exact Nat.log2_self_le (by omega)

/-- A rounded mantissa has 53 bits, or it is the next power of two and is shifted once more. -/
theorem roundWithAccuracy_eq (m : Nat) (acc : Accuracy) (hMin : -1074 ≤ e) :
    ∃ r, m / 2 ^ (m.log2 - 52) ≤ r ∧ r ≤ m / 2 ^ (m.log2 - 52) + 1 ∧
      roundWithAccuracy .binary64 .positive m e acc =
        if h : r / 2 ^ (r.log2 - 52) = 0 then .zero .positive
        else .finite .positive (r / 2 ^ (r.log2 - 52))
          (e + (m.log2 - 52 : Nat) + (r.log2 - 52 : Nat)) (Nat.pos_of_ne_zero h) := by
  obtain ⟨hLow, hHigh⟩ := roundedMantissa_bounds
    (ExtendedMantissa.ofMantissaAndAccuracy m acc >>> (m.log2 - 52))
  rw [shiftRight_mantissa, ofMantissaAndAccuracy_mantissa] at hLow hHigh
  refine ⟨_, hLow, hHigh, ?_⟩
  simp only [roundWithAccuracy]
  rw [shiftToTargetExponent_eq hMin]
  dsimp only
  rw [shiftToTargetExponent_eq (by omega)]
  simp only [shiftRight_mantissa, ofMantissaAndAccuracy_mantissa]

theorem log2_lt_of_lt {n : Nat} (hn : 0 < n) (hLt : m < 2 ^ n) : m.log2 < n := by
  by_cases hZero : m = 0
  · simpa [hZero] using hn
  · exact (Nat.log2_lt hZero).mpr hLt

/-- Rounding does not go below a power of two. -/
theorem Above.round (hLow : 2 ^ 52 ≤ m) (hMin : -1074 ≤ e) (hExp : k ≤ e + m.log2) :
    Above k (roundWithAccuracy .binary64 .positive m e acc) := by
  obtain ⟨r, hShift, -, hRound⟩ := roundWithAccuracy_eq m acc hMin
  have hLog : 52 ≤ m.log2 := (Nat.le_log2 (by omega)).mpr hLow
  have hLowR : 2 ^ 52 ≤ r := (le_shift hLow).trans hShift
  have hLowF := le_shift hLowR
  rw [hRound, dif_neg (by omega)]
  exact .finite _ hLowF (shift_lt r) (by omega) (by omega)

/-- A mantissa of at most 53 bits, or the next power of two, is shifted at most once. -/
theorem Below.round (hHigh : m ≤ 2 ^ 53) (hMin : -1074 ≤ e) (hExp : e + 54 ≤ k) :
    Below k (roundWithAccuracy .binary64 .positive m e acc) := by
  obtain ⟨r, -, hShift, hRound⟩ := roundWithAccuracy_eq m acc hMin
  have hOnce : (m.log2 - 52) + (r.log2 - 52) ≤ 1 := by
    rcases Nat.lt_or_eq_of_le hHigh with hLt | rfl
    · have hLog := log2_lt_of_lt (by decide) hLt
      have hLogR := log2_lt_of_lt (m := r) (n := 54) (by decide) (by have := shift_lt m; omega)
      omega
    · rw [Nat.log2_two_pow] at hShift ⊢
      have hLogR := log2_lt_of_lt (m := r) (n := 53) (by decide) (by omega)
      omega
  rw [hRound]
  split
  · exact .zero
  · exact .finite _ (shift_lt r) (by omega) (by omega)

/-! ## Packing -/

theorem unpack_pack_infinity :
    (Float.Model.pack (.infinity .positive)).unpack = .infinity .positive :=
  rfl

theorem unpack_pack_zero : (Float.Model.pack (.zero .positive)).unpack = .zero .positive :=
  unpack_packedZero

/-- The fields of a packed number. -/
theorem unpack_packComponents (exponent : BitVec 11) (mantissa : BitVec 52) :
    UnpackedFloat.unpack .binary64 (packComponents .binary64 .positive exponent mantissa) =
      if exponent = -1#11 then
        if mantissa = 0#52 then .infinity .positive else .notANumber
      else if exponent = 0#11 then
        if h : mantissa = 0#52 then .zero .positive
        else .finite .positive mantissa.toNat (-1074)
          (by simpa [BitVec.toNat_eq, Nat.pos_iff_ne_zero] using h)
      else .finite .positive (2 ^ 52 + mantissa.toNat) (exponent.toNat - 1075) (by positivity) := by
  have hAppend : (1#1 ++ mantissa).toNat = 2 ^ 52 + mantissa.toNat := by
    rw [BitVec.toNat_append, ← Nat.shiftLeft_add_eq_or_of_lt mantissa.isLt]
    rfl
  simp only [UnpackedFloat.unpack, unpackExponent_packComponents, unpackMantissa_packComponents,
    unpackSign_packComponents, Sign.ofBitVec_toBitVec]
  split
  · rfl
  · split
    · split
      · rfl
      · rename_i hExponent _
        subst hExponent
        rfl
    · congr 1

/-- A packed positive number: a normal one whose exponent fits is kept, a greater one becomes
infinite, and a mantissa of fewer bits is read at the least exponent. -/
theorem unpack_pack_finite (hPos : 0 < m) (hHigh : m < 2 ^ 53) (hMin : -1074 ≤ e) :
    (Float.Model.pack (.finite .positive m e hPos)).unpack =
      if 971 < e then .infinity .positive
      else if 2 ^ 52 ≤ m then .finite .positive m e hPos
      else .finite .positive m (-1074) hPos := by
  have hBias : (e + (Format.binary64.exponentBias : Nat) + (52 : Nat)).toNat = (e + 1075).toNat := by
    simp only [Format.exponentBias]
    omega
  simp only [Float.Model.unpack, Float.Model.pack, UnpackedFloat.pack, hBias]
  by_cases hOverflow : 971 < e
  · rw [if_pos (by omega), if_pos hOverflow]
    rfl
  rw [if_neg (by omega), if_neg hOverflow]
  by_cases hLow : 2 ^ 52 ≤ m
  · have hExponent : (BitVec.ofNat 11 (e + 1075).toNat).toNat = (e + 1075).toNat :=
      Nat.mod_eq_of_lt (by omega)
    have hMantissa : (BitVec.ofNat 52 m).toNat = m - 2 ^ 52 := by
      rw [BitVec.toNat_ofNat, Nat.mod_eq_sub_mod hLow, Nat.mod_eq_of_lt (by omega)]
    rw [if_pos (by rw [log2_eq_52 hLow hHigh]; rfl), if_pos hLow, unpack_packComponents,
      if_neg (by rw [← BitVec.toNat_inj, hExponent]; change _ ≠ 2047; omega),
      if_neg (by rw [← BitVec.toNat_inj, hExponent]; change _ ≠ 0; omega)]
    congr 1
    · omega
    · omega
  · have hMantissa : (BitVec.ofNat 52 m).toNat = m := Nat.mod_eq_of_lt (by omega)
    have hLog := log2_lt_of_lt (n := 52) (by decide) (Nat.not_le.mp hLow)
    rw [if_neg (by change ¬ m.log2 + 1 = 53; omega), if_neg hLow, unpack_packComponents,
      if_neg (by decide), if_pos rfl,
      dif_neg (by rw [← BitVec.toNat_inj, hMantissa]; change m ≠ 0; omega)]
    congr 1

theorem Above.unpack_pack {f : UnpackedFloat} (h : Above k f) :
    Above k (Float.Model.pack f).unpack := by
  cases h with
  | infinity => exact unpack_pack_infinity ▸ .infinity
  | finite hPos hLow hHigh hMin hExp =>
    rw [unpack_pack_finite hPos hHigh hMin]
    split
    · exact .infinity
    · exact .finite hPos hLow hHigh hMin hExp

theorem Below.unpack_pack {f : UnpackedFloat} (h : Below k f) (hMax : k ≤ 1024) :
    Below k (Float.Model.pack f).unpack := by
  cases h with
  | zero => exact unpack_pack_zero ▸ .zero
  | finite hPos hHigh hMin hExp =>
    rw [unpack_pack_finite hPos hHigh hMin, if_neg (by omega)]
    split
    · exact .finite hPos hHigh hMin hExp
    · exact .finite hPos hHigh (by omega) (by omega)

/-! ## Operations -/

theorem unpack_one : (1 : Float).toModel.unpack = .finite .positive (2 ^ 52) (-52) (by decide) :=
  rfl

theorem unpack_zero : (0 : Float).toModel.unpack = .zero .positive := rfl

/-- Multiplying by a power of two adds to the logarithm. -/
theorem log2_mul_two_pow {n : Nat} (hm : m ≠ 0) : (m * 2 ^ n).log2 = m.log2 + n := by
  refine (Nat.log2_eq_iff (by positivity)).mpr ⟨?_, ?_⟩
  · rw [Nat.pow_add]
    exact Nat.mul_le_mul_right _ (Nat.log2_self_le hm)
  · rw [Nat.add_right_comm, Nat.pow_add]
    exact Nat.mul_lt_mul_of_pos_right Nat.lt_log2_self (by positivity)

theorem Above.ofUInt64 {n : UInt64} {j : Nat} (h : 2 ^ j ≤ n.toNat) :
    Above j (UnpackedFloat.ofUInt64 .binary64 n) := by
  have hPos : n.toNat ≠ 0 := by have := Nat.two_pow_pos j; omega
  have hLog : j ≤ n.toNat.log2 := (Nat.le_log2 hPos).mpr h
  have hLogLt : n.toNat.log2 < 64 := (Nat.log2_lt hPos).mpr n.toNat_lt
  have hCompare : compare (n.toNat : Int) 0 = .gt := Int.compare_eq_gt.mpr (by omega)
  have hShift : (0 - Format.binary64.targetExponent (totalExponent n.toNat 0)).toNat
      = 52 - n.toNat.log2 := by
    simp only [Format.targetExponent, totalExponent, Format.mantissaBits, Format.minExponent]
    omega
  simp only [UnpackedFloat.ofUInt64, UnpackedFloat.ofNat, UnpackedFloat.ofInt,
    UnpackedFloat.normalize, hCompare, Int.toNat_natCast, UnpackedFloat.round, decreaseExponent,
    hShift, Nat.shiftLeft_eq]
  have hLogShift := log2_mul_two_pow (n := 52 - n.toNat.log2) hPos
  refine Above.round ?_ (by omega) (by rw [hLogShift]; omega)
  exact (Nat.le_log2 (by positivity)).mp (by rw [hLogShift]; omega)

/-- The product with a normal number that is a power of two, from an exponent well inside the
range. -/
theorem Above.mul_one {f : UnpackedFloat} {j : Nat} (h : Above j f) :
    Above j (UnpackedFloat.mul .binary64 f (.finite .positive (2 ^ 52) (-52) (by decide))) := by
  cases h with
  | infinity => exact .infinity
  | finite hPos hLow hHigh hMin hExp =>
    change Above j (roundWithAccuracy .binary64 .positive _ _ .exact)
    refine Above.round (by omega) (by omega) ?_
    rw [log2_mul_two_pow (by omega), log2_eq_52 hLow hHigh]
    omega

theorem unpack_mul (x y : Float) : (x * y).toModel.unpack =
    (Float.Model.pack (UnpackedFloat.mul .binary64 x.toModel.unpack y.toModel.unpack)).unpack :=
  rfl

/-- The conversion of an integer is exact up to `2 ^ 53` and rounded from there. -/
theorem natCast_eq (n : Nat) : (n : Float) =
    if n < 2 ^ 53 then n.toUInt64.toFloat * 1 else ⟨Float.Model.ofScientific n 0⟩ := by
  change Float.ofScientific n false 0 = _
  unfold Float.ofScientific
  by_cases h : n < 2 ^ 53
  · rw [dif_pos ⟨h, by decide⟩, if_pos h]
    rfl
  · rw [dif_neg (fun hSmall => h hSmall.1), if_neg h]
    rfl

/-- A positive integer that is at least `2 ^ j`. -/
theorem above_natCast {n j : Nat} (h : 2 ^ j ≤ n) : Above j (n : Float).toModel.unpack := by
  have hPos : n ≠ 0 := by have := Nat.two_pow_pos j; omega
  rw [natCast_eq]
  split
  · rename_i hSmall
    have hToNat : n.toUInt64.toNat = n := Nat.mod_eq_of_lt (by omega)
    rw [unpack_mul, unpack_one]
    exact (Above.ofUInt64 (by rwa [hToNat])).unpack_pack.mul_one.unpack_pack
  · rename_i hLarge
    have hLog : j ≤ n.log2 := (Nat.le_log2 hPos).mpr h
    refine Above.unpack_pack ?_
    simp only [UnpackedFloat.ofScientific, dif_neg hPos]
    rw [if_neg (by decide), if_neg (by omega), if_pos le_rfl]
    simp only [UnpackedFloat.mul, Int.toNat_zero, Nat.pow_zero, Nat.mul_one, Nat.shiftLeft_eq,
      Format.mantissaBits]
    refine Above.round (by omega) (by omega) ?_
    rw [log2_mul_two_pow hPos]
    omega

theorem exponent_le_of_unpack {x : Float.Model} {sign : Sign} {hPos : 0 < m}
    (h : x.unpack = .finite sign m e hPos) : e ≤ 1022 := by
  have hBits : (@unpackExponent .binary64 x.toBits.toBitVec).toNat < 2 ^ 11 :=
    BitVec.isLt _
  simp only [Float.Model.unpack, UnpackedFloat.unpack, Format.exponentBias] at h
  split at h
  · split at h <;> exact UnpackedFloat.noConfusion h
  · split at h
    · split at h
      · exact UnpackedFloat.noConfusion h
      · obtain ⟨-, -, rfl⟩ := UnpackedFloat.finite.inj h
        omega
    · obtain ⟨-, -, rfl⟩ := UnpackedFloat.finite.inj h
      omega

/-- The reciprocal of a number that is at least `2 ^ k`. -/
theorem Below.one_div (hPos : 0 < m) (hLow : 2 ^ 52 ≤ m) (hHigh : m < 2 ^ 53) (hMaxE : e ≤ 1022)
    (hMax : k ≤ 1000) (hExp : k ≤ e + 52) :
    Below (1 - k) (UnpackedFloat.div .binary64 (.finite .positive (2 ^ 52) (-52) (by decide))
      (.finite .positive m e hPos)) := by
  have hTotal : Format.binary64.targetExponent (totalExponent (2 ^ 52) (-52) - totalExponent m e)
      = max (-105 - e) (-1074) := by
    rw [totalExponent, totalExponent, Nat.log2_two_pow, log2_eq_52 hLow hHigh]
    simp only [Format.targetExponent, Format.mantissaBits, Format.minExponent]
    omega
  simp only [UnpackedFloat.div, divCore, hTotal, Nat.shiftLeft_eq]
  refine Below.round ?_ (by omega) (by omega)
  calc 2 ^ 52 * 2 ^ (-52 - e - min (-52 - e) (max (-105 - e) (-1074))).toNat / m
      ≤ 2 ^ 52 * 2 ^ 53 / m := by
        gcongr
        · decide
        · omega
    _ ≤ 2 ^ 52 * 2 ^ 53 / 2 ^ 52 := Nat.div_le_div_left hLow (by decide)
    _ = 2 ^ 53 := by decide

theorem below_one_div {x : Float} (hMin : -1000 ≤ k) (hMax : k ≤ 1000)
    (h : Above k x.toModel.unpack) : Below (1 - k) (1 / x).toModel.unpack := by
  change Below (1 - k) (Float.Model.pack
    (UnpackedFloat.div .binary64 (1 : Float).toModel.unpack x.toModel.unpack)).unpack
  rw [unpack_one]
  refine Below.unpack_pack ?_ (by omega)
  generalize hx : x.toModel.unpack = f at h
  cases h with
  | infinity => exact .zero
  | finite hPos hLow hHigh _ hExp =>
    exact .one_div hPos hLow hHigh (exponent_le_of_unpack hx) hMax hExp

theorem Below.zero_add {f : UnpackedFloat} (h : Below k f) :
    Below k (UnpackedFloat.add .binary64 (.zero .positive) f) := by
  cases h with
  | zero => exact .zero
  | finite hPos hHigh hMin hExp => exact .finite hPos hHigh hMin hExp

theorem below_zero_add {x : Float} (hMax : k ≤ 1024) (h : Below k x.toModel.unpack) :
    Below k (0 + x).toModel.unpack := by
  change Below k (Float.Model.pack
    (UnpackedFloat.add .binary64 (0 : Float).toModel.unpack x.toModel.unpack)).unpack
  rw [unpack_zero]
  exact h.zero_add.unpack_pack hMax

/-! ## Comparison -/

theorem le_iff_unpack {x y : Float} :
    x ≤ y ↔ UnpackedFloat.le x.toModel.unpack y.toModel.unpack = true :=
  decide_eq_true_iff

theorem Below.zero_le {f : UnpackedFloat} (h : Below k f) :
    UnpackedFloat.le (.zero .positive) f = true := by
  cases h with
  | zero => rfl
  | finite hPos hHigh hMin hExp => rfl

theorem zero_le_of_below {x : Float} (h : Below k x.toModel.unpack) : 0 ≤ x := by
  rw [le_iff_unpack, unpack_zero]
  exact h.zero_le

theorem Above.le_eq_false {f g : UnpackedFloat} (hf : Above k f) (hg : Below k g) :
    UnpackedFloat.le f g = false := by
  cases hf with
  | infinity =>
    cases hg with
    | zero => rfl
    | finite hPos hHigh hMin hExp => rfl
  | @finite m e hPos hLow hHigh hMin hExp =>
    cases hg with
    | zero => rfl
    | @finite m' e' hPosY hHighY hMinY hExpY =>
      have hCompare : compare e e' = .gt := Int.compare_eq_gt.mpr (by omega)
      simp [UnpackedFloat.le, UnpackedFloat.compare, hCompare]

/-- A number that is at least a power of two is not at most one below it. -/
theorem not_le_of_below {x y : Float} (hx : Above k x.toModel.unpack)
    (hy : Below k y.toModel.unpack) : ¬ x ≤ y := by
  rw [le_iff_unpack, hx.le_eq_false hy]
  exact Bool.false_ne_true

end Bdns.Lib.Binary64
