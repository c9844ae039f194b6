import WireModel.Proofs.Number.Text
import WireModel.Wire.Primitive

/-!
# Integers as numbers

An integer is written as the number nearest to it. Up to a magnitude of `2 ^ 53` that is the integer
itself; beyond it only multiples of growing powers of two are numbers, and any other integer is
refused, because the number that it would become is the value of another integer.

* **`Binary64.toInt?_eq_some_iff`**: a number is read as the integer that is its value.
* **`Binary64.toInt?_ofInt_iff`**: an integer is its own nearest number iff it has at most 53 bits,
  not counting the zeros at its end.
* **`Wire.integers_lossless`** puts reading and writing together. The greatest integer of 64 bits is
  the case where the limit is compared after rounding: `2 ^ 63 - 1` is rounded to `2 ^ 63`.
-/

namespace WireModel

namespace Binary64

/-! ## Values -/

/-- The value of a finite number. -/
def value? : Binary64 → Option ℚ
  | .infinite _ => none
  | .finite negative mantissa exponent =>
    some (if negative then -(mantissa * 2 ^ exponent) else mantissa * 2 ^ exponent)

/-- A quotient is a natural number iff the division leaves nothing. -/
theorem div_eq_natCast_iff {num den k : Nat} (hd : 0 < den) :
    (num : ℚ) / den = k ↔ num % den = 0 ∧ num / den = k := by
  rw [div_eq_iff (by positivity)]
  constructor
  · intro h
    obtain rfl : num = k * den := by exact_mod_cast h
    exact ⟨Nat.mul_mod_left k den, Nat.mul_div_cancel k hd⟩
  · rintro ⟨hmod, rfl⟩
    exact_mod_cast (Nat.div_mul_cancel (Nat.dvd_of_mod_eq_zero hmod)).symm

/-- **A number is read as an integer iff the integer is its value.** -/
theorem toInt?_eq_some_iff {x : Binary64} {n : Int} :
    x.toInt? = some n ↔ x.value? = some (n : ℚ) := by
  cases x with
  | infinite => exact ⟨nofun, nofun⟩
  | finite negative mantissa exponent =>
    obtain ⟨hd, hratio⟩ := ratio_spec mantissa exponent
    have hquotient (k : Nat) : ((ratio mantissa exponent).1 : ℚ) / (ratio mantissa exponent).2 = k
        ↔ _ := div_eq_natCast_iff hd
    simp only [toInt?, value?, ← hratio, Option.some.injEq]
    generalize (ratio mantissa exponent).1 = num at hquotient ⊢
    generalize (ratio mantissa exponent).2 = den at hquotient ⊢
    constructor
    · intro h
      split at h
      · next hmod =>
        have hnat := (hquotient _).mpr ⟨hmod, rfl⟩
        obtain rfl := Option.some.inj h
        rw [hnat]
        cases negative
        · exact (Int.cast_natCast _).symm
        · exact ((Int.cast_neg _).trans (congrArg Neg.neg (Int.cast_natCast _))).symm
      · cases h
    · intro h
      -- the magnitude of the value is a natural number
      have hnat : (num : ℚ) / den = n.natAbs := by
        have hnonneg : (0 : ℚ) ≤ num / den := by positivity
        rw [Nat.cast_natAbs, Int.cast_abs, ← h]
        cases negative
        · exact (abs_of_nonneg hnonneg).symm
        · exact ((abs_neg _).trans (abs_of_nonneg hnonneg)).symm
      obtain ⟨hmod, hdiv⟩ := (hquotient _).mp hnat
      rw [hnat] at h
      rw [if_pos hmod, hdiv, Option.some.injEq, ← Int.cast_inj (α := ℚ), ← h]
      cases negative
      · exact Int.cast_natCast _
      · exact (Int.cast_neg _).trans (congrArg Neg.neg (Int.cast_natCast _))

/-! ## Which integers are numbers -/

/-- An integer with at most 53 bits, from the first to the last that is set. -/
def IsShort (n : Int) : Prop := ∃ (m : Int) (e : Nat), n = m * 2 ^ e ∧ |m| < 2 ^ 53

/-- The value of a number in normal form has few bits. -/
theorem isShort_of_value? {x : Binary64} (h : Normal x) {n : Int}
    (hvalue : x.value? = some (n : ℚ)) : IsShort n := by
  cases h with
  | zero negative =>
    refine ⟨0, 0, ?_, by norm_num⟩
    rw [zero_mul, ← Int.cast_inj (α := ℚ), ← Option.some.inj hvalue]
    cases negative <;> simp
  | infinite => cases hvalue
  | @finite negative mantissa exponent hpos hlt =>
    have hvalue := Option.some.inj hvalue
    have hmantissa : (mantissa : Int) < 2 ^ 53 := by exact_mod_cast hlt
    rcases le_or_gt 0 exponent with hexponent | hexponent
    · obtain ⟨e, rfl⟩ := Int.eq_ofNat_of_zero_le hexponent
      refine ⟨if negative then -mantissa else mantissa, e, ?_, ?_⟩
      · rw [← Int.cast_inj (α := ℚ), ← hvalue, zpow_natCast]
        cases negative <;> simp
      · cases negative <;> simpa using hmantissa
    · -- below the point there are only zeros
      refine ⟨n, 0, by rw [pow_zero, mul_one], ?_⟩
      have hle : |(n : ℚ)| ≤ mantissa := by
        have hone : (2 : ℚ) ^ exponent ≤ 1 := zpow_le_one_of_nonpos₀ one_le_two hexponent.le
        have hmagnitude : |(n : ℚ)| = mantissa * 2 ^ exponent := by
          rw [← hvalue]
          cases negative <;> simp [abs_mul, abs_of_pos, zpow_pos]
        rw [hmagnitude]
        exact mul_le_of_le_one_right (Nat.cast_nonneg _) hone
      have hle : |n| ≤ mantissa := by exact_mod_cast hle
      omega

theorem normal_ofInt (n : Int) : Normal (ofInt n) := normal_ofRatio Nat.one_pos _ _

/-- An integer with few bits is its own nearest number. -/
theorem value?_ofInt {n : Int} (h : IsShort n) (hle : |n| ≤ 2 ^ 63) :
    (ofInt n).value? = some (n : ℚ) := by
  obtain ⟨m, e, hn, hm⟩ := h
  rw [Int.abs_eq_natAbs] at hm hle
  by_cases hzero : n = 0
  · subst hzero
    simp [ofInt, ofRatio, value?]
  have hnatAbs : n.natAbs = m.natAbs * 2 ^ e := by
    rw [hn, Int.natAbs_mul, Int.natAbs_pow]
    rfl
  have hmpos : 0 < m.natAbs := by
    rw [Int.natAbs_pos]
    rintro rfl
    exact hzero (by rw [hn, zero_mul])
  have he : e ≤ 63 := by
    have hpow : 2 ^ e ≤ 2 ^ 63 :=
      calc 2 ^ e ≤ m.natAbs * 2 ^ e := Nat.le_mul_of_pos_left _ hmpos
        _ = n.natAbs := hnatAbs.symm
        _ ≤ 2 ^ 63 := by exact_mod_cast hle
    exact (Nat.pow_le_pow_iff_right (by norm_num)).mp hpow
  obtain ⟨mantissa, exponent, hpos, hnormal, hvalue⟩ :=
    exists_normal_mul_pow hmpos (show m.natAbs < 2 ^ 53 by exact_mod_cast hm)
      (show (e : Int) ≤ maxExponent by unfold maxExponent; omega)
  have hmagnitude : (n.natAbs : ℚ) = mantissa * 2 ^ exponent := by
    rw [hnatAbs, ← hvalue]
    push_cast
    rfl
  rw [ofInt, ofRatio_withSign,
    ofRatio_of_eq Nat.one_pos hpos hnormal (by rw [Nat.cast_one, div_one, hmagnitude])]
  show some (if decide (n < 0) then -((mantissa : ℚ) * 2 ^ exponent) else mantissa * 2 ^ exponent)
    = some (n : ℚ)
  rw [← hmagnitude, Option.some.injEq]
  rcases lt_or_ge n 0 with hneg | hnonneg
  · rw [if_pos (by simpa using hneg), Nat.cast_natAbs, abs_of_neg hneg, Int.cast_neg, neg_neg]
  · rw [if_neg (by simpa using hnonneg), Nat.cast_natAbs, abs_of_nonneg hnonneg]

/-- **Which integers are kept.** -/
theorem toInt?_ofInt_iff {n : Int} (hle : |n| ≤ 2 ^ 63) :
    (ofInt n).toInt? = some n ↔ IsShort n := by
  rw [toInt?_eq_some_iff]
  exact ⟨isShort_of_value? (normal_ofInt n), fun h => value?_ofInt h hle⟩

end Binary64

namespace Wire

open Binary64

/-! ## Reading and writing -/

theorem isInt64_iff {n : Int} : isInt64 n = true ↔ -2 ^ 63 ≤ n ∧ n < 2 ^ 63 := by
  rw [isInt64, Bool.and_eq_true, decide_eq_true_iff, decide_eq_true_iff, minInt64, maxInt64]
  omega

theorem writeInt64_eq_ok_iff {n : Int} {x : Binary64} :
    writeInt64 n = .ok x ↔ isInt64 n = true ∧ (ofInt n).toInt? = some n ∧ ofInt n = x := by
  unfold writeInt64
  dsimp only
  split
  · next h =>
    rw [Bool.and_eq_true, beq_iff_eq] at h
    simp [h]
  · next h =>
    rw [Bool.and_eq_true, beq_iff_eq] at h
    exact ⟨nofun, fun ⟨hrange, hkept, _⟩ => absurd ⟨hrange, hkept⟩ h⟩

theorem parseInt64_eq_ok_iff {x : Binary64} {n : Int} :
    parseInt64 (some (.number x)) = .ok n ↔ x.value? = some (n : ℚ) ∧ isInt64 n = true := by
  rw [← toInt?_eq_some_iff, parseInt64, int64Of?]
  cases hfound : x.toInt?.filter isInt64 with
  | none =>
    rw [Option.filter_eq_none_iff] at hfound
    refine ⟨nofun, fun ⟨hvalue, hrange⟩ => absurd hrange (hfound n hvalue)⟩
  | some m =>
    obtain ⟨hm, hrange⟩ := Option.filter_eq_some_iff.mp hfound
    rw [hm]
    constructor
    · rintro ⟨⟩
      exact ⟨rfl, hrange⟩
    · rintro ⟨heq, -⟩
      rw [Option.some.inj heq]

/-- **Integers are lossless or refused.** An integer is written iff it is one of 64 bits of which at
most 53 are significant; what is written has its value and is read back as it. A number is read
iff its value is an integer of 64 bits, and the integer is then written as a number of this value:
the number itself, up to the sign of zero. -/
theorem integers_lossless :
    (∀ n, (∃ x, writeInt64 n = .ok x)
        ↔ -2 ^ 63 ≤ n ∧ n < 2 ^ 63 ∧ ∃ (m : Int) (e : Nat), n = m * 2 ^ e ∧ |m| < 2 ^ 53)
      ∧ (∀ n x, writeInt64 n = .ok x →
        x.value? = some (n : ℚ) ∧ parseInt64 (some (.number x)) = .ok n)
      ∧ ∀ x, Normal x →
        ((∃ n, parseInt64 (some (.number x)) = .ok n)
            ↔ ∃ n : Int, x.value? = some (n : ℚ) ∧ -2 ^ 63 ≤ n ∧ n < 2 ^ 63)
          ∧ ∀ n, parseInt64 (some (.number x)) = .ok n →
            ∃ y, writeInt64 n = .ok y ∧ y.value? = x.value? := by
  have hbound {n : Int} (hrange : isInt64 n = true) : |n| ≤ 2 ^ 63 := by
    rw [isInt64_iff] at hrange
    exact abs_le.mpr (by omega)
  refine ⟨fun n => ⟨?_, ?_⟩, fun n x hwrite => ?_, fun x hnormal => ⟨?_, fun n hparse => ?_⟩⟩
  · rintro ⟨x, hwrite⟩
    obtain ⟨hrange, hkept, -⟩ := writeInt64_eq_ok_iff.mp hwrite
    obtain ⟨hlow, hhigh⟩ := isInt64_iff.mp hrange
    exact ⟨hlow, hhigh, (toInt?_ofInt_iff (hbound hrange)).mp hkept⟩
  · rintro ⟨hlow, hhigh, hshort⟩
    have hrange := isInt64_iff.mpr ⟨hlow, hhigh⟩
    have hkept := (toInt?_ofInt_iff (hbound hrange)).mpr hshort
    exact ⟨_, writeInt64_eq_ok_iff.mpr ⟨hrange, hkept, rfl⟩⟩
  · obtain ⟨hrange, hkept, rfl⟩ := writeInt64_eq_ok_iff.mp hwrite
    have hvalue := toInt?_eq_some_iff.mp hkept
    exact ⟨hvalue, parseInt64_eq_ok_iff.mpr ⟨hvalue, hrange⟩⟩
  · exact exists_congr fun n => by rw [parseInt64_eq_ok_iff, isInt64_iff]
  · obtain ⟨hvalue, hrange⟩ := parseInt64_eq_ok_iff.mp hparse
    have hkept := value?_ofInt (isShort_of_value? hnormal hvalue) (hbound hrange)
    refine ⟨_, writeInt64_eq_ok_iff.mpr ⟨hrange, toInt?_eq_some_iff.mpr hkept, rfl⟩, ?_⟩
    rw [hkept, hvalue]

/-- The greatest integer with 53 significant bits is kept, and the greatest one of 64 bits, which
would be rounded to `2 ^ 63`, is refused. -/
theorem integers_lossless_limits :
    writeInt64 (2 ^ 63 - 1) = .error ⟨2 ^ 63 - 1⟩
      ∧ Normal (.finite false (2 ^ 53 - 1) 10)
      ∧ (∃ x, writeInt64 (2 ^ 63 - 1024) = .ok x ∧ x.value? = some ((2 ^ 63 - 1024 : Int) : ℚ)
        ∧ parseInt64 (some (.number x)) = .ok (2 ^ 63 - 1024))
      ∧ ∃ n y, parseInt64 (some (.number (.finite false (2 ^ 53 - 1) 10))) = .ok n
        ∧ writeInt64 n = .ok y ∧ y.value? = value? (.finite false (2 ^ 53 - 1) 10) := by
  obtain ⟨hwritten, hlossless, hread⟩ := integers_lossless
  have hnormal : Normal (.finite false (2 ^ 53 - 1) 10) :=
    .finite false (by norm_num) (by norm_num) (by decide) (by decide) (.inl (by norm_num))
  have hvalue : value? (.finite false (2 ^ 53 - 1) 10) = some ((2 ^ 63 - 1024 : Int) : ℚ) := by
    norm_num [value?, zpow_ofNat]
  obtain ⟨x, hx⟩ := (hwritten (2 ^ 63 - 1024)).mpr
    ⟨by norm_num, by norm_num, 2 ^ 53 - 1, 10, by norm_num, by norm_num⟩
  obtain ⟨hiff, hagain⟩ := hread _ hnormal
  obtain ⟨n, hn⟩ := hiff.mpr ⟨2 ^ 63 - 1024, hvalue, by norm_num, by norm_num⟩
  obtain ⟨y, hy⟩ := hagain n hn
  exact ⟨rfl, hnormal, ⟨x, hx, hlossless _ x hx⟩, n, y, hn, hy⟩

end Wire
end WireModel
