import Mathlib.Algebra.Order.Field.Power
import Mathlib.Data.Int.Log
import Mathlib.Data.Rat.Floor
import Mathlib.Tactic.Linarith
import Mathlib.Tactic.FieldSimp
import Mathlib.Tactic.NormNum
import WireModel.Number.Binary64

/-!
# Rounding to the nearest number

A quotient of natural numbers is rounded in three steps: its magnitude says how many bits there are
room for, it is divided by the last of them, and the result is rounded to an integer. All three are
functions of the quotient alone, in whatever terms it is given (`ofRatio_congr`); on the way there,
the magnitude is recognised as the logarithm of the quotient (`magnitude_eq_log`).

**`ofRatio_of_near`** is how rounding is used: a quotient that is near enough to a number in normal
form is rounded to that number. How near is *enough* does not depend on the number, only on its
size: the distance is below `2 ^ (-54)` of it. That is half a bit for a number with a full mantissa,
and a quarter of a bit for a power of two. What a quotient is rounded to is always in normal form
(`normal_ofRatio`).
-/

namespace WireModel.Binary64

/-! ## Quotients -/

theorem div_le_roundDiv (n d : Nat) : n / d ≤ roundDiv n d := by
  unfold roundDiv
  dsimp only
  repeat' split
  all_goals omega

theorem roundDiv_le (n d : Nat) : roundDiv n d ≤ n / d + 1 := by
  unfold roundDiv
  dsimp only
  repeat' split
  all_goals omega

theorem roundDiv_mul_right (n d : Nat) {c : Nat} (hc : 0 < c) :
    roundDiv (n * c) (d * c) = roundDiv n d := by
  have hlt : ∀ a b : Nat, a * c < b * c ↔ a < b := fun a b => Nat.mul_lt_mul_right hc
  unfold roundDiv
  simp only [Nat.mul_div_mul_right _ _ hc, Nat.mul_mod_mul_right, ← Nat.mul_assoc, hlt]

theorem roundDiv_congr {n d n' d' : Nat} (hd : 0 < d) (hd' : 0 < d')
    (h : (n : ℚ) / d = n' / d') : roundDiv n d = roundDiv n' d' := by
  have hcross : n * d' = n' * d := by
    have hd0 : (d : ℚ) ≠ 0 := by positivity
    have hd0' : (d' : ℚ) ≠ 0 := by positivity
    rw [div_eq_div_iff hd0 hd0'] at h
    exact_mod_cast h
  rw [← roundDiv_mul_right n d hd', ← roundDiv_mul_right n' d' hd, hcross, Nat.mul_comm d d']

theorem roundDiv_eq_of_near {n d k : Nat} (hd : 0 < d) (h : |(n : ℚ) / d - k| < 1 / 2) :
    roundDiv n d = k := by
  have hdq : (0 : ℚ) < d := by exact_mod_cast hd
  obtain ⟨hlow, hhigh⟩ := abs_lt.mp h
  rw [lt_sub_iff_add_lt, lt_div_iff₀ hdq] at hlow
  rw [sub_lt_iff_lt_add, div_lt_iff₀ hdq] at hhigh
  have hlow' : 2 * k * d < 2 * n + d := by
    have : (2 * k * d : ℚ) < 2 * n + d := by linarith
    exact_mod_cast this
  have hhigh' : 2 * n < 2 * k * d + d := by
    have : (2 * n : ℚ) < 2 * k * d + d := by linarith
    exact_mod_cast this
  unfold roundDiv
  have hdiv := Nat.div_add_mod n d
  have hmod := Nat.mod_lt n hd
  generalize n / d = q at *
  generalize n % d = r at *
  subst hdiv
  -- the quotient is the number or the one before it
  have hle : q ≤ k := by
    have : d * (2 * q) < d * (2 * k + 1) := by linarith
    have := Nat.lt_of_mul_lt_mul_left this
    omega
  have hge : k ≤ q + 1 := by
    have : d * (2 * k) < d * (2 * q + 3) := by linarith
    have := Nat.lt_of_mul_lt_mul_left this
    omega
  obtain rfl | rfl : k = q ∨ k = q + 1 := by omega
  · rw [if_pos (by linarith)]
  · rw [if_neg (by linarith), if_pos (by linarith)]

/-! ## Scales -/

/-- Dividing by a power of a base changes the numerator or the denominator. -/
theorem scale_spec {b : Nat} (hb : 0 < b) (num : Nat) {den : Nat} (hd : 0 < den)
    (e : Int) {n d : Nat}
    (h : (if 0 ≤ e then (num, den * Nat.pow b e.toNat)
      else (num * Nat.pow b (-e).toNat, den)) = (n, d)) :
    0 < d ∧ (n : ℚ) / d = num / den / b ^ e := by
  have hd0 : (den : ℚ) ≠ 0 := by positivity
  have hb0 : (b : ℚ) ≠ 0 := by positivity
  split at h
  · next he =>
    obtain ⟨k, rfl⟩ := Int.eq_ofNat_of_zero_le he
    obtain ⟨rfl, rfl⟩ := Prod.mk.inj h
    refine ⟨Nat.mul_pos hd (Nat.pow_pos hb), ?_⟩
    simp only [Int.toNat_natCast, Nat.pow_eq, zpow_natCast]
    push_cast
    field_simp
  · next he =>
    obtain ⟨k, hk⟩ := Int.eq_ofNat_of_zero_le (show 0 ≤ -e by omega)
    obtain rfl : e = -(k : Int) := by omega
    obtain ⟨rfl, rfl⟩ := Prod.mk.inj h
    refine ⟨hd, ?_⟩
    simp only [neg_neg, Int.toNat_natCast, Nat.pow_eq, zpow_neg, zpow_natCast]
    push_cast
    field_simp

theorem scaled_spec (num : Nat) {den : Nat} (hd : 0 < den) (e : Int) :
    0 < (scaled num den e).2
      ∧ ((scaled num den e).1 : ℚ) / (scaled num den e).2 = num / den / 2 ^ e :=
  scale_spec (b := 2) (by norm_num) num hd e rfl

/-- Scaling compares a quotient with a power of two. -/
theorem scaled_lt_iff (num : Nat) {den : Nat} (hd : 0 < den) (e : Int) :
    (scaled num den e).1 < (scaled num den e).2 ↔ (num : ℚ) / den < 2 ^ e := by
  obtain ⟨hpos, hscaled⟩ := scaled_spec num hd e
  have hposq : (0 : ℚ) < (scaled num den e).2 := by exact_mod_cast hpos
  rw [← div_lt_one (show (0 : ℚ) < 2 ^ e by positivity), ← hscaled, div_lt_one hposq]
  exact Nat.cast_lt.symm

theorem zpow_log2_le {n : Nat} (hn : 0 < n) : (2 : ℚ) ^ (n.log2 : Int) ≤ n := by
  exact_mod_cast Nat.log2_self_le hn.ne'

theorem lt_zpow_log2 (n : Nat) : (n : ℚ) < 2 ^ ((n.log2 : Int) + 1) := by
  exact_mod_cast Nat.lt_log2_self (n := n)

theorem eq_log_of_between {q : ℚ} {e : Int} (hlow : (2 : ℚ) ^ e ≤ q) (hhigh : q < 2 ^ (e + 1)) :
    e = Int.log 2 q := by
  have hpos : 0 < q := lt_of_lt_of_le (by positivity) hlow
  have hle := (Int.zpow_le_iff_le_log (b := 2) (by norm_num) hpos).mp (by exact_mod_cast hlow)
  have hlt := (Int.lt_zpow_iff_log_lt (b := 2) (by norm_num) hpos).mp (by exact_mod_cast hhigh)
  omega

theorem magnitude_eq_log {num den : Nat} (hn : 0 < num) (hd : 0 < den) :
    magnitude num den = Int.log 2 ((num : ℚ) / den) := by
  have hdq : (0 : ℚ) < den := by exact_mod_cast hd
  have hless := scaled_lt_iff num hd ((num.log2 : Int) - den.log2)
  unfold magnitude
  dsimp only
  split
  · next hlt =>
    refine eq_log_of_between ?_ ?_
    · calc (2 : ℚ) ^ ((num.log2 : Int) - den.log2 - 1)
          = 2 ^ (num.log2 : Int) / 2 ^ ((den.log2 : Int) + 1) := by
            rw [← zpow_sub₀ (by norm_num)]
            congr 1
            omega
        _ ≤ num / den := by
            gcongr
            · exact zpow_log2_le hn
            · exact (lt_zpow_log2 den).le
    · rw [sub_add_cancel]
      exact hless.mp hlt
  · next hge =>
    refine eq_log_of_between (not_lt.mp fun hlt => hge (hless.mpr hlt)) ?_
    calc (num : ℚ) / den < 2 ^ ((num.log2 : Int) + 1) / 2 ^ (den.log2 : Int) := by
          gcongr
          · exact lt_zpow_log2 num
          · exact zpow_log2_le hd
      _ = 2 ^ ((num.log2 : Int) - den.log2 + 1) := by
          rw [← zpow_sub₀ (by norm_num)]
          congr 1
          omega

/-! ## Rounding -/

/-- The exponent of the last bit of a number of the size of `q`. -/
def unitExponent (q : ℚ) : Int := max (Int.log 2 q - 52) minExponent

theorem ofRatio_eq_pack {num den : Nat} (hn : 0 < num) (hd : 0 < den) (negative : Bool) :
    ofRatio negative num den = pack negative
      (roundDiv (scaled num den (unitExponent (num / den))).1
        (scaled num den (unitExponent (num / den))).2) (unitExponent (num / den)) := by
  rw [ofRatio, if_neg hn.ne', magnitude_eq_log hn hd]
  rfl

/-- **The nearest number depends on the quotient alone.** -/
theorem ofRatio_congr {num den num' den' : Nat} (hd : 0 < den) (hd' : 0 < den')
    (h : (num : ℚ) / den = num' / den') (negative : Bool) :
    ofRatio negative num den = ofRatio negative num' den' := by
  have hzero : num = 0 ↔ num' = 0 := by
    have hd0 : (den : ℚ) ≠ 0 := by positivity
    have hd0' : (den' : ℚ) ≠ 0 := by positivity
    rw [← Nat.cast_eq_zero (R := ℚ), ← Nat.cast_eq_zero (R := ℚ) (n := num'),
      ← div_eq_zero_iff.trans (or_iff_left hd0), h, div_eq_zero_iff, or_iff_left hd0']
  by_cases hn : num = 0
  · rw [ofRatio, ofRatio, if_pos hn, if_pos (hzero.mp hn)]
  · obtain ⟨hpos, hscaled⟩ := scaled_spec num hd (unitExponent (num / den))
    obtain ⟨hpos', hscaled'⟩ := scaled_spec num' hd' (unitExponent (num' / den'))
    rw [ofRatio_eq_pack (Nat.pos_of_ne_zero hn) hd,
      ofRatio_eq_pack (Nat.pos_of_ne_zero fun hn' => hn (hzero.mpr hn')) hd', h]
    congr 1
    refine roundDiv_congr (h ▸ hpos) hpos' ?_
    rw [h] at hscaled
    rw [hscaled, hscaled']

/-- A quotient is rounded to a multiple of its last bit that is less than half a bit away. -/
theorem ofRatio_of_near_multiple {num den k : Nat} (hn : 0 < num) (hd : 0 < den) {e : Int}
    (he : unitExponent (num / den) = e) (hk : |(num : ℚ) / den - k * 2 ^ e| < 2 ^ e / 2)
    (negative : Bool) : ofRatio negative num den = pack negative k e := by
  obtain ⟨hpos, hscaled⟩ := scaled_spec num hd e
  have hunit : (0 : ℚ) < 2 ^ e := by positivity
  rw [ofRatio_eq_pack hn hd, he, roundDiv_eq_of_near hpos (k := k)]
  rw [hscaled, div_sub' hunit.ne', abs_div, abs_of_pos hunit, div_lt_iff₀ hunit, mul_comm _ (k : ℚ)]
  linarith

/-! ## Numbers -/

/-- The normal form of a number: it is zero, or it has as many bits as the exponent leaves. -/
inductive Normal : Binary64 → Prop where
  | zero (negative : Bool) : Normal (.finite negative 0 0)
  | finite (negative : Bool) {mantissa : Nat} {exponent : Int} (hpos : 0 < mantissa)
      (hlt : mantissa < 2 ^ 53) (hmin : minExponent ≤ exponent) (hmax : exponent ≤ maxExponent)
      (hfull : 2 ^ 52 ≤ mantissa ∨ exponent = minExponent) :
      Normal (.finite negative mantissa exponent)
  | infinite (negative : Bool) : Normal (.infinite negative)

theorem pack_of_lt {mantissa : Nat} {exponent : Int} (hpos : 0 < mantissa)
    (hlt : mantissa < 2 ^ 53) (hmax : exponent ≤ maxExponent) (negative : Bool) :
    pack negative mantissa exponent = .finite negative mantissa exponent := by
  have hlt' : mantissa < Nat.pow 2 53 := hlt
  rw [pack, if_neg hpos.ne']
  simp only [if_pos hlt', if_neg (not_lt.mpr hmax)]

theorem pack_of_carry {exponent : Int} (hmax : exponent + 1 ≤ maxExponent) (negative : Bool) :
    pack negative (2 ^ 53) exponent = .finite negative (2 ^ 52) (exponent + 1) := by
  have hge : ¬(2 ^ 53 : Nat) < Nat.pow 2 53 := lt_irrefl _
  rw [pack, if_neg (by norm_num)]
  simp only [if_neg hge, if_neg (not_lt.mpr hmax)]
  norm_num

theorem normal_pack {mantissa : Nat} {exponent : Int} (hle : mantissa ≤ 2 ^ 53)
    (hmin : minExponent ≤ exponent) (hfull : 2 ^ 52 ≤ mantissa ∨ exponent = minExponent)
    (negative : Bool) : Normal (pack negative mantissa exponent) := by
  rcases Nat.eq_zero_or_pos mantissa with rfl | hpos
  · exact .zero negative
  rcases Nat.lt_or_eq_of_le hle with hlt | rfl
  · by_cases hmax : exponent ≤ maxExponent
    · rw [pack_of_lt hpos hlt hmax]
      exact .finite negative hpos hlt hmin hmax hfull
    · have hlt' : mantissa < Nat.pow 2 53 := hlt
      rw [pack, if_neg hpos.ne']
      simp only [if_pos hlt', if_pos (not_le.mp hmax)]
      exact .infinite negative
  · by_cases hmax : exponent + 1 ≤ maxExponent
    · rw [pack_of_carry hmax]
      exact .finite negative (by norm_num) (by norm_num) (by omega) hmax (.inl le_rfl)
    · have hge : ¬(2 ^ 53 : Nat) < Nat.pow 2 53 := lt_irrefl _
      rw [pack, if_neg (by norm_num)]
      simp only [if_neg hge, if_pos (not_le.mp hmax)]
      exact .infinite negative

/-- What a quotient is rounded to is in normal form. -/
theorem normal_ofRatio {den : Nat} (hd : 0 < den) (num : Nat) (negative : Bool) :
    Normal (ofRatio negative num den) := by
  rcases Nat.eq_zero_or_pos num with rfl | hn
  · rw [ofRatio, if_pos rfl]
    exact .zero negative
  obtain ⟨hpos, hscaled⟩ := scaled_spec num hd (unitExponent (num / den))
  rw [ofRatio_eq_pack hn hd]
  have hqpos : (0 : ℚ) < num / den := by positivity
  generalize (num : ℚ) / den = q at hpos hscaled hqpos ⊢
  generalize (scaled num den (unitExponent q)).1 = n at hscaled ⊢
  generalize (scaled num den (unitExponent q)).2 = d at hpos hscaled ⊢
  have hlow := Int.zpow_log_le_self (b := 2) (by norm_num) hqpos
  have hhigh := Int.lt_zpow_succ_log_self (b := 2) (by norm_num) q
  -- the quotient has at most 53 bits before its point, and all of them unless it is small
  have hlt : n / d < 2 ^ 53 := by
    have hle : Int.log 2 q + 1 ≤ 53 + unitExponent q := by
      unfold unitExponent
      omega
    rw [Nat.div_lt_iff_lt_mul hpos, ← Nat.cast_lt (α := ℚ), Nat.cast_mul,
      ← div_lt_iff₀ (by exact_mod_cast hpos), hscaled, div_lt_iff₀ (by positivity)]
    rw [Nat.cast_pow, Nat.cast_ofNat, ← zpow_natCast, ← zpow_add₀ two_ne_zero]
    exact hhigh.trans_le (zpow_le_zpow_right₀ one_le_two hle)
  refine normal_pack ((roundDiv_le n d).trans hlt) (le_max_right _ _) ?_ negative
  rcases max_choice (Int.log 2 q - 52) minExponent with hmax | hmin
  · refine .inl (le_trans ?_ (div_le_roundDiv n d))
    have hunit : unitExponent q = Int.log 2 q - 52 := hmax
    rw [Nat.le_div_iff_mul_le hpos, ← Nat.cast_le (α := ℚ), Nat.cast_mul,
      ← le_div_iff₀ (by exact_mod_cast hpos), hscaled, le_div_iff₀ (by positivity), hunit]
    rw [Nat.cast_pow, Nat.cast_ofNat, ← zpow_natCast, ← zpow_add₀ two_ne_zero, Nat.cast_ofNat,
      add_sub_cancel]
    exact hlow
  · exact .inr hmin

theorem unitExponent_of_between {q : ℚ} {e : Int} (he : minExponent ≤ e)
    (hlow : (2 : ℚ) ^ (e + 52) ≤ q) (hhigh : q < 2 ^ (e + 53)) : unitExponent q = e := by
  have hlog := eq_log_of_between hlow (by rwa [add_assoc])
  unfold unitExponent
  omega

theorem unitExponent_of_small {q : ℚ} (hpos : 0 < q) (hhigh : q < 2 ^ (minExponent + 53)) :
    unitExponent q = minExponent := by
  have hlog := (Int.lt_zpow_iff_log_lt (b := 2) (by norm_num) hpos).mp (by exact_mod_cast hhigh)
  unfold unitExponent
  omega

/-- **A quotient that is near to a number is rounded to it.** The bound is a quarter of the last
bit of a number whose mantissa is a power of two, for below such a number the bits are smaller. -/
theorem ofRatio_of_near {negative : Bool} {mantissa : Nat} {exponent : Int} (hpos : 0 < mantissa)
    (h : Normal (.finite negative mantissa exponent)) {num den : Nat} (hd : 0 < den)
    (hnear : |(num : ℚ) / den - mantissa * 2 ^ exponent| * 2 ^ 54 < mantissa * 2 ^ exponent) :
    ofRatio negative num den = .finite negative mantissa exponent := by
  cases h with
  | zero => exact absurd hpos (lt_irrefl 0)
  | finite _ _ hlt hmin hmax hfull =>
  have hunit : (0 : ℚ) < 2 ^ exponent := by positivity
  have hone : (1 : ℚ) ≤ mantissa := by exact_mod_cast hpos
  have hltq : (mantissa : ℚ) + 1 ≤ 2 ^ 53 := by exact_mod_cast hlt
  have hhalf : |(num : ℚ) / den - mantissa * 2 ^ exponent| < 2 ^ exponent / 2 := by nlinarith
  obtain ⟨hbelow, habove⟩ := abs_lt.mp hhalf
  have hqpos : (0 : ℚ) < num / den := by nlinarith
  have hn : 0 < num := by
    refine Nat.pos_of_ne_zero ?_
    rintro rfl
    simp at hqpos
  have hhigh : (num : ℚ) / den < 2 ^ (exponent + 53) := by
    rw [zpow_add₀ (by norm_num)]
    norm_num at hltq ⊢
    nlinarith
  by_cases hlow : exponent = minExponent ∨ (2 : ℚ) ^ (exponent + 52) ≤ num / den
  · -- the quotient has the exponent of the number
    have hexponent : unitExponent (num / den) = exponent := by
      rcases hlow with rfl | hlow
      · exact unitExponent_of_small hqpos hhigh
      · exact unitExponent_of_between hmin hlow hhigh
    rw [ofRatio_of_near_multiple hn hd hexponent hhalf, pack_of_lt hpos hlt hmax]
  · -- it lies below a power of two, so that the number is that power
    obtain ⟨hexp, hless⟩ := not_or.mp hlow
    rw [not_le] at hless
    have hm : mantissa = 2 ^ 52 := by
      refine le_antisymm (Nat.lt_succ_iff.mp ?_) (hfull.resolve_right hexp)
      rw [zpow_add₀ (by norm_num)] at hless
      norm_num at hless
      have : (mantissa : ℚ) < 4503599627370497 := by nlinarith
      exact_mod_cast this
    subst hm
    have hcarry : (2 : ℚ) ^ exponent = 2 ^ (exponent - 1) * 2 := by
      rw [← zpow_add_one₀ (by norm_num), sub_add_cancel]
    have hquarter : |(num : ℚ) / den - (2 ^ 53 : Nat) * 2 ^ (exponent - 1)|
        < 2 ^ (exponent - 1) / 2 := by
      rw [show ((2 ^ 53 : Nat) : ℚ) * 2 ^ (exponent - 1) = (2 ^ 52 : Nat) * 2 ^ exponent by
        rw [hcarry]; push_cast; ring]
      push_cast at hnear ⊢
      linarith
    have hexponent : unitExponent (num / den) = exponent - 1 := by
      refine unitExponent_of_between (by omega) ?_ ?_
      · have hunit' : (0 : ℚ) < 2 ^ (exponent - 1) := by positivity
        have := (abs_lt.mp hquarter).1
        push_cast at this
        rw [zpow_add₀ (by norm_num)]
        norm_num at this ⊢
        nlinarith
      · rwa [show exponent - 1 + 53 = exponent + 52 by omega]
    rw [ofRatio_of_near_multiple hn hd hexponent hquarter, pack_of_carry (by omega),
      sub_add_cancel]

end WireModel.Binary64
