import Mathlib.Data.Nat.Cast.Order.Field
import WireModel.Number.Shortest
import WireModel.Proofs.Number.Rounding

/-!
# Shortest decimals read back

The search for the shortest decimal tries one digit, two digits and so on, and takes the first
decimal that reads back. It is to be shown that there is one: with seventeen digits, the nearer
neighbour of a number on the grid of decimals is so near to it that reading rounds it to the number
(`isSome_nearest?_seventeen`). What is found reads back by the choice of the search.

The size of a number enters in one place. Reading takes decimals of more than 310 places before the
point for infinite and those far behind the point for zero, and `Normal` numbers keep away from both
(`pointOf_bounds`).
-/

namespace WireModel.Binary64

/-! ## Numbers as fractions -/

/-- A number times a power of a base is a fraction, whatever the sign of the exponent. -/
theorem power_spec {b : Nat} (hb : 0 < b) (m : Nat) (e : Int) {n d : Nat}
    (h : (if 0 ≤ e then (m * Nat.pow b e.toNat, 1) else (m, Nat.pow b (-e).toNat)) = (n, d)) :
    0 < d ∧ (n : ℚ) / d = m * b ^ e := by
  split at h
  · next he =>
    obtain ⟨k, rfl⟩ := Int.eq_ofNat_of_zero_le he
    obtain ⟨rfl, rfl⟩ := Prod.mk.inj h
    refine ⟨Nat.one_pos, ?_⟩
    simp only [Int.toNat_natCast, Nat.pow_eq, zpow_natCast]
    push_cast
    rw [div_one]
  · next he =>
    obtain ⟨k, hk⟩ := Int.eq_ofNat_of_zero_le (show 0 ≤ -e by omega)
    obtain rfl : e = -(k : Int) := by omega
    obtain ⟨rfl, rfl⟩ := Prod.mk.inj h
    refine ⟨Nat.pow_pos hb, ?_⟩
    simp only [neg_neg, Int.toNat_natCast, Nat.pow_eq, zpow_neg, zpow_natCast]
    push_cast
    rw [div_eq_mul_inv]

theorem ratio_spec (mantissa : Nat) (exponent : Int) :
    0 < (ratio mantissa exponent).2
      ∧ ((ratio mantissa exponent).1 : ℚ) / (ratio mantissa exponent).2
        = mantissa * 2 ^ exponent :=
  power_spec (b := 2) (by norm_num) mantissa exponent rfl

/-! ## Sizes of decimals -/

theorem decimalSize_le_iff {n k : Nat} (hk : 0 < k) : decimalSize n ≤ k ↔ n < 10 ^ k :=
  Nat.length_toDigits_le_iff (by norm_num) hk

theorem decimalSize_pos (n : Nat) : 0 < decimalSize n := Nat.length_toDigits_pos

theorem lt_pow_decimalSize (n : Nat) : n < 10 ^ decimalSize n :=
  (decimalSize_le_iff (decimalSize_pos n)).mp le_rfl

theorem lt_decimalSize_of_pow_le {n k : Nat} (h : 10 ^ k ≤ n) : k < decimalSize n := by
  by_contra hle
  have hlt := (lt_pow_decimalSize n).trans_le
    (Nat.pow_le_pow_right (by norm_num) (not_lt.mp hle))
  omega

theorem pow_le_of_lt_decimalSize {n k : Nat} (hn : 0 < n) (h : k < decimalSize n) :
    10 ^ k ≤ n := by
  rcases Nat.eq_zero_or_pos k with rfl | hk
  · exact hn
  · exact not_lt.mp fun hlt => absurd ((decimalSize_le_iff hk).mpr hlt) (by omega)

theorem decimalSize_mul_pow {n : Nat} (hn : 0 < n) (k : Nat) :
    decimalSize (n * 10 ^ k) = decimalSize n + k := by
  have hpos := decimalSize_pos n
  refine le_antisymm ?_ ?_
  · rw [decimalSize_le_iff (by omega), pow_add]
    exact Nat.mul_lt_mul_of_pos_right (lt_pow_decimalSize n) (Nat.pow_pos (by norm_num))
  · have hlow := pow_le_of_lt_decimalSize hn (show decimalSize n - 1 < decimalSize n by omega)
    have hle : 10 ^ (decimalSize n - 1 + k) ≤ n * 10 ^ k := by
      rw [pow_add]
      exact Nat.mul_le_mul_right _ hlow
    have := lt_decimalSize_of_pow_le hle
    omega

/-! ## Reading decimals -/

/-- A decimal of moderate size is read as the number nearest to it. -/
theorem ofDecimal_eq_ofRatio {digits : Nat} {exponent : Int} (hdigits : 0 < digits)
    (hlow : -330 ≤ decimalSize digits + exponent) (hhigh : decimalSize digits + exponent ≤ 310) :
    ∃ num den : Nat, 0 < den ∧ (num : ℚ) / den = digits * 10 ^ exponent
      ∧ ∀ negative, ofDecimal negative digits exponent = ofRatio negative num den := by
  unfold ofDecimal
  simp only [if_neg hdigits.ne', if_neg (not_lt.mpr hhigh), if_neg (not_lt.mpr hlow)]
  by_cases he : 0 ≤ exponent
  · obtain ⟨hd, hvalue⟩ := power_spec (b := 10) (by norm_num) digits exponent (if_pos he)
    exact ⟨_, _, hd, hvalue, fun _ => if_pos he⟩
  · obtain ⟨hd, hvalue⟩ := power_spec (b := 10) (by norm_num) digits exponent (if_neg he)
    exact ⟨_, _, hd, hvalue, fun _ => if_neg he⟩

theorem normal_ofDecimal (negative : Bool) (digits : Nat) (exponent : Int) :
    Normal (ofDecimal negative digits exponent) := by
  unfold ofDecimal
  dsimp only
  split_ifs
  · exact .zero negative
  · exact .infinite negative
  · exact .zero negative
  · exact normal_ofRatio Nat.one_pos _ negative
  · exact normal_ofRatio (Nat.pow_pos (by norm_num)) digits negative

/-- Zeros at the end of the digits count for the exponent. -/
theorem ofDecimal_mul_pow (negative : Bool) (digits k : Nat) (exponent : Int) :
    ofDecimal negative (digits * 10 ^ k) exponent = ofDecimal negative digits (exponent + k) := by
  rcases Nat.eq_zero_or_pos digits with rfl | hdigits
  · simp [ofDecimal]
  have hpos : 0 < digits * 10 ^ k := Nat.mul_pos hdigits (Nat.pow_pos (by norm_num))
  have hsize : (decimalSize (digits * 10 ^ k) : Int) + exponent
      = decimalSize digits + (exponent + k) := by
    rw [decimalSize_mul_pow hdigits]
    omega
  by_cases hmoderate : -330 ≤ decimalSize digits + (exponent + k)
      ∧ decimalSize digits + (exponent + k) ≤ 310
  · obtain ⟨num, den, hd, hvalue, heq⟩ :=
      ofDecimal_eq_ofRatio hdigits hmoderate.1 hmoderate.2
    obtain ⟨num', den', hd', hvalue', heq'⟩ :=
      ofDecimal_eq_ofRatio hpos (hsize ▸ hmoderate.1) (hsize ▸ hmoderate.2)
    rw [heq, heq', ofRatio_congr hd' hd]
    rw [hvalue, hvalue', zpow_add₀ (by norm_num), zpow_natCast]
    push_cast
    ring
  · -- both are too large or too small, for the same reason
    unfold ofDecimal
    simp only [if_neg hdigits.ne', if_neg hpos.ne', hsize]
    split
    · rfl
    · split
      · rfl
      · omega

/-! ## The place of the point -/

theorem zpow_neg_le_div_iff {num den : Nat} (hd : 0 < den) (k : Nat) :
    (10 : ℚ) ^ (-(k : Int)) ≤ num / den ↔ den ≤ num * 10 ^ k := by
  have hdq : (0 : ℚ) < den := by exact_mod_cast hd
  rw [le_div_iff₀ hdq, zpow_neg, zpow_natCast, inv_mul_le_iff₀ (by positivity), mul_comm]
  exact_mod_cast Iff.rfl

/-- The place of the point tells the powers of ten that the number lies between. -/
theorem pointOf_spec {num den : Nat} (hd : 0 < den) (hsmall : (10 : ℚ) ^ (-330 : Int) ≤ num / den) :
    (10 : ℚ) ^ (pointOf num den - 1) ≤ num / den ∧ (num : ℚ) / den < 10 ^ pointOf num den := by
  have hdq : (0 : ℚ) < den := by exact_mod_cast hd
  unfold pointOf
  split
  · next hle =>
    -- the number is at least one, and the digits before the point are counted
    have hsize := decimalSize_pos (num / den)
    have hlow : 10 ^ (decimalSize (num / den) - 1) ≤ num / den :=
      pow_le_of_lt_decimalSize (Nat.div_pos hle hd) (by omega)
    have hhigh := lt_pow_decimalSize (num / den)
    rw [Nat.le_div_iff_mul_le hd] at hlow
    rw [Nat.div_lt_iff_lt_mul hd] at hhigh
    rw [le_div_iff₀ hdq, div_lt_iff₀ hdq,
      show (decimalSize (num / den) : Int) - 1 = (decimalSize (num / den) - 1 : Nat) by omega,
      zpow_natCast, zpow_natCast]
    exact ⟨by exact_mod_cast hlow, by exact_mod_cast hhigh⟩
  · next hlt =>
    split
    · next j hfind =>
      obtain ⟨hfound, -, hbefore⟩ := List.find?_range_eq_some.mp hfind
      rw [decide_eq_true_eq] at hfound
      rw [show -(j : Int) - 1 = -((j + 1 : Nat) : Int) by omega, zpow_neg_le_div_iff hd]
      refine ⟨hfound, not_le.mp fun hle => ?_⟩
      rw [zpow_neg_le_div_iff hd] at hle
      -- the zero before `j` would have been found
      cases j with
      | zero => exact hlt (by simpa using hle)
      | succ i =>
        have hmissed := hbefore i (by omega)
        rw [Bool.not_eq_true', decide_eq_false_iff_not] at hmissed
        exact hmissed hle
    · next hnone =>
      rw [List.find?_range_eq_none] at hnone
      obtain ⟨k, hk⟩ : ∃ k, k + 1 = 330 := ⟨329, rfl⟩
      have hlast := hnone k (by omega)
      rw [Bool.not_eq_true', decide_eq_false_iff_not] at hlast
      rw [show (-330 : Int) = -((k + 1 : Nat) : Int) by omega, zpow_neg_le_div_iff hd] at hsmall
      exact absurd hsmall hlast

theorem zpow_ten_le_zpow_two {a b : Nat} (h : 2 ^ a ≤ 10 ^ b) :
    (10 : ℚ) ^ (-(b : Int)) ≤ 2 ^ (-(a : Int)) := by
  rw [zpow_neg, zpow_neg, zpow_natCast, zpow_natCast]
  exact inv_anti₀ (by positivity) (by exact_mod_cast h)

theorem zpow_two_le_zpow_ten {a b : Nat} (h : 2 ^ a ≤ 10 ^ b) :
    (2 : ℚ) ^ (a : Int) ≤ 10 ^ (b : Int) := by
  rw [zpow_natCast, zpow_natCast]
  exact_mod_cast h

/-- The numbers in normal form lie between these powers of ten. -/
theorem Normal.bounds {negative : Bool} {mantissa : Nat} {exponent : Int}
    (h : Normal (.finite negative mantissa exponent)) (hpos : 0 < mantissa) :
    (10 : ℚ) ^ (-330 : Int) ≤ mantissa * 2 ^ exponent
      ∧ mantissa * 2 ^ exponent < (10 : ℚ) ^ (309 : Int) := by
  cases h with
  | zero => exact absurd hpos (lt_irrefl 0)
  | finite _ _ hlt hmin hmax _ =>
  have hone : (1 : ℚ) ≤ mantissa := by exact_mod_cast hpos
  have hltq : (mantissa : ℚ) < 2 ^ (53 : Int) := by exact_mod_cast hlt
  constructor
  · calc (10 : ℚ) ^ (-330 : Int) ≤ 2 ^ (-1074 : Int) :=
          zpow_ten_le_zpow_two (a := 1074) (b := 330) (by decide +kernel)
      _ ≤ 2 ^ exponent := zpow_le_zpow_right₀ (by norm_num) hmin
      _ ≤ mantissa * 2 ^ exponent := le_mul_of_one_le_left (by positivity) hone
  · calc (mantissa : ℚ) * 2 ^ exponent < 2 ^ (53 : Int) * 2 ^ exponent :=
          mul_lt_mul_of_pos_right hltq (by positivity)
      _ ≤ 2 ^ (53 : Int) * 2 ^ (971 : Int) := by
          gcongr
          · norm_num
          · exact hmax
      _ = 2 ^ (1024 : Int) := by rw [← zpow_add₀ (by norm_num)]; rfl
      _ ≤ 10 ^ (309 : Int) := zpow_two_le_zpow_ten (a := 1024) (b := 309) (by decide +kernel)

/-! ## Neighbours on the grid -/

/-- The digits of the last decimal with `count` digits that is not above `num / den`. -/
def digitsBelow (num den count : Nat) : Nat :=
  let (n, d) := decimalScaled num den (pointOf num den - count)
  n / d

/-- What is found with `count` digits is a neighbour, and it reads back. -/
theorem nearest?_eq_some {num den count : Nat} {decimal : Decimal}
    (h : nearest? num den count = some decimal) :
    decimal.exponent = pointOf num den - count
      ∧ (decimal.digits = digitsBelow num den count ∨
        decimal.digits = digitsBelow num den count + 1)
      ∧ ofDecimal false decimal.digits decimal.exponent = ofRatio false num den := by
  unfold nearest? at h
  dsimp only at h
  -- a neighbour is taken only where it has been seen to read back
  split at h
  · next hlow hhigh =>
    obtain rfl := Option.some.inj h
    refine ⟨rfl, ?_⟩
    dsimp only
    split
    · exact ⟨.inl rfl, eq_of_beq hlow⟩
    · exact ⟨.inr rfl, eq_of_beq hhigh⟩
  · next hlow _ =>
    obtain rfl := Option.some.inj h
    exact ⟨rfl, .inl rfl, eq_of_beq hlow⟩
  · next _ hhigh =>
    obtain rfl := Option.some.inj h
    exact ⟨rfl, .inr rfl, eq_of_beq hhigh⟩
  · cases h

/-- A neighbour that reads back is enough. -/
theorem isSome_nearest? {num den count digits : Nat}
    (hdigits : digits = digitsBelow num den count ∨ digits = digitsBelow num den count + 1)
    (h : ofDecimal false digits (pointOf num den - count) = ofRatio false num den) :
    (nearest? num den count).isSome = true := by
  have hreads : (ofDecimal false digits (pointOf num den - count) == ofRatio false num den)
      = true := beq_iff_eq.mpr h
  unfold nearest?
  dsimp only
  split
  · rfl
  · rfl
  · rfl
  · next hlow hhigh =>
    rcases hdigits with rfl | rfl
    · exact absurd (hreads.symm.trans hlow) (by decide)
    · exact absurd (hreads.symm.trans hhigh) (by decide)

section Neighbours

variable {num den : Nat} (hd : 0 < den) (hsmall : (10 : ℚ) ^ (-330 : Int) ≤ num / den)

include hd

variable (num) in
theorem digitsBelow_spec (count : Nat) :
    (digitsBelow num den count : ℚ) * 10 ^ (pointOf num den - count) ≤ num / den
      ∧ (num : ℚ) / den < (digitsBelow num den count + 1) * 10 ^ (pointOf num den - count) := by
  obtain ⟨⟨n, d⟩, hpair⟩ : ∃ p, decimalScaled num den (pointOf num den - count) = p := ⟨_, rfl⟩
  obtain ⟨hpos, hscaled⟩ := scale_spec (b := 10) (by norm_num) num hd _ hpair
  have hposq : (0 : ℚ) < d := by exact_mod_cast hpos
  have hunit : (0 : ℚ) < 10 ^ (pointOf num den - count) := by positivity
  have hbelow : digitsBelow num den count = n / d := by rw [digitsBelow, hpair]
  rw [← le_div_iff₀ hunit, ← div_lt_iff₀ hunit, hbelow]
  rw [Nat.cast_ofNat] at hscaled
  rw [← hscaled]
  refine ⟨Nat.cast_div_le, ?_⟩
  rw [div_lt_iff₀ hposq]
  exact_mod_cast Nat.lt_mul_of_div_lt (Nat.lt_succ_self (n / d)) hpos

include hsmall

theorem pow_le_digitsBelow (count : Nat) : 10 ^ count ≤ digitsBelow num den (count + 1) := by
  have hunit : (0 : ℚ) < 10 ^ (pointOf num den - (count + 1 : Nat)) := by positivity
  have hlt : (10 : ℚ) ^ count < digitsBelow num den (count + 1) + 1 := by
    refine lt_of_mul_lt_mul_right ?_ hunit.le
    calc (10 : ℚ) ^ count * 10 ^ (pointOf num den - (count + 1 : Nat))
        = 10 ^ (pointOf num den - 1) := by
          rw [← zpow_natCast, ← zpow_add₀ (by norm_num)]
          congr 1
          omega
      _ ≤ num / den := (pointOf_spec hd hsmall).1
      _ < _ := (digitsBelow_spec num hd (count + 1)).2
  exact Nat.lt_succ_iff.mp (by exact_mod_cast hlt)

theorem digitsBelow_lt (count : Nat) : digitsBelow num den count < 10 ^ count := by
  have hunit : (0 : ℚ) < 10 ^ (pointOf num den - count) := by positivity
  have hlt : (digitsBelow num den count : ℚ) < 10 ^ count := by
    refine lt_of_mul_lt_mul_right ?_ hunit.le
    calc (digitsBelow num den count : ℚ) * 10 ^ (pointOf num den - count)
        ≤ num / den := (digitsBelow_spec num hd count).1
      _ < 10 ^ pointOf num den := (pointOf_spec hd hsmall).2
      _ = 10 ^ count * 10 ^ (pointOf num den - count) := by
          rw [← zpow_natCast, ← zpow_add₀ (by norm_num)]
          congr 1
          omega
  exact_mod_cast hlt

end Neighbours

/-! ## The search -/

/-- The first of the numbers below `n` for which something is found. -/
theorem findSome?_range_eq_some {α : Type} {f : Nat → Option α} {n : Nat} {a : α}
    (h : (List.range n).findSome? f = some a) :
    ∃ k < n, f k = some a ∧ ∀ j < k, f j = none := by
  induction n with
  | zero => cases h
  | succ n ih =>
    rw [List.range_succ, List.findSome?_append] at h
    cases hfind : (List.range n).findSome? f with
    | some b =>
      rw [hfind] at h
      obtain ⟨k, hk, hfound, hfirst⟩ := ih (hfind.trans h)
      exact ⟨k, by omega, hfound, hfirst⟩
    | none =>
      rw [hfind, Option.none_or, List.findSome?_singleton] at h
      refine ⟨n, by omega, h, fun j hj => ?_⟩
      exact List.findSome?_eq_none_iff.mp hfind j (List.mem_range.mpr hj)

section Search

variable {num den mantissa : Nat} {exponent : Int} (hd : 0 < den) (hpos : 0 < mantissa)
  (h : Normal (.finite false mantissa exponent))
  (hvalue : (num : ℚ) / den = mantissa * 2 ^ exponent)

include h hpos

/-- A decimal that is near to a number is read as the number. -/
theorem ofDecimal_of_near {digits : Nat} {e : Int} (hdigits : 0 < digits)
    (hlow : -330 ≤ decimalSize digits + e) (hhigh : decimalSize digits + e ≤ 310)
    (hnear : |(digits : ℚ) * 10 ^ e - mantissa * 2 ^ exponent| * 2 ^ 54 < mantissa * 2 ^ exponent) :
    ofDecimal false digits e = .finite false mantissa exponent := by
  obtain ⟨n, d, hd, hvalue, heq⟩ := ofDecimal_eq_ofRatio hdigits hlow hhigh
  rw [heq]
  refine ofRatio_of_near hpos h hd ?_
  rwa [hvalue]

include hd hvalue

theorem ofRatio_of_eq : ofRatio false num den = .finite false mantissa exponent := by
  refine ofRatio_of_near hpos h hd ?_
  have hunit : (0 : ℚ) < mantissa * 2 ^ exponent := by positivity
  rw [hvalue, sub_self, abs_zero, zero_mul]
  exact hunit

theorem pointOf_bounds : -330 < pointOf num den ∧ pointOf num den ≤ 309 := by
  obtain ⟨hsmall, hlarge⟩ := h.bounds hpos
  rw [← hvalue] at hsmall hlarge
  obtain ⟨hlow, hhigh⟩ := pointOf_spec hd hsmall
  have hle := (zpow_lt_zpow_iff_right₀ (by norm_num)).mp (hsmall.trans_lt hhigh)
  have hge := (zpow_lt_zpow_iff_right₀ (by norm_num)).mp (hlow.trans_lt hlarge)
  omega

/-- **Seventeen digits suffice**: the nearer of two neighbours is off by half a unit of the last
digit at most, and that is less than what rounding takes away. -/
theorem isSome_nearest?_seventeen : (nearest? num den 17).isSome = true := by
  have hsmall := (h.bounds hpos).1
  rw [← hvalue] at hsmall
  obtain ⟨hp, hp'⟩ := pointOf_bounds hd hpos h hvalue
  obtain ⟨hlow, hhigh⟩ := digitsBelow_spec num hd 17
  have hge := pow_le_digitsBelow hd hsmall 16
  have hlt := digitsBelow_lt hd hsmall 17
  norm_num at hge hlt
  have hgeq : (10 ^ 16 : ℚ) ≤ digitsBelow num den 17 := by exact_mod_cast hge
  have hunit : (0 : ℚ) < 10 ^ (pointOf num den - (17 : Nat)) := by positivity
  -- either neighbour has seventeen digits, or it is a one with seventeen zeros
  have hreads : ∀ c : Nat, digitsBelow num den 17 ≤ c → c ≤ digitsBelow num den 17 + 1 →
      |(c : ℚ) * 10 ^ (pointOf num den - (17 : Nat)) - num / den|
        ≤ 10 ^ (pointOf num den - (17 : Nat)) / 2 →
      ofDecimal false c (pointOf num den - (17 : Nat)) = ofRatio false num den := by
    intro c hc hc' hnear
    have hsize : 16 < decimalSize c := lt_decimalSize_of_pow_le (by omega)
    have hsize' : decimalSize c ≤ 18 := (decimalSize_le_iff (by omega)).mpr (by omega)
    rw [ofRatio_of_eq hd hpos h hvalue]
    refine ofDecimal_of_near hpos h (by omega) (by omega) (by omega) ?_
    rw [← hvalue]
    nlinarith
  by_cases hnearer : num / den - (digitsBelow num den 17 : ℚ) * 10 ^ (pointOf num den - (17 : Nat))
      ≤ 10 ^ (pointOf num den - (17 : Nat)) / 2
  · refine isSome_nearest? (.inl rfl) (hreads _ le_rfl (by omega) ?_)
    rw [abs_le]
    constructor <;> linarith
  · refine isSome_nearest? (.inr rfl) (hreads _ (by omega) le_rfl ?_)
    push_cast
    rw [abs_le]
    constructor <;> linarith

/-- What the search finds has digits, reads back, and takes as few digits as possible. -/
theorem shortest_spec : ∃ count < 17, nearest? num den (count + 1) = some (shortest num den)
    ∧ (∀ j < count, nearest? num den (j + 1) = none)
    ∧ 0 < (shortest num den).digits
    ∧ ofDecimal false (shortest num den).digits (shortest num den).exponent
      = .finite false mantissa exponent := by
  have hsmall := (h.bounds hpos).1
  rw [← hvalue] at hsmall
  unfold shortest
  split
  · next decimal hfind =>
    obtain ⟨count, hcount, hfound, hfirst⟩ := findSome?_range_eq_some hfind
    obtain ⟨-, hdigits, hreads⟩ := nearest?_eq_some hfound
    refine ⟨count, hcount, hfound, hfirst, ?_, ?_⟩
    · have hge := pow_le_digitsBelow hd hsmall count
      have := Nat.pow_pos (n := count) (show 0 < 10 by norm_num)
      omega
    · rw [hreads, ofRatio_of_eq hd hpos h hvalue]
  · next hnone =>
    have hlast := List.findSome?_eq_none_iff.mp hnone 16 (by decide)
    have hsome := isSome_nearest?_seventeen hd hpos h hvalue
    rw [hlast] at hsome
    cases hsome

end Search

end WireModel.Binary64
