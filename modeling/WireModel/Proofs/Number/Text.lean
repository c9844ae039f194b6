import Mathlib.Data.List.TakeWhile
import WireModel.Json.Token
import WireModel.Proofs.Number.Shortest
import WireModel.Proofs.Numerals

/-!
# Texts of numbers read back

The text of a number is laid out in one of four ways. All of them spell the same decimal, so reading
the text gives what reading the decimal gives (`layout_spells`), which is the number by the choice
of the decimal.

* **`Json.normal_of_numberOf`**: what a numeral spells is a number in normal form.
* **`Binary64.numberOf_text`**: a number in normal form is read back from its text, but for the sign
  of zero, which is not written.
* **`Binary64.text_of_toInt?`**: an integer of magnitude below `2 ^ 53` is written in full, as its
  decimal numeral.
-/

namespace WireModel

/-! ## Digits -/

namespace Json

theorem ofDigits_append (cs ds : List Char) :
    ofDigits (cs ++ ds) = 10 ^ ds.length * ofDigits cs + ofDigits ds := by
  rw [show ofDigits (cs ++ ds) = Nat.ofDigitChars 10 ds (Nat.ofDigitChars 10 cs 0) from
    Nat.ofDigitChars_append 0, Nat.ofDigitChars_eq_ofDigitChars_zero]
  rfl

theorem ofDigits_zeros (n : Nat) : ofDigits (List.replicate n '0') = 0 :=
  Nat.ofDigitChars_replicate_zero

theorem ofDigits_append_zeros (cs : List Char) (n : Nat) :
    ofDigits (cs ++ List.replicate n '0') = ofDigits cs * 10 ^ n := by
  rw [ofDigits_append, ofDigits_zeros, List.length_replicate, Nat.add_zero, Nat.mul_comm]

theorem ofDigits_toDigits (n : Nat) : ofDigits (Nat.toDigits 10 n) = n :=
  Nat.ofDigitChars_toDigits (by norm_num) (by norm_num)

/-! ## Reading -/

/-- A run of characters of one kind, such as digits, ends at the first character of another. -/
theorem takeWhile_run {p : Char → Bool} {cs rest : List Char} (h : ∀ c ∈ cs, p c = true)
    (hrest : ∀ c ∈ rest.head?, p c = false) :
    (cs ++ rest).takeWhile p = cs ∧ (cs ++ rest).dropWhile p = rest := by
  have hstop : rest.takeWhile p = [] ∧ rest.dropWhile p = rest := by
    cases rest with
    | nil => exact ⟨rfl, rfl⟩
    | cons c rest => simp [hrest c rfl]
  rw [List.takeWhile_append_of_pos h, List.dropWhile_append_of_pos h, hstop.1, hstop.2,
    List.append_nil]
  exact ⟨rfl, rfl⟩

/-- Digits that a number can begin with, and what follows them. -/
theorem numberOf_eq {whole rest : List Char} (hne : whole ≠ [])
    (hwhole : ∀ c ∈ whole, Text.isDigit c = true)
    (hzero : whole.length = 1 ∨ whole.head? ≠ some '0')
    (hrest : ∀ c ∈ rest.head?, Text.isDigit c = false) (negative : Bool) :
    numberOf ((if negative then ['-'] else []) ++ (whole ++ rest))
      = (fractionOf rest).bind fun parts => (exponentOf parts.2).map fun e =>
        .ofDecimal negative (ofDigits (whole ++ parts.1)) (e - parts.1.length) := by
  obtain ⟨first, others, rfl⟩ := List.exists_cons_of_ne_nil hne
  obtain ⟨htake, hdrop⟩ := takeWhile_run hwhole hrest
  have hsign : first ≠ '-' := by
    rintro rfl
    exact absurd (hwhole '-' List.mem_cons_self) (by decide)
  have hguard : ((first :: others).isEmpty
      || (decide (1 < (first :: others).length) && (first :: others).head? == some '0'))
        = false := by
    rcases hzero with hone | hhead
    · simp [hone]
    · simpa using fun _ => hhead
  unfold numberOf
  cases negative with
  | true =>
    simp only [if_pos, List.singleton_append, htake, hdrop, hguard]
    rw [if_neg Bool.false_ne_true]
    simp only [Option.map_eq_bind]
    rfl
  | false =>
    simp only [Bool.false_eq_true, if_false, List.nil_append]
    split
    · next heq => exact absurd (List.cons.inj heq).1 hsign
    · simp only [htake, hdrop, hguard]
      rw [if_neg Bool.false_ne_true]
      simp only [Option.map_eq_bind]
      rfl

/-- **What a numeral spells is a number in normal form.** -/
theorem normal_of_numberOf {cs : List Char} {x : Binary64} (h : numberOf cs = some x) :
    x.Normal := by
  unfold numberOf at h
  split at h
  next negative body _ =>
  simp only at h
  split at h
  · cases h
  · obtain ⟨⟨fraction, rest⟩, -, h⟩ := Option.bind_eq_some_iff.mp h
    obtain ⟨exponent, -, h⟩ := Option.bind_eq_some_iff.mp h
    obtain rfl := Option.some.inj h
    exact Binary64.normal_ofDecimal _ _ _

/-- The characters spell the decimal `digits * 10 ^ exponent` without a sign: digits, the first of
which is no zero unless it is the only one, a fraction and an exponent. -/
inductive SpellsDecimal (cs : List Char) (digits : Nat) (exponent : Int) : Prop where
  | mk {whole rest fraction tail : List Char} {e : Int} (hcs : cs = whole ++ rest)
      (ne_nil : whole ≠ []) (isDigit : ∀ c ∈ whole, Text.isDigit c = true)
      (head_ne : whole.length = 1 ∨ whole.head? ≠ some '0')
      (rest_head : ∀ c ∈ rest.head?, Text.isDigit c = false)
      (hfraction : fractionOf rest = some (fraction, tail)) (hexponent : exponentOf tail = some e)
      (digits_eq : ofDigits (whole ++ fraction) = digits)
      (exponent_eq : e - fraction.length = exponent)

theorem numberOf_of_spellsDecimal {cs : List Char} {digits : Nat} {exponent : Int}
    (h : SpellsDecimal cs digits exponent) (negative : Bool) :
    numberOf ((if negative then ['-'] else []) ++ cs)
      = some (.ofDecimal negative digits exponent) := by
  obtain ⟨rfl, hne, hwhole, hzero, hrest, hfraction, hexponent, rfl, rfl⟩ := h
  rw [numberOf_eq hne hwhole hzero hrest, hfraction, Option.bind_some, hexponent]
  rfl

/-- A point and digits are a fraction, whatever follows that is no digit. -/
theorem fractionOf_point {fraction tail : List Char} (hne : fraction ≠ [])
    (hdigits : ∀ c ∈ fraction, Text.isDigit c = true)
    (htail : ∀ c ∈ tail.head?, Text.isDigit c = false) :
    fractionOf ('.' :: (fraction ++ tail)) = some (fraction, tail) := by
  obtain ⟨htake, hdrop⟩ := takeWhile_run hdigits htail
  simp only [fractionOf, htake, hdrop]
  rw [if_neg (by simpa using hne)]

theorem fractionOf_point_end {fraction : List Char} (hne : fraction ≠ [])
    (hdigits : ∀ c ∈ fraction, Text.isDigit c = true) :
    fractionOf ('.' :: fraction) = some (fraction, []) := by
  have hnone : ∀ c ∈ ([] : List Char).head?, Text.isDigit c = false := nofun
  rw [← fractionOf_point hne hdigits hnone, List.append_nil]

/-- An exponent is no digit, and it is no fraction. -/
theorem exponentText_spec (e : Int) :
    (∀ c ∈ (Binary64.exponentText e).toList.head?, Text.isDigit c = false)
      ∧ fractionOf (Binary64.exponentText e).toList
        = some ([], (Binary64.exponentText e).toList)
      ∧ exponentOf (Binary64.exponentText e).toList = some e := by
  have hempty : (Nat.toDigits 10 e.natAbs).isEmpty = false := by simp [Nat.toDigits_ne_nil]
  have hall : (Nat.toDigits 10 e.natAbs).all Text.isDigit = true :=
    List.all_eq_true.mpr fun c hc => Text.isDigit_of_mem_toDigits hc
  have hmark : ∀ c ∈ (some 'e'), Text.isDigit c = false := by
    rintro c ⟨⟩
    rfl
  unfold Binary64.exponentText
  rw [String.toList_append, String.toList_ofList]
  split
  · next hneg =>
    rw [show "e-".toList = ['e', '-'] from rfl, List.cons_append, List.singleton_append]
    refine ⟨hmark, rfl, ?_⟩
    simp [exponentOf, hempty, hall, ofDigits_toDigits, -Nat.cast_natAbs]
    omega
  · next hpos =>
    rw [show "e+".toList = ['e', '+'] from rfl, List.cons_append, List.singleton_append]
    refine ⟨hmark, rfl, ?_⟩
    simp [exponentOf, hempty, hall, ofDigits_toDigits, -Nat.cast_natAbs]
    omega

end Json

namespace Binary64

theorem head?_toDigits {n : Nat} (hn : 0 < n) : (Nat.toDigits 10 n).head? ≠ some '0' := by
  induction n using Nat.strongRecOn with
  | ind n ih =>
    rw [Nat.toDigits_eq_if (by norm_num)]
    split
    · rw [List.head?_cons, ne_eq, Option.some_inj, Nat.digitChar_eq_zero]
      omega
    · rw [List.head?_append_of_ne_nil _ Nat.toDigits_ne_nil]
      exact ih (n / 10) (by omega) (by omega)

theorem toDigits_mul_pow {n : Nat} (hn : 0 < n) (k : Nat) :
    Nat.toDigits 10 (n * 10 ^ k) = Nat.toDigits 10 n ++ List.replicate k '0' := by
  induction k with
  | zero => simp
  | succ k ih =>
    have hpos : 0 < n * 10 ^ k := Nat.mul_pos hn (Nat.pow_pos (by norm_num))
    have happend := Nat.toDigits_append_toDigits (b := 10) (by norm_num) hpos
      (show 0 < 10 by norm_num)
    rw [show n * 10 ^ (k + 1) = 10 * (n * 10 ^ k) + 0 by ring, ← happend, ih, Nat.toDigits_zero,
      List.append_assoc, ← List.replicate_succ']

/-- Digits that a number can begin with. -/
structure Significant (digits : List Char) : Prop where
  ne_nil : digits ≠ []
  isDigit : ∀ c ∈ digits, Text.isDigit c = true
  head_ne : digits.head? ≠ some '0'

theorem eq_append_zeros (cs : List Char) :
    ∃ k, cs = (cs.reverse.dropWhile (· == '0')).reverse ++ List.replicate k '0' := by
  refine ⟨(cs.reverse.takeWhile (· == '0')).length, ?_⟩
  have hzeros : cs.reverse.takeWhile (· == '0')
      = List.replicate (cs.reverse.takeWhile (· == '0')).length '0' :=
    List.eq_replicate_of_mem fun c hc =>
      beq_iff_eq.mp (List.mem_takeWhile_imp (p := (· == '0')) hc)
  rw [← List.reverse_replicate, ← hzeros, ← List.reverse_append, List.takeWhile_append_dropWhile,
    List.reverse_reverse]

/-- The digits of a decimal without the zeros at their end, and where they stand. -/
theorem normalize_spec {decimal : Decimal} (hpos : 0 < decimal.digits) :
    ∃ k : Nat, Significant decimal.normalize.1
      ∧ decimal.normalize.2 = decimal.normalize.1.length + k + decimal.exponent
      ∧ Nat.toDigits 10 decimal.digits = decimal.normalize.1 ++ List.replicate k '0' := by
  obtain ⟨k, hk⟩ := eq_append_zeros (Nat.toDigits 10 decimal.digits)
  have hall : Nat.toDigits 10 decimal.digits = decimal.normalize.1 ++ List.replicate k '0' := hk
  have hhead := head?_toDigits hpos
  have hne : decimal.normalize.1 ≠ [] := by
    intro hnil
    -- digits that are all zeros are those of zero
    have hzero := Json.ofDigits_toDigits decimal.digits
    rw [hall, hnil, List.nil_append, Json.ofDigits_zeros] at hzero
    omega
  refine ⟨k, ⟨hne, fun c hc => isDigit_of_mem_normalize hc, ?_⟩, ?_, hall⟩
  · rwa [hall, List.head?_append_of_ne_nil _ hne] at hhead
  · have hlength := congrArg List.length hall
    rw [List.length_append, List.length_replicate] at hlength
    show ((Nat.toDigits 10 decimal.digits).length : Int) + decimal.exponent = _
    omega

section Layout

variable {digits : List Char} (h : Significant digits) (point : Int)

include h

/-- **However a number is laid out, it spells the same decimal**, up to zeros at its end. -/
theorem layout_spells : ∃ k : Nat, Json.SpellsDecimal (layout digits point).toList
    (Json.ofDigits digits * 10 ^ k) (point - digits.length - k) := by
  have hzeros : ∀ n, ∀ c ∈ List.replicate n '0', Text.isDigit c = true := by
    intro n c hc
    rw [List.eq_of_mem_replicate hc]
    rfl
  have hpoint : ∀ rest : List Char, ∀ c ∈ ('.' :: rest).head?, Text.isDigit c = false := by
    rintro rest c ⟨⟩
    rfl
  unfold layout
  dsimp only
  split
  · next hplace =>
    -- all digits stand before the point, with zeros behind them
    have hhead : (digits ++ List.replicate (point - digits.length).toNat '0').head? ≠ some '0' := by
      rw [List.head?_append_of_ne_nil _ h.ne_nil]
      exact h.head_ne
    rw [String.toList_ofList]
    refine ⟨(point - digits.length).toNat, .mk (List.append_nil _).symm (by simp [h.ne_nil])
      (List.forall_mem_append.mpr ⟨h.isDigit, hzeros _⟩) (.inr hhead) nofun rfl rfl ?_ ?_⟩
    · rw [List.append_nil, Json.ofDigits_append_zeros]
    · rw [List.length_nil]
      omega
  next hlong =>
  split
  · next hplace =>
    -- the point stands between the digits
    have hinner : 0 < point.toNat ∧ point.toNat < digits.length := by omega
    have hdrop : digits.drop point.toNat ≠ [] := by
      rw [ne_eq, List.drop_eq_nil_iff]
      omega
    have hfraction := Json.fractionOf_point_end hdrop
      fun c hc => h.isDigit c (List.mem_of_mem_drop hc)
    have hhead : (digits.take point.toNat).head? ≠ some '0' := by
      rw [List.head?_take, if_neg (by omega)]
      exact h.head_ne
    rw [String.toList_ofList]
    refine ⟨0, .mk rfl ?_ (fun c hc => h.isDigit c (List.mem_of_mem_take hc)) (.inr hhead)
      (hpoint _) hfraction rfl ?_ ?_⟩
    · rw [ne_eq, List.take_eq_nil_iff]
      rintro (hzero | hnil)
      · omega
      · exact h.ne_nil hnil
    · rw [List.take_append_drop, pow_zero, Nat.mul_one]
    · rw [List.length_drop]
      omega
  split
  · next hplace =>
    -- the point stands before the digits, with a zero before it
    have hdigits : ∀ c ∈ List.replicate (-point).toNat '0' ++ digits, Text.isDigit c = true :=
      List.forall_mem_append.mpr ⟨hzeros _, h.isDigit⟩
    have hfraction := Json.fractionOf_point_end (by simp [h.ne_nil]) hdigits
    rw [String.toList_ofList]
    refine ⟨0, .mk (show _ = ['0'] ++ _ from rfl) (by simp) (hzeros 1) (.inl rfl) (hpoint _)
      hfraction rfl ?_ ?_⟩
    · rw [Json.ofDigits_append, Json.ofDigits_append, Json.ofDigits_zeros]
      simp [Json.ofDigits]
    · rw [List.length_append, List.length_replicate]
      omega
  -- what is left is written with an exponent, behind the first digit and a fraction
  obtain ⟨hmark, hnone, hexponent⟩ := Json.exponentText_spec (point - 1)
  obtain ⟨first, others, rfl⟩ := List.exists_cons_of_ne_nil h.ne_nil
  obtain ⟨hfirst, hothers⟩ := List.forall_mem_cons.mp h.isDigit
  have hwhole : ∀ c ∈ [first], Text.isDigit c = true := List.forall_mem_singleton.mpr hfirst
  split
  · next heq =>
    obtain ⟨rfl, rfl⟩ := List.cons.inj heq
    rw [String.toList_append, String.toList_ofList]
    refine ⟨0, .mk rfl (by simp) hwhole (.inl rfl) hmark hnone hexponent ?_ ?_⟩
    · rw [List.append_nil, pow_zero, Nat.mul_one]
    · simp
  · next rest hne heq =>
    obtain ⟨rfl, rfl⟩ := List.cons.inj heq
    have hfraction := Json.fractionOf_point hne hothers hmark
    rw [String.toList_append, String.toList_ofList]
    refine ⟨0, .mk (show _ = [first] ++ _ from rfl) (by simp) hwhole (.inl rfl) (hpoint _)
      hfraction hexponent ?_ ?_⟩
    · rw [List.singleton_append, pow_zero, Nat.mul_one]
    · rw [List.length_cons]
      omega
  · next heq => cases heq

end Layout

/-! ## Signs -/

/-- The number with this sign. -/
def withSign (negative : Bool) : Binary64 → Binary64
  | .finite _ mantissa exponent => .finite negative mantissa exponent
  | .infinite _ => .infinite negative

theorem pack_withSign (negative : Bool) (mantissa : Nat) (exponent : Int) :
    pack negative mantissa exponent = (pack false mantissa exponent).withSign negative := by
  unfold pack
  split
  · rfl
  · rw [apply_ite (Binary64.withSign negative)]
    rfl

theorem ofRatio_withSign (negative : Bool) (num den : Nat) :
    ofRatio negative num den = (ofRatio false num den).withSign negative := by
  unfold ofRatio
  split
  · rfl
  · exact pack_withSign negative _ _

/-- The sign of a decimal is that of what it is read as. -/
theorem ofDecimal_withSign (negative : Bool) (digits : Nat) (exponent : Int) :
    ofDecimal negative digits exponent = (ofDecimal false digits exponent).withSign negative := by
  unfold ofDecimal
  dsimp only
  repeat' split
  · rfl
  · rfl
  · rfl
  · exact ofRatio_withSign negative _ _
  · exact ofRatio_withSign negative _ _

theorem Normal.withSign {x : Binary64} (h : Normal x) (negative : Bool) :
    Normal (x.withSign negative) := by
  cases h with
  | zero => exact .zero negative
  | finite _ hpos hlt hmin hmax hfull => exact .finite negative hpos hlt hmin hmax hfull
  | infinite => exact .infinite negative

/-! ## Texts -/

theorem text_of_pos {mantissa : Nat} (hpos : 0 < mantissa) (negative : Bool) (exponent : Int) :
    (text (.finite negative mantissa exponent)).toList
      = (if negative then ['-'] else [])
        ++ (layout (shortest (ratio mantissa exponent).1 (ratio mantissa exponent).2).normalize.1
          (shortest (ratio mantissa exponent).1 (ratio mantissa exponent).2).normalize.2).toList
        := by
  rw [text, if_neg hpos.ne']
  dsimp only
  rw [String.toList_append]
  cases negative <;> rfl

/-- **A number that is not zero is read back from its text.** -/
theorem numberOf_text {negative : Bool} {mantissa : Nat} {exponent : Int} (hpos : 0 < mantissa)
    (h : Normal (.finite negative mantissa exponent)) :
    Json.numberOf (text (.finite negative mantissa exponent)).toList
      = some (.finite negative mantissa exponent) := by
  obtain ⟨hd, hvalue⟩ := ratio_spec mantissa exponent
  obtain ⟨-, -, -, -, hdigits, hreads⟩ := shortest_spec hd hpos (h.withSign false) hvalue
  obtain ⟨k, hsignificant, hpoint, hall⟩ := normalize_spec hdigits
  rw [text_of_pos hpos]
  generalize shortest (ratio mantissa exponent).1 (ratio mantissa exponent).2 = decimal at *
  obtain ⟨j, hspells⟩ := layout_spells hsignificant decimal.normalize.2
  -- the zeros that the layout adds and those that were left out are of no account
  rw [Json.numberOf_of_spellsDecimal hspells, ofDecimal_mul_pow, sub_add_cancel, hpoint,
    show (decimal.normalize.1.length : Int) + k + decimal.exponent - decimal.normalize.1.length
      = decimal.exponent + k by omega,
    ← ofDecimal_mul_pow, ← Json.ofDigits_append_zeros, ← hall, Json.ofDigits_toDigits,
    ofDecimal_withSign, hreads]
  rfl

/-! ## Integers -/

/-- An integer below `2 ^ 53`, times a power of two, is a number. -/
theorem exists_normal_mul_pow {n e : Nat} (hpos : 0 < n) (hlt : n < 2 ^ 53)
    (he : (e : Int) ≤ maxExponent) :
    ∃ mantissa exponent, 0 < mantissa ∧ Normal (.finite false mantissa exponent)
      ∧ (n : ℚ) * 2 ^ e = mantissa * 2 ^ exponent := by
  have hlow := Nat.log2_self_le hpos.ne'
  have hhigh := Nat.lt_log2_self (n := n)
  have hlog : n.log2 < 53 := (Nat.log2_lt hpos.ne').mpr hlt
  obtain ⟨k, hk⟩ : ∃ k, n.log2 + k = 52 := ⟨52 - n.log2, by omega⟩
  have hmantissa : 2 ^ 52 ≤ n * 2 ^ k ∧ n * 2 ^ k < 2 ^ 53 := by
    rw [← hk, show 53 = n.log2 + 1 + k by omega, pow_add, pow_add 2 (n.log2 + 1)]
    have := Nat.pow_pos (n := k) (show 0 < 2 by norm_num)
    exact ⟨Nat.mul_le_mul_right _ hlow, Nat.mul_lt_mul_of_pos_right hhigh this⟩
  refine ⟨n * 2 ^ k, (e : Int) - k, by omega, .finite false (by omega) hmantissa.2 ?_ (by omega)
    (.inl hmantissa.1), ?_⟩
  · unfold minExponent
    omega
  · rw [zpow_sub₀ two_ne_zero, zpow_natCast, zpow_natCast]
    push_cast
    rw [mul_assoc, mul_div_cancel₀ _ (by positivity)]

/-- An integer below `2 ^ 53` is a number. -/
theorem exists_normal_of_lt {n : Nat} (hpos : 0 < n) (hlt : n < 2 ^ 53) :
    ∃ mantissa exponent, 0 < mantissa ∧ Normal (.finite false mantissa exponent)
      ∧ (n : ℚ) = mantissa * 2 ^ exponent := by
  have hshifted := exists_normal_mul_pow hpos hlt (e := 0) (by decide)
  rwa [pow_zero, mul_one] at hshifted

/-- No integer near by is taken for an integer below `2 ^ 53`. -/
theorem eq_of_ofRatio_eq {m n : Nat} (hm : m < 2 ^ 54) (hn : n < 2 ^ 53) {mantissa : Nat}
    {exponent : Int} (hpos : 0 < mantissa) (hvalue : (n : ℚ) = mantissa * 2 ^ exponent)
    (h : ofRatio false m 1 = .finite false mantissa exponent) : m = n := by
  rcases Nat.eq_zero_or_pos m with rfl | hmpos
  · rw [ofRatio, if_pos rfl] at h
    cases h
    exact absurd hpos (lt_irrefl 0)
  by_cases hsmall : m < 2 ^ 53
  · -- both are exact
    obtain ⟨mantissa', exponent', hpos', hnormal, hvalue'⟩ := exists_normal_of_lt hmpos hsmall
    rw [ofRatio_of_eq Nat.one_pos hpos' hnormal (by rw [Nat.cast_one, div_one, hvalue'])] at h
    cases h
    exact_mod_cast hvalue'.trans hvalue.symm
  · -- what is rounded to an even integer is too large
    have hlow : (2 : ℚ) ^ (1 + 52 : Int) ≤ (m : ℚ) / (1 : Nat) := by
      rw [Nat.cast_one, div_one]
      exact_mod_cast not_lt.mp hsmall
    have hhigh : (m : ℚ) / (1 : Nat) < 2 ^ (1 + 53 : Int) := by
      rw [Nat.cast_one, div_one]
      exact_mod_cast hm
    rw [ofRatio_eq_pack hmpos Nat.one_pos, unitExponent_of_between (by decide) hlow hhigh] at h
    have hle := div_le_roundDiv m 2
    have hge := roundDiv_le m 2
    change pack false (roundDiv m 2) 1 = _ at h
    generalize roundDiv m 2 = k at h hle hge
    exfalso
    rcases (show k < 2 ^ 53 ∨ k = 2 ^ 53 by omega) with hk | rfl
    · rw [pack_of_lt (by omega) hk (by decide)] at h
      obtain ⟨-, hmantissa, hexponent⟩ := Binary64.finite.inj h
      rw [← hmantissa, ← hexponent, zpow_one] at hvalue
      have : n = k * 2 := by exact_mod_cast hvalue
      omega
    · rw [pack_of_carry (by decide)] at h
      obtain ⟨-, hmantissa, hexponent⟩ := Binary64.finite.inj h
      rw [← hmantissa, ← hexponent] at hvalue
      have : n = 2 ^ 52 * 2 ^ 2 := by exact_mod_cast hvalue
      omega

/-- An integer of moderate size is read as the number nearest to it. -/
theorem ofDecimal_zero {n : Nat} (hpos : 0 < n) (hn : n ≤ 10 ^ 16) :
    ofDecimal false n 0 = ofRatio false n 1 := by
  have hsize : decimalSize n ≤ 17 := (decimalSize_le_iff (by norm_num)).mpr (by omega)
  obtain ⟨num, den, hd, hvalue, heq⟩ :=
    @ofDecimal_eq_ofRatio n 0 hpos (by omega) (by omega)
  rw [heq, ofRatio_congr hd Nat.one_pos]
  rw [hvalue, zpow_zero, mul_one, Nat.cast_one, div_one]

section Integer

variable {num den n : Nat} (hd : 0 < den) (hnum : num = n * den) (hpos : 0 < n)

include hd hnum hpos

theorem pointOf_of_integer : pointOf num den = decimalSize n := by
  subst hnum
  rw [pointOf, if_pos (Nat.le_mul_of_pos_left den hpos), Nat.mul_div_cancel _ hd]

/-- With all its digits, an integer is its own neighbour. -/
theorem digitsBelow_of_integer : digitsBelow num den (decimalSize n) = n := by
  rw [digitsBelow, pointOf_of_integer hd hnum hpos, sub_self]
  subst hnum
  show n * den / (den * 10 ^ 0) = n
  rw [pow_zero, Nat.mul_one, Nat.mul_div_cancel _ hd]

/-- The shortest decimal for an integer is the integer, less some zeros at its end. -/
theorem shortest_of_integer (hlt : n < 2 ^ 53) : ∃ k : Nat, (shortest num den).exponent = k
    ∧ 0 < (shortest num den).digits ∧ (shortest num den).digits * 10 ^ k = n := by
  obtain ⟨mantissa, exponent, hmantissa, hnormal, hvalue⟩ := exists_normal_of_lt hpos hlt
  have hdq : (den : ℚ) ≠ 0 := by positivity
  have hquotient : (num : ℚ) / den = n := by
    rw [hnum, Nat.cast_mul, mul_div_assoc, div_self hdq, mul_one]
  obtain ⟨count, -, hfound, hfirst, hdigits, hreads⟩ :=
    shortest_spec hd hmantissa hnormal (hquotient.trans hvalue)
  obtain ⟨hexponent, hneighbour, -⟩ := nearest?_eq_some hfound
  have hsize : decimalSize n ≤ 16 := (decimalSize_le_iff (by norm_num)).mpr (by omega)
  -- as many digits as the integer has would do
  have hcount : count < decimalSize n := by
    by_contra hge
    have hsizePos := decimalSize_pos n
    have hnone := hfirst (decimalSize n - 1) (by omega)
    rw [Nat.sub_add_cancel hsizePos] at hnone
    have hsome : (nearest? num den (decimalSize n)).isSome = true := by
      refine isSome_nearest? (.inl rfl) ?_
      rw [digitsBelow_of_integer hd hnum hpos, pointOf_of_integer hd hnum hpos, sub_self,
        ofDecimal_zero hpos (by omega), ofRatio_congr Nat.one_pos hd]
      rw [hquotient, Nat.cast_one, div_one]
    rw [hnone] at hsome
    cases hsome
  obtain ⟨k, hk⟩ : ∃ k, count + 1 + k = decimalSize n := ⟨decimalSize n - (count + 1), by omega⟩
  rw [pointOf_of_integer hd hnum hpos, show (decimalSize n : Int) - (count + 1 : Nat) = k by omega]
    at hexponent
  refine ⟨k, hexponent, hdigits, ?_⟩
  generalize shortest num den = decimal at *
  -- the decimal is an integer of the same size that is read as the same number
  have hbelow : digitsBelow num den (count + 1) < 10 ^ (count + 1) :=
    digitsBelow_lt hd (by rw [hquotient, hvalue]; exact (hnormal.bounds hmantissa).1) _
  have hle : decimal.digits * 10 ^ k ≤ 10 ^ 16 :=
    calc decimal.digits * 10 ^ k ≤ 10 ^ (count + 1) * 10 ^ k := Nat.mul_le_mul_right _ (by omega)
      _ = 10 ^ decimalSize n := by rw [← pow_add, hk]
      _ ≤ 10 ^ 16 := Nat.pow_le_pow_right (by norm_num) hsize
  have hpositive : 0 < decimal.digits * 10 ^ k := Nat.mul_pos hdigits (Nat.pow_pos (by norm_num))
  rw [hexponent, ← zero_add (k : Int), ← ofDecimal_mul_pow, ofDecimal_zero hpositive hle] at hreads
  exact eq_of_ofRatio_eq (by omega) hlt hmantissa hvalue hreads

/-- An integer is laid out as its numeral. -/
theorem layout_of_integer (hlt : n < 2 ^ 53) :
    layout (shortest num den).normalize.1 (shortest num den).normalize.2 = n.repr := by
  obtain ⟨k, hexponent, hdigits, hvalue⟩ := shortest_of_integer hd hnum hpos hlt
  obtain ⟨j, -, hpoint, hall⟩ := normalize_spec hdigits
  generalize shortest num den = decimal at *
  have hlength := congrArg List.length hall
  have hsize := decimalSize_mul_pow hdigits k
  have hle : decimalSize n ≤ 16 := (decimalSize_le_iff (by norm_num)).mpr (by omega)
  rw [List.length_append, List.length_replicate] at hlength
  rw [hvalue] at hsize
  unfold decimalSize at hsize hle
  unfold layout
  dsimp only
  rw [if_pos (by omega), Nat.repr_eq_ofList_toDigits, ← hvalue, toDigits_mul_pow hdigits, hall,
    List.append_assoc, List.replicate_append_replicate,
    show (decimal.normalize.2 - decimal.normalize.1.length).toNat = j + k by omega]

end Integer

/-- **An integer of magnitude below `2 ^ 53` is written as its numeral.** -/
theorem text_of_toInt? {x : Binary64} {z : Int} (h : x.toInt? = some z)
    (hlt : z.natAbs < 2 ^ 53) : x.text = toString z := by
  cases x with
  | infinite => cases h
  | finite negative mantissa exponent =>
    obtain ⟨hd, hvalue⟩ := ratio_spec mantissa exponent
    simp only [toInt?] at h
    split at h
    · next hmod =>
      have hnum := (Nat.div_mul_cancel (Nat.dvd_of_mod_eq_zero hmod)).symm
      generalize hn : (ratio mantissa exponent).1 / (ratio mantissa exponent).2 = n at h hnum
      obtain rfl := Option.some.inj h
      rcases Nat.eq_zero_or_pos mantissa with rfl | hpos
      · -- zero has no sign
        have hzero : n = 0 := by
          rw [← hn, ratio]
          split <;> simp
        subst hzero
        cases negative <;> rfl
      have hnpos : 0 < n := by
        refine Nat.pos_of_ne_zero ?_
        rintro rfl
        rw [hnum, Nat.zero_mul, Nat.cast_zero, zero_div] at hvalue
        exact absurd hvalue.symm (by positivity)
      have hlayout := layout_of_integer hd hnum hnpos (by cases negative <;> simpa using hlt)
      refine String.toList_inj.mp ?_
      rw [text_of_pos hpos, hlayout]
      cases negative with
      | false => rfl
      | true =>
        rw [if_pos rfl, if_pos rfl, Int.toString_eq_repr, Int.repr_eq_if, if_neg (by omega),
          neg_neg, Int.toNat_natCast, String.toList_append]
        rfl
    · cases h

end Binary64
end WireModel
