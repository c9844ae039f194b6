import WireModel.Name
import WireModel.Number.Shortest
import Mathlib.Data.List.Basic

/-!
# How numbers look in code

The default of a number is written into code as it is, so what its text is made of matters. It is
made of digits, a point, a sign and an exponent (**`Binary64.mem_text`**); and what stands before a
point is not a name (**`Binary64.isLetter_head_text`**), so a number is not mistaken for a member.
-/

namespace WireModel

open Name

theorem Text.isDigit_of_mem_toDigits {n : Nat} {c : Char} (h : c ∈ Nat.toDigits 10 n) :
    Text.isDigit c = true := by
  have hdigit := Nat.isDigit_of_mem_toDigits (by omega) (by omega) h
  simpa [Text.isDigit, Char.isDigit, Char.le_def] using hdigit

theorem Text.isLetter_of_isDigit {c : Char} (h : Text.isDigit c = true) :
    Text.isLetter c = false := by
  simp only [Text.isDigit, Bool.and_eq_true, decide_eq_true_eq, Char.le_def,
    UInt32.le_iff_toNat_le] at h
  simp only [Text.isLetter, Text.isLower, Text.isUpper, Bool.or_eq_false_iff, Bool.and_eq_false_iff,
    decide_eq_false_iff_not, Char.le_def, UInt32.le_iff_toNat_le]
  have hnine : '9'.val.toNat < 'A'.val.toNat ∧ '9'.val.toNat < 'a'.val.toNat := by decide
  omega

namespace Binary64

/-- A character of a number that is written out. -/
def isNumeral (c : Char) : Bool := isPlainChar c || c == '.' || c == '+' || c == '-'

theorem isNumeral_of_fixed {s : String} (hs : s.toList.all isNumeral = true) {c : Char}
    (h : c ∈ s.toList) : isNumeral c = true := List.all_eq_true.mp hs c h

theorem isNumeral_of_isDigit {c : Char} (h : Text.isDigit c = true) : isNumeral c = true := by
  simp [isNumeral, isPlainChar, Text.isAlphanumeric, h]

theorem isDigit_of_mem_normalize {decimal : Decimal} {c : Char} (h : c ∈ decimal.normalize.1) :
    Text.isDigit c = true := by
  have hdropped := List.mem_reverse.mp h
  have hall := (List.dropWhile_sublist _).subset hdropped
  exact Text.isDigit_of_mem_toDigits (List.mem_reverse.mp hall)

theorem isNumeral_of_mem_exponentText {e : Int} {c : Char} (h : c ∈ (exponentText e).toList) :
    isNumeral c = true := by
  have hsign : (if e < 0 then "e-" else "e+").toList.all isNumeral = true := by
    split <;> rfl
  rw [exponentText, String.toList_append, String.toList_ofList, List.mem_append] at h
  exact h.elim (isNumeral_of_fixed hsign) fun hc =>
    isNumeral_of_isDigit (Text.isDigit_of_mem_toDigits hc)

section Layout

variable {digits : List Char} (hdigits : ∀ c ∈ digits, Text.isDigit c = true) (point : Int)

include hdigits

theorem isNumeral_of_mem_layout {c : Char} (h : c ∈ (layout digits point).toList) :
    isNumeral c = true := by
  have hdigit : ∀ {c}, c ∈ digits → isNumeral c = true :=
    fun hc => isNumeral_of_isDigit (hdigits _ hc)
  have hzero : ∀ {n c}, c ∈ List.replicate n '0' → isNumeral c = true := by
    intro n c hc
    rw [List.eq_of_mem_replicate hc]
    rfl
  unfold layout at h
  dsimp only at h
  split at h
  · rw [String.toList_ofList, List.mem_append] at h
    exact h.elim hdigit hzero
  split at h
  · rw [String.toList_ofList, List.mem_append, List.mem_cons] at h
    rcases h with h | rfl | h
    · exact hdigit (List.mem_of_mem_take h)
    · rfl
    · exact hdigit (List.mem_of_mem_drop h)
  split at h
  · rw [String.toList_ofList, List.mem_append, List.mem_cons, List.mem_cons] at h
    rcases h with (rfl | rfl | h) | h
    · rfl
    · rfl
    · exact hzero h
    · exact hdigit h
  split at h
  · rw [String.toList_append, String.toList_ofList, List.mem_append] at h
    exact h.elim hdigit isNumeral_of_mem_exponentText
  · rw [String.toList_append, String.toList_ofList, List.mem_append, List.mem_cons,
      List.mem_cons] at h
    rcases h with (rfl | rfl | h) | h
    · exact hdigit List.mem_cons_self
    · rfl
    · exact hdigit (List.mem_cons_of_mem _ h)
    · exact isNumeral_of_mem_exponentText h
  · exact isNumeral_of_fixed rfl h

/-- A number begins with a digit, or with its point. -/
theorem isLetter_head_layout : (layout digits point).toList.head?.any Text.isLetter = false := by
  have hhead : ∀ {cs rest : List Char}, (∀ c ∈ cs, Text.isDigit c = true) →
      rest.head?.any Text.isLetter = false → (cs ++ rest).head?.any Text.isLetter = false := by
    intro cs rest hcs hrest
    cases cs with
    | nil => exact hrest
    | cons c cs => exact Text.isLetter_of_isDigit (hcs c List.mem_cons_self)
  unfold layout
  dsimp only
  split
  · rw [String.toList_ofList]
    refine hhead hdigits ?_
    cases (point - digits.length).toNat <;> rfl
  split
  · rw [String.toList_ofList]
    exact hhead (fun c hc => hdigits c (List.mem_of_mem_take hc)) rfl
  split
  · rw [String.toList_ofList]
    rfl
  split
  · rw [String.toList_append, String.toList_ofList]
    exact Text.isLetter_of_isDigit (hdigits _ List.mem_cons_self)
  · rw [String.toList_append, String.toList_ofList]
    exact Text.isLetter_of_isDigit (hdigits _ List.mem_cons_self)
  · rfl

end Layout

theorem mem_text {x : Binary64} {c : Char} (h : c ∈ x.text.toList) : isNumeral c = true := by
  unfold text at h
  split at h
  · split at h
    all_goals exact isNumeral_of_fixed rfl h
  · split at h
    · exact isNumeral_of_fixed rfl h
    · dsimp only at h
      rw [String.toList_append, List.mem_append] at h
      rcases h with h | h
      · split at h
        all_goals exact isNumeral_of_fixed rfl h
      · exact isNumeral_of_mem_layout (fun c hc => isDigit_of_mem_normalize hc) _ h

/-- A number that begins like a name has no point. -/
theorem isLetter_head_text {x : Binary64} (h : x.text.toList.head?.any Text.isLetter = true) :
    '.' ∉ x.text.toList := by
  unfold text at h ⊢
  split at h
  · split <;> decide
  · split at h
    · exact absurd h (by decide)
    · dsimp only at h
      rw [String.toList_append] at h
      split at h
      · cases h
      · have hhead := isLetter_head_layout (fun c hc => isDigit_of_mem_normalize hc) _ ▸ h
        cases hhead

end Binary64
end WireModel
