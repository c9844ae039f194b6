import Mathlib.Data.List.Basic
import WireModel.Diagnostic
import WireModel.Name

/-!
# Texts that can be read back at their separators

A text made of parts can be taken apart again where no part holds the character that separates
them. That is so for identifiers, which are letters, digits and underscores, for paths of
identifiers, and for the code of a diagnostic in the line that reports it.
-/

namespace WireModel

/-! ## Cutting at the first separator -/

theorem append_cons_inj {α : Type} {c : α} {x y r s : List α} (hx : c ∉ x) (hy : c ∉ y)
    (h : x ++ c :: r = y ++ c :: s) : x = y ∧ r = s := by
  induction x generalizing y with
  | nil =>
    cases y with
    | nil => exact ⟨rfl, (List.cons.inj h).2⟩
    | cons b y => exact absurd ((List.cons.inj h).1 ▸ List.mem_cons_self) hy
  | cons a x ih =>
    cases y with
    | nil => exact absurd ((List.cons.inj h).1 ▸ List.mem_cons_self) hx
    | cons b y =>
      obtain ⟨rfl, hrest⟩ := List.cons.inj h
      have htail := ih (fun hc => hx (List.mem_cons_of_mem _ hc))
        (fun hc => hy (List.mem_cons_of_mem _ hc)) hrest
      exact ⟨congrArg _ htail.1, htail.2⟩

/-- Two texts that agree up to the first separator agree before and after it. The separator may
go on after its first character. -/
theorem append_sep_inj {sep : Char} {more : List Char} {x y r s : String}
    (hx : sep ∉ x.toList) (hy : sep ∉ y.toList)
    (h : x ++ String.ofList (sep :: more) ++ r = y ++ String.ofList (sep :: more) ++ s) :
    x = y ∧ r = s := by
  have h := congrArg String.toList h
  simp only [String.toList_append, String.toList_ofList, List.append_assoc,
    List.cons_append] at h
  obtain ⟨hxy, hrs⟩ := append_cons_inj hx hy h
  exact ⟨String.toList_inj.mp hxy, String.toList_inj.mp (List.append_cancel_left hrs)⟩

/-- Parts without the separator's first character are determined by the text that joins them. -/
theorem intercalate_inj {sep : Char} {more : List Char} {x y : String} {xs ys : List String}
    (hx : ∀ s ∈ x :: xs, sep ∉ s.toList) (hy : ∀ s ∈ y :: ys, sep ∉ s.toList)
    (h : (String.ofList (sep :: more)).intercalate (x :: xs)
      = (String.ofList (sep :: more)).intercalate (y :: ys)) : x :: xs = y :: ys := by
  induction xs generalizing x y ys with
  | nil =>
    cases ys with
    | nil => simpa using h
    | cons z zs =>
      rw [String.intercalate_singleton, String.intercalate_cons_cons] at h
      exact absurd (by simp [h]) (hx x List.mem_cons_self)
  | cons w ws ih =>
    cases ys with
    | nil =>
      rw [String.intercalate_singleton, String.intercalate_cons_cons] at h
      exact absurd (by simp [← h]) (hy y List.mem_cons_self)
    | cons z zs =>
      rw [String.intercalate_cons_cons, String.intercalate_cons_cons] at h
      obtain ⟨rfl, hrest⟩ :=
        append_sep_inj (hx x List.mem_cons_self) (hy y List.mem_cons_self) h
      rw [ih (fun s hs => hx s (List.mem_cons_of_mem _ hs))
        (fun s hs => hy s (List.mem_cons_of_mem _ hs)) hrest]

/-! ## Identifiers -/

namespace Name

/-- A character of a text is the separator or belongs to one of the parts. -/
theorem eq_or_mem_splitOn (sep : Char) {c : Char} {cs : List Char} (hc : c ∈ cs) :
    c = sep ∨ ∃ part ∈ cs.splitOn sep, c ∈ part := by
  induction cs with
  | nil => simp at hc
  | cons d rest ih =>
    obtain ⟨part, parts, hparts⟩ := List.exists_cons_of_ne_nil (List.splitOn_ne_nil sep rest)
    rw [hparts] at ih
    rw [List.splitOn_cons_eq_if_modifyHead, hparts]
    by_cases hd : d = sep
    · subst hd
      rcases List.mem_cons.mp hc with rfl | hc
      · exact .inl rfl
      · refine (ih hc).imp id fun ⟨p, hp, hcp⟩ => ⟨p, ?_, hcp⟩
        rw [if_pos (by simp)]
        exact List.mem_cons_of_mem _ hp
    · rw [if_neg (by simpa using hd), List.modifyHead_cons]
      rcases List.mem_cons.mp hc with rfl | hc
      · exact .inr ⟨c :: part, by simp, by simp⟩
      · refine (ih hc).imp id fun ⟨p, hp, hcp⟩ => ?_
        rcases List.mem_cons.mp hp with rfl | hp
        · exact ⟨d :: p, by simp, by simp [hcp]⟩
        · exact ⟨p, by simp [hp], hcp⟩

/-- Identifiers are made of letters, digits and underscores. -/
theorem isPlain_iff {name : String} :
    isPlain name = true ↔ ∃ first rest, name.toList = first :: rest
      ∧ isPlainStart first = true ∧ ∀ c ∈ rest, isPlainChar c = true := by
  unfold isPlain
  cases name.toList with
  | nil => simp
  | cons first rest => simp

theorem isPlainChar_of_isPlainStart {c : Char} (h : isPlainStart c = true) :
    isPlainChar c = true := by
  rw [isPlainStart, Bool.or_eq_true] at h
  rw [isPlainChar, Text.isAlphanumeric, Bool.or_eq_true, Bool.or_eq_true]
  exact h.imp_left .inl

theorem isPlainChar_of_isPlain {name : String} (h : isPlain name = true) :
    ∀ c ∈ name.toList, isPlainChar c = true := by
  obtain ⟨first, rest, hname, hfirst, hrest⟩ := isPlain_iff.mp h
  rw [hname]
  exact List.forall_mem_cons.mpr ⟨isPlainChar_of_isPlainStart hfirst, hrest⟩

theorem isPlainChar_of_isIdentifier {name : String} (h : isIdentifier name = true) {c : Char}
    (hc : c ∈ name.toList) : isPlainChar c = true := by
  simp only [isIdentifier, Bool.and_eq_true, List.all_eq_true] at h
  rcases eq_or_mem_splitOn '_' hc with rfl | ⟨part, hpart, hcp⟩
  · rfl
  · simp [isPlainChar, (h.2 part hpart).2 c hcp]

theorem not_mem_of_isIdentifier {name : String} (h : isIdentifier name = true) {c : Char}
    (hc : isPlainChar c = false) : c ∉ name.toList := by
  intro hmem
  rw [isPlainChar_of_isIdentifier h hmem] at hc
  cases hc

end Name

/-! ## Lines of diagnostics -/

namespace DiagnosticCode

theorem ofName?_name (c : DiagnosticCode) : ofName? c.name = some c := by
  cases c <;> decide +kernel

theorem name_injective {c d : DiagnosticCode} (h : c.name = d.name) : c = d := by
  have hc := ofName?_name c
  rw [h, ofName?_name d] at hc
  exact (Option.some.inj hc).symm

theorem space_not_mem_name (c : DiagnosticCode) : ' ' ∉ c.name.toList := by
  cases c <;> decide +kernel

end DiagnosticCode

/-- The line of a diagnostic determines its code and the rest of the line. -/
theorem Diagnostic.line_inj {d e : Diagnostic} (h : d.line = e.line) :
    d.code = e.code ∧ d.subject ++ ": " ++ d.message = e.subject ++ ": " ++ e.message := by
  have hline : ∀ d : Diagnostic, d.line
      = d.code.name ++ String.ofList [' '] ++ (d.subject ++ ": " ++ d.message) := by
    intro d
    rw [line, ← String.toList_inj]
    simp
  rw [hline, hline] at h
  obtain ⟨hcode, hrest⟩ :=
    append_sep_inj d.code.space_not_mem_name e.code.space_not_mem_name h
  exact ⟨DiagnosticCode.name_injective hcode, hrest⟩

/-- The line of a diagnostic about a subject without a colon determines the diagnostic. -/
theorem Diagnostic.eq_of_line_eq {d e : Diagnostic} (hd : ':' ∉ d.subject.toList)
    (he : ':' ∉ e.subject.toList) (h : d.line = e.line) : d = e := by
  obtain ⟨hcode, hrest⟩ := line_inj h
  rw [show (": " : String) = String.ofList [':', ' '] from rfl] at hrest
  obtain ⟨hsubject, hmessage⟩ := append_sep_inj hd he hrest
  cases d
  cases e
  obtain rfl := hcode
  obtain rfl := hsubject
  obtain rfl := hmessage
  rfl

end WireModel
