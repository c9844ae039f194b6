import WireModel.Proofs.ControlSequences
import WireModel.Proofs.Wrapping

/-!
# Colours of a view

A coloured view has three control sequences in its headline, and taking control sequences out of a
text leaves the view without colours. A sequence is searched for from its first character on, so
the digits, semicolons and brackets of a title are never taken for a part of one.

* **`Terminal.strip_style`**: a sequence that sets a style is taken out, whatever follows it. Its
  final character is a letter, which ends the parameters, so there is nothing to fall back from.
* **`Terminal.strip_append`**: a text in which no sequence starts is kept, whatever follows it.
* **`Terminal.mem_of_mem_wrap`**: wrapping adds nothing to a text but spaces.
-/

namespace WireModel

/-! ## Characters of words -/

namespace Text

/-- The parts of a list that is cut hold nothing that the list does not. -/
theorem subset_of_mem_splitOnP {α : Type} {p : α → Bool} {xs part : List α}
    (h : part ∈ xs.splitOnP p) : part ⊆ xs := by
  induction xs generalizing part with
  | nil => simp_all
  | cons y xs ih =>
    rw [List.splitOnP_cons_eq_if_modifyHead] at h
    split at h
    · rcases List.mem_cons.mp h with rfl | h
      · exact List.nil_subset _
      · exact List.subset_cons_of_subset y (ih h)
    · obtain ⟨first, more, hsplit⟩ := List.exists_cons_of_ne_nil (List.splitOnP_ne_nil p xs)
      rw [hsplit] at h ih
      rcases List.mem_cons.mp h with rfl | h
      · exact List.cons_subset_cons y (ih List.mem_cons_self)
      · exact List.subset_cons_of_subset y (ih (List.mem_cons_of_mem first h))

theorem subset_of_mem_words {s w : String} (h : w ∈ words s) : w.toList ⊆ s.toList := by
  obtain ⟨cs, hcs, rfl⟩ := List.mem_map.mp h
  rw [String.toList_ofList]
  exact subset_of_mem_splitOnP (List.mem_filter.mp hcs).1

end Text

namespace Terminal

open Text

/-! ## Taking sequences out -/

/-- A text in which no control sequence can start. -/
def Uncontrolled (s : String) : Prop := escape ∉ s.toList ∧ controlIntroducer ∉ s.toList

instance (s : String) : Decidable (Uncontrolled s) :=
  inferInstanceAs (Decidable (escape ∉ s.toList ∧ controlIntroducer ∉ s.toList))

theorem Uncontrolled.startsSequence {s : String} (h : Uncontrolled s) {c : Char}
    (hc : c ∈ s.toList) : startsSequence c = false := by
  rw [Terminal.startsSequence, Bool.or_eq_false_iff, beq_eq_false_iff_ne, beq_eq_false_iff_ne]
  refine ⟨?_, ?_⟩
  · rintro rfl
    exact h.1 hc
  · rintro rfl
    exact h.2 hc

theorem Uncontrolled.append {s t : String} (hs : Uncontrolled s) (ht : Uncontrolled t) :
    Uncontrolled (s ++ t) := by
  simp only [Uncontrolled, String.toList_append, List.mem_append, not_or]
  exact ⟨⟨hs.1, ht.1⟩, hs.2, ht.2⟩

/-- **A text in which no sequence starts is kept.** -/
theorem strip_append {cs : List Char} (h : ∀ c ∈ cs, startsSequence c = false)
    (rest : List Char) : strip 0 (cs ++ rest) = cs ++ strip 0 rest := by
  induction cs with
  | nil => rfl
  | cons c cs ih =>
    obtain ⟨hc, hcs⟩ := List.forall_mem_cons.mp h
    rw [List.cons_append, strip, hc, if_neg Bool.false_ne_true, ih hcs, List.cons_append]

theorem isIntroducer_of_isDigit {c : Char} (h : isDigit c = true) : isIntroducer c = false := by
  rw [← Bool.not_eq_true]
  intro hc
  simp only [isIntroducer, Bool.or_eq_true, beq_iff_eq] at hc
  obtain (((((rfl | rfl) | rfl) | rfl) | rfl) | rfl) | rfl := hc <;> exact absurd h (by decide)

section Style

variable {digits : List Char} (hdigits : ∀ c ∈ digits, isDigit c = true)
  (hlength : digits.length ≤ 4)

include hdigits hlength

/-- A group of digits ends before the letter of a sequence. -/
theorem digitGroup_append (rest : List Char) : digitGroup (digits ++ 'm' :: rest) = digits := by
  have hstop : ∀ c ∈ (('m' :: rest).take (4 - digits.length)).head?, isDigit c = false := by
    intro c hc
    obtain rfl : 'm' = c := by
      rw [List.head?_take] at hc
      split at hc
      · cases hc
      · exact Option.some.inj hc
    decide
  rw [digitGroup, List.take_append, List.take_of_length_le hlength]
  exact (Json.takeWhile_run hdigits hstop).1

theorem parameters_append (hne : digits ≠ []) (rest : List Char) :
    parameters (digits ++ 'm' :: rest) = digits := by
  have hmore : moreParameters ('m' :: rest) = [] := by
    rw [moreParameters, if_neg (by decide)]
  rw [parameters]
  simp only [digitGroup_append hdigits hlength, List.drop_left, hmore, List.append_nil]
  rw [if_neg (by simpa using hne)]

theorem sequenceLength?_style (hne : digits ≠ []) (rest : List Char) :
    sequenceLength? ('[' :: (digits ++ 'm' :: rest)) = some (digits.length + 2) := by
  -- the bracket is the only introducer, since a digit follows it
  have hlead : ('[' :: (digits ++ 'm' :: rest)).takeWhile isIntroducer = ['['] := by
    have hbracket : ∀ c ∈ ['['], isIntroducer c = true := List.forall_mem_singleton.mpr rfl
    have hstop : ∀ c ∈ (digits ++ 'm' :: rest).head?, isIntroducer c = false := by
      intro c hc
      rw [List.head?_append_of_ne_nil _ hne] at hc
      exact isIntroducer_of_isDigit (hdigits c (List.mem_of_mem_head? hc))
    exact (Json.takeWhile_run hbracket hstop).1
  have hfinal : isFinal 'm' = true := by decide
  rw [sequenceLength?]
  simp only [hlead, List.length_singleton, List.drop_succ_cons, List.drop_zero,
    parameters_append hdigits hlength hne, List.drop_left, List.head?_cons,
    Option.filter_some_pos hfinal]
  rw [Nat.add_comm 1, Nat.add_assoc]

end Style

/-- **A sequence that sets a style is taken out.** -/
theorem strip_style {n : String} (hdigits : ∀ c ∈ n.toList, isDigit c = true)
    (hlength : n.toList.length ≤ 4) (hne : n.toList ≠ []) (rest : List Char) :
    strip 0 ((style n).toList ++ rest) = strip 0 rest := by
  have hlist : (style n).toList ++ rest = escape :: ('[' :: (n.toList ++ ['m']) ++ rest) := by
    simp [style]
  have hsequence : sequenceLength? ('[' :: (n.toList ++ ['m']) ++ rest)
      = some ('[' :: (n.toList ++ ['m'])).length := by
    have hstyle := sequenceLength?_style hdigits hlength hne rest
    simpa using hstyle
  have hstart : startsSequence escape = true := by decide
  have hpassed := strip_drop ('[' :: (n.toList ++ ['m'])).length
    ('[' :: (n.toList ++ ['m']) ++ rest)
  rw [List.drop_left] at hpassed
  rw [hlist, strip, hstart, if_pos rfl, hsequence]
  exact hpassed

theorem strip_eq_self {cs : List Char} (h : ∀ c ∈ cs, startsSequence c = false) :
    strip 0 cs = cs := by
  have hkept := strip_append h []
  rwa [List.append_nil, strip, List.append_nil] at hkept

theorem plain_of_uncontrolled {s : String} (h : Uncontrolled s) : plain s = s := by
  rw [plain, strip_eq_self fun c hc => h.startsSequence hc, String.ofList_toList]

/-! ## Lines of a view -/

/-- **Wrapping adds nothing but spaces.** -/
theorem mem_of_mem_wrap {width : Binary64} {s line : String} (hline : line ∈ wrap width s)
    {c : Char} (hc : c ∈ line.toList) : c = ' ' ∨ c ∈ s.toList := by
  have hgreedy := greedy_wrap width s
  have hwords : ∀ w ∈ words line, w.toList ⊆ s.toList := by
    intro w hw
    apply subset_of_mem_words
    rw [← hgreedy.lossless]
    exact List.mem_flatMap_of_mem hline hw
  rw [← (hgreedy.wrapped line hline).spaced, String.toList_intercalate] at hc
  have hall : ∀ c ∈ " ".toList.intercalate ((words line).map String.toList),
      c = ' ' ∨ c ∈ s.toList := by
    apply intercalate_induction (P := fun cs => ∀ c ∈ cs, c = ' ' ∨ c ∈ s.toList)
    · nofun
    · simp
    · intro xs ys hxs hys
      exact List.forall_mem_append.mpr ⟨hxs, hys⟩
    · exact List.forall_mem_map.mpr fun w hw c hc => .inr (hwords w hw hc)
  exact hall c hc

theorem uncontrolled_of_mem_wrap {width : Binary64} {s line : String} (hs : Uncontrolled s)
    (hline : line ∈ wrap width s) : Uncontrolled line := by
  refine ⟨fun hmem => ?_, fun hmem => ?_⟩
  · exact (mem_of_mem_wrap hline hmem).elim (absurd · (by decide)) hs.1
  · exact (mem_of_mem_wrap hline hmem).elim (absurd · (by decide)) hs.2

theorem uncontrolled_of_mem_paragraph {width : Binary64} {lead line : String} {text : Option String}
    (hlead : Uncontrolled lead) (htext : ∀ s ∈ text, Uncontrolled s)
    (hline : line ∈ paragraph width lead text) : Uncontrolled line := by
  cases text with
  | none => cases hline
  | some s =>
    rw [paragraph] at hline
    split at hline
    · cases hline
    · exact uncontrolled_of_mem_wrap (hlead.append (htext s rfl)) hline

/-- The lines of a view below its headline. -/
def View.notices (v : View) : List String :=
  let width := if v.width.isPositive then v.width else standardWidth
  paragraph width "📍 " v.location ++ paragraph width "💡 Workaround: " v.workaround

theorem View.toList_render (v : View) :
    v.render.toList
      = (if v.colors then red ++ bold ++ ("❌ " ++ v.title) ++ reset else "❌ " ++ v.title).toList
        ++ v.notices.flatMap ('\n' :: ·.toList) :=
  toList_unlines_cons _ _

theorem View.startsSequence_notices {v : View} (hlocation : ∀ s ∈ v.location, Uncontrolled s)
    (hworkaround : ∀ s ∈ v.workaround, Uncontrolled s) :
    ∀ c ∈ v.notices.flatMap ('\n' :: ·.toList), startsSequence c = false := by
  have hleads : Uncontrolled "📍 " ∧ Uncontrolled "💡 Workaround: " := by decide +kernel
  intro c hc
  obtain ⟨line, hline, hc⟩ := List.mem_flatMap.mp hc
  rcases List.mem_cons.mp hc with rfl | hc
  · decide
  · have huncontrolled : Uncontrolled line := by
      rcases List.mem_append.mp hline with hline | hline
      · exact uncontrolled_of_mem_paragraph hleads.1 hlocation hline
      · exact uncontrolled_of_mem_paragraph hleads.2 hworkaround hline
    exact huncontrolled.startsSequence hc

/-! ## Coloured views -/

/-- The three sequences around a headline are taken out, and nothing else is. -/
theorem strip_colored {headline : String} (hheadline : Uncontrolled headline) {rest : List Char}
    (hrest : ∀ c ∈ rest, startsSequence c = false) :
    strip 0 ((red ++ bold ++ headline ++ reset).toList ++ rest) = headline.toList ++ rest := by
  simp only [String.toList_append, List.append_assoc]
  calc strip 0 (red.toList ++ (bold.toList ++ (headline.toList ++ (reset.toList ++ rest))))
      = strip 0 (headline.toList ++ (reset.toList ++ rest)) := by
        rw [red, strip_style (List.all_eq_true.mp rfl) (by decide) (by decide), bold,
          strip_style (List.all_eq_true.mp rfl) (by decide) (by decide)]
    _ = headline.toList ++ strip 0 rest := by
        rw [strip_append fun c hc => hheadline.startsSequence hc, reset,
          strip_style (List.all_eq_true.mp rfl) (by decide) (by decide)]
    _ = headline.toList ++ rest := by rw [strip_eq_self hrest]

/-- **Colours do not change the text.** A coloured view without its control sequences is the view
without colours, if no control sequence starts in its own texts, and a text in which none starts
stays as it is. What is taken out of a text is at each character the first match of the pattern of
control sequences, if it has one there. -/
theorem colors_removed :
    (∀ v : View, Uncontrolled v.title → (∀ s ∈ v.location, Uncontrolled s) →
        (∀ s ∈ v.workaround, Uncontrolled s) →
        plain ({ v with colors := true } : View).render
          = ({ v with colors := false } : View).render)
      ∧ (∀ s, Uncontrolled s → plain s = s)
      ∧ ∀ c cs, strip 0 (c :: cs)
          = (afterSequence (c :: cs)).head?.elim (c :: strip 0 cs) (strip 0) := by
  refine ⟨?_, fun s => plain_of_uncontrolled, strip_cons⟩
  intro v htitle hlocation hworkaround
  have hmark : Uncontrolled "❌ " := by decide +kernel
  have hnotices := View.startsSequence_notices hlocation hworkaround
  apply String.toList_injective
  rw [plain, String.toList_ofList, View.toList_render, View.toList_render]
  exact strip_colored (hmark.append htitle) hnotices

/-- The texts of a view may begin and end with digits, semicolons and brackets, which could belong
to a sequence. -/
theorem colors_removed_digits : ∃ v : View,
    v.title = "31;[m 0?" ∧ v.location = some "[1;m" ∧ v.workaround = some "0;1m]"
      ∧ Uncontrolled "31;[m 0?" ∧ Uncontrolled "[1;m" ∧ Uncontrolled "0;1m]"
      ∧ plain ({ v with colors := true } : View).render = ({ v with colors := false } : View).render
      ∧ plain "31;[m 0?" = "31;[m 0?" := by
  have htexts : Uncontrolled "31;[m 0?" ∧ Uncontrolled "[1;m" ∧ Uncontrolled "0;1m]" := by
    decide +kernel
  obtain ⟨htitle, hlocation, hworkaround⟩ := htexts
  obtain ⟨hcolors, hplain, -⟩ := colors_removed
  refine ⟨⟨"31;[m 0?", .configurationError, 50, some "[1;m", [], some "0;1m]", false, .ofInt 7⟩,
    rfl, rfl, rfl, htitle, hlocation, hworkaround, ?_, hplain _ htitle⟩
  apply hcolors
  · exact htitle
  · rintro s ⟨⟩
    exact hlocation
  · rintro s ⟨⟩
    exact hworkaround

end Terminal
end WireModel
