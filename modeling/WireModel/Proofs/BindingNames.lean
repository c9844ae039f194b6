import WireModel.Proofs.Anchors
import WireModel.Proofs.Expressions
import WireModel.Proofs.MemberNames

/-!
# Names that can be bound

The parameters of a constructor are bound in the body of a class, which is strict code. A name that
is bound there is an identifier and none of three kinds of words: those that are reserved
everywhere, those that are reserved in strict code, and `eval` and `arguments`, which strict code
may use and not bind.

An underscore behind the words of `reservedWords` takes care of the first two kinds, since no word
of any kind has an underscore. It leaves out the third. **`Model.parameters_bindable_iff`** says
that a name can be bound unless its identifier is spelled like one of these two, in any mix of
capitals (`Name.camel_eq_iff_lower_eq`).
-/

namespace WireModel

open TypeScript Codec

/-! ## Lower camel forms of one word -/

namespace Text

theorem isLower_capital {c : Char} (h : isAlphanumeric c = true) :
    isLower (if isLower c then upperChar c else c) = false :=
  of_forall_ascii (P := fun c => isLower (if isLower c then upperChar c else c) = false)
    (by decide) h

theorem isLetter_lowerChar {c : Char} (h : isLetter c = true) : isLetter (lowerChar c) = true := by
  have halpha : isAlphanumeric c = true := by rw [isAlphanumeric, h, Bool.true_or]
  exact of_forall_ascii (P := fun c => isLetter c = true → isLetter (lowerChar c) = true)
    (by decide) halpha h

end Text

namespace Name

section Words

variable {name : String} (h : isIdentifier name = true)

include h

/-- No word of an identifier is empty, so its words are what stands between underscores. -/
theorem words_eq_splitOn : words name = (name.toList.splitOn '_').map String.ofList := by
  simp only [isIdentifier, Bool.and_eq_true, List.all_eq_true] at h
  rw [words, List.filter_eq_self.mpr fun part hpart => (h.2 part hpart).1]

theorem words_of_not_mem (hnot : '_' ∉ name.toList) : words name = [name] := by
  rw [words_eq_splitOn h, List.splitOn_eq_singleton hnot, List.map_singleton, String.ofList_toList]

/-- Where there is an underscore there is a second word, which begins with no small letter. -/
theorem exists_not_isLower (hmem : '_' ∈ name.toList) :
    ∃ c ∈ (camel name).toList, Text.isLower c = false := by
  obtain ⟨before, after, heq⟩ := List.append_of_mem hmem
  have hsplit : name.toList.splitOn '_' = before.splitOn '_' ++ after.splitOn '_' := by
    rw [heq, List.splitOn_append_cons_self]
  obtain ⟨first, more, hfirst⟩ := List.exists_cons_of_ne_nil (List.splitOn_ne_nil '_' before)
  obtain ⟨part, parts, hpart⟩ := List.exists_cons_of_ne_nil (List.splitOn_ne_nil '_' after)
  have hwords := words_eq_splitOn h
  rw [hsplit, hfirst, hpart, List.cons_append, List.map_cons] at hwords
  -- what follows the underscore is a word that is capitalised
  have hcapital : ∀ c ∈ (capitalWord (String.ofList part)).toList, c ∈ (camel name).toList := by
    intro c hc
    rw [camel, hwords, String.toList_append, String.toList_join, List.flatMap_map]
    exact List.mem_append_right _ (List.mem_flatMap.mpr ⟨_, by simp, hc⟩)
  simp only [isIdentifier, Bool.and_eq_true, List.all_eq_true] at h
  obtain ⟨hne, hpartAlpha⟩ := h.2 part (by simp [hsplit, hpart])
  cases part with
  | nil => cases hne
  | cons c cs =>
    refine ⟨_, hcapital _ ?_, Text.isLower_capital (hpartAlpha c List.mem_cons_self)⟩
    rw [toList_capitalWord]
    exact List.mem_cons_self

end Words

/-- **A word in small letters is the lower camel form of nothing but itself**, in any mix of
capitals: an identifier of several words has a capital letter or a digit in its form. -/
theorem camel_eq_iff_lower_eq {name word : String} (h : isIdentifier name = true)
    (hword : ∀ c ∈ word.toList, Text.isLower c = true) :
    camel name = word ↔ Text.lower name = word := by
  by_cases hmem : '_' ∈ name.toList
  · obtain ⟨c, hc, hlower⟩ := exists_not_isLower h hmem
    refine iff_of_false (fun heq => ?_) (fun heq => ?_)
    · rw [hword c (heq ▸ hc)] at hlower
      cases hlower
    · have hmark : '_' ∈ word.toList := by
        rw [← heq, toList_lower (Snake.of_isIdentifier h)]
        exact List.mem_map_of_mem (f := Text.lowerChar) hmem
      exact absurd (hword _ hmark) (by decide)
  · rw [camel, words_of_not_mem h hmem]
    simp

theorem beginsWithLetter_camel {name : String} (h : isIdentifier name = true) :
    BeginsWithLetter (camel name) := by
  obtain ⟨first, rest, tail, hletter, -, -, -, hcamel⟩ := exists_forms h
  have halpha : Text.isAlphanumeric first = true := by
    rw [Text.isAlphanumeric, hletter, Bool.true_or]
  have hlist : (camel name).toList
      = Text.lowerChar first :: (rest.flatMap Text.lowerChars ++ tail.toList) := by
    rw [hcamel, Text.lower, String.toList_append, String.toList_ofList, String.toList_ofList,
      List.flatMap_cons, Text.lowerChars_of_isAlphanumeric halpha]
    rfl
  refine ⟨_, _, hlist, Text.isLetter_lowerChar hletter, fun d hd => ?_⟩
  exact (isWord_camel h).2 d (hlist ▸ List.mem_cons_of_mem _ hd)

theorem BeginsWithLetter.append {s t : String} (h : BeginsWithLetter s)
    (ht : ∀ c ∈ t.toList, isPlainChar c = true) : BeginsWithLetter (s ++ t) := by
  obtain ⟨c, cs, hlist, hletter, hplain⟩ := h
  refine ⟨c, cs ++ t.toList, by rw [String.toList_append, hlist, List.cons_append], hletter,
    fun d hd => ?_⟩
  exact (List.mem_append.mp hd).elim (hplain d) (ht d)

end Name

/-! ## Words that cannot be bound -/

namespace TypeScript

/-- The words that are reserved everywhere. -/
def keywords : List String :=
  ["await", "break", "case", "catch", "class", "const", "continue", "debugger", "default",
    "delete", "do", "else", "enum", "export", "extends", "false", "finally", "for", "function",
    "if", "import", "in", "instanceof", "new", "null", "return", "super", "switch", "this",
    "throw", "true", "try", "typeof", "var", "void", "while", "with", "yield"]

/-- The words that are reserved in strict code. -/
def strictWords : List String :=
  ["implements", "interface", "let", "package", "private", "protected", "public", "static",
    "yield"]

/-- The names that strict code may use and not bind. -/
def restrictedNames : List String := ["eval", "arguments"]

/-- A name that can be bound in strict code. -/
structure Bindable (name : String) : Prop where
  isPlain : Name.isPlain name = true
  not_reserved : name ∉ keywords ++ strictWords
  not_restricted : name ∉ restrictedNames

/-- Every word of a list is reserved by the emitter, so no name that it gives is in the list. -/
theorem bindingName_not_mem {words : List String} (hreserved : ∀ w ∈ words, w ∈ reservedWords)
    (hmark : ∀ w ∈ words, '_' ∉ w.toList) (camel : String) : bindingName camel ∉ words := by
  intro hmem
  unfold bindingName at hmem
  split at hmem
  · exact append_underscore_ne (hmark _ hmem) rfl
  · rename_i hnot
    exact hnot (List.contains_iff_mem.mpr (hreserved _ hmem))

theorem bindingName_not_reserved (camel : String) :
    bindingName camel ∉ keywords ++ strictWords :=
  bindingName_not_mem (by decide) (by decide) camel

theorem bindingName_mem_restrictedNames_iff {camel : String} :
    bindingName camel ∈ restrictedNames ↔ camel ∈ restrictedNames := by
  have hmark : ∀ w ∈ restrictedNames, '_' ∉ w.toList := by decide
  have hfree : ∀ w ∈ restrictedNames, bindingName w = w := by decide
  refine ⟨fun hmem => ?_, fun hmem => by rwa [hfree camel hmem]⟩
  rcases bindingName_eq_or camel with heq | heq
  · rwa [heq] at hmem
  · exact absurd heq.symm (append_underscore_ne (hmark _ hmem))

theorem isPlain_bindingName {name : String} (h : Name.isIdentifier name = true) :
    Name.isPlain (bindingName (Name.camel name)) = true := by
  have hcamel := Name.beginsWithLetter_camel h
  rcases bindingName_eq_or (Name.camel name) with heq | heq <;> rw [heq]
  · exact hcamel.isPlain
  · refine (hcamel.append fun c hc => ?_).isPlain
    rw [List.mem_singleton.mp hc]
    decide

/-- **What a name is bound as can be bound, unless it is `eval` or `arguments`.** -/
theorem bindable_iff {name : String} (h : Name.isIdentifier name = true) :
    Bindable (bindingName (Name.camel name)) ↔ Text.lower name ∉ restrictedNames := by
  have hsmall : ∀ w ∈ restrictedNames, ∀ c ∈ w.toList, Text.isLower c = true := by
    have hall : ∀ w ∈ restrictedNames, w.toList.all Text.isLower = true := by decide
    intro w hw
    exact List.all_eq_true.mp (hall w hw)
  have hrestricted : Name.camel name ∈ restrictedNames ↔ Text.lower name ∈ restrictedNames := by
    refine ⟨fun hmem => ?_, fun hmem => ?_⟩
    · rwa [(Name.camel_eq_iff_lower_eq h (hsmall _ hmem)).mp rfl]
    · rwa [(Name.camel_eq_iff_lower_eq h (hsmall _ hmem)).mpr rfl]
  rw [← hrestricted, ← bindingName_mem_restrictedNames_iff]
  exact ⟨fun hbindable => hbindable.not_restricted, fun hnot =>
    { isPlain := isPlain_bindingName h
      not_reserved := bindingName_not_reserved _
      not_restricted := hnot }⟩

end TypeScript

/-! ## Parameters -/

/-- The parameters of a constructor are called like its arguments, one by one. -/
theorem Codec.ClassPlan.Plans.parameters_named {t : Table} {c : Class} {p : ClassPlan}
    (hp : p.Plans t c) :
    List.Forall₂ (fun a d => d.name = bindingName (Name.camel a.name)) c.arguments
      (p.parameters.map (Declaration.parameterOf p)) := by
  rw [List.forall₂_map_right_iff]
  refine hp.parameters.imp fun a q hq => ?_
  show bindingName q.wire = _
  rw [hq.wire_eq]

/-- **Names that are bound can be bound, apart from two.** Every identifier has a name to be bound
as, which is plain and reserved nowhere; strict code can bind it iff the identifier is not spelled
like `eval` or `arguments`. The constructors of every model bind their arguments as these names. -/
theorem Model.parameters_bindable_iff {x : String} (hx : Name.isIdentifier x = true) :
    ∃ wire, Name.camel? x = .ok wire
      ∧ Name.isPlain (bindingName wire) = true
      ∧ bindingName wire ∉ keywords ++ strictWords
      ∧ (Bindable (bindingName wire) ↔ Text.lower x ∉ restrictedNames)
      ∧ ∀ key value table, Model.load key value = .ok table →
        ∃ plan, Plan.of table = .ok plan
          ∧ ∀ c ∈ table.concreteClasses, ∃ p ∈ plan.concreteClasses, p.type = c
            ∧ List.Forall₂ (fun a d => a.name = x → d.name = bindingName wire) c.arguments
              (p.parameters.map (Declaration.parameterOf p)) := by
  refine ⟨_, Name.worded_of_isIdentifier hx, isPlain_bindingName hx, bindingName_not_reserved _,
    bindable_iff hx, fun key value table hload => ?_⟩
  obtain ⟨plan, hplan⟩ := (Model.sound_of_load hload).exists_plan
  refine ⟨plan, hplan, fun c hc => ?_⟩
  obtain ⟨p, hp, hplans⟩ := (Plan.plans_of_eq_ok hplan).exists_of_mem_concreteClasses hc
  refine ⟨p, hp, hplans.type_eq, hplans.parameters_named.imp fun a d hname ha => ?_⟩
  rw [hname, ha]

/-- Arguments that are called like words of the generated code: one of them is reserved, and the
other cannot be bound. -/
def debates : Json :=
  .object [("name", .text "debates"), ("types", .array [
    .object [("kind", .text "concreteClass"), ("name", .text "debate"),
      ("properties", .array [
        .object [("name", .text "Public"), ("type", .text "bool")],
        .object [("name", .text "arguments"), ("type", .text "List[str]")]]),
      ("constructorArguments", .array [
        .object [("name", .text "Public"), ("type", .text "bool")],
        .object [("name", .text "arguments"), ("type", .text "List[str]")]])]])]

theorem debates_bindable_iff : Name.isIdentifier "Public" = true
    ∧ ∃ wire, Name.camel? "Public" = .ok wire ∧ Name.isPlain (bindingName wire) = true
      ∧ bindingName wire ∉ keywords ++ strictWords
      ∧ (Bindable (bindingName wire) ↔ Text.lower "Public" ∉ restrictedNames)
      ∧ ∃ table plan, Model.load "modelType" debates = .ok table ∧ Plan.of table = .ok plan
        ∧ ∀ c ∈ table.concreteClasses, ∃ p ∈ plan.concreteClasses, p.type = c
          ∧ List.Forall₂ (fun a d => a.name = "Public" → d.name = bindingName wire) c.arguments
            (p.parameters.map (Declaration.parameterOf p)) := by
  have hidentifier : Name.isIdentifier "Public" = true := by decide +kernel
  have hloads : (Model.load "modelType" debates).toOption.isSome = true := by decide +kernel
  obtain ⟨table, hload⟩ := Model.exists_table hloads
  obtain ⟨wire, hwire, hplain, hreserved, hiff, hmodels⟩ :=
    Model.parameters_bindable_iff hidentifier
  obtain ⟨plan, hplan, hbound⟩ := hmodels _ _ table hload
  exact ⟨hidentifier, wire, hwire, hplain, hreserved, hiff, table, plan, hload, hplan, hbound⟩

/-- The second parameter of the constructor is called `arguments`. -/
theorem debates_arguments_bound : ∃ table plan, Model.load "modelType" debates = .ok table
    ∧ Plan.of table = .ok plan
    ∧ (∃ p ∈ plan.concreteClasses,
      (p.parameters.map (Declaration.parameterOf p)).map (·.name) = ["public_", "arguments"])
    ∧ ¬ ∀ x, Name.isIdentifier x = true → Bindable (bindingName (Name.camel x)) := by
  have hnames : (Model.load "modelType" debates).toOption.bind (fun t =>
      (Plan.of t).toOption.map fun plan => decide (∃ p ∈ plan.concreteClasses,
        (p.parameters.map (Declaration.parameterOf p)).map (·.name) = ["public_", "arguments"]))
      = some true := by
    decide +kernel
  obtain ⟨table, plan, hload, hplan, hnames⟩ := Model.exists_plan_of_eq_some hnames
  refine ⟨table, plan, hload, hplan, of_decide_eq_true hnames, fun hall => ?_⟩
  have hbindable := hall "arguments" (by decide +kernel)
  rw [show bindingName (Name.camel "arguments") = "arguments" by decide +kernel] at hbindable
  exact hbindable.not_restricted (by decide)

end WireModel
