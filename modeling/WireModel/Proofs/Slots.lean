import WireModel.Proofs.Mentions
import WireModel.Proofs.WireKeys

/-!
# Variables of a parse routine

While an object is parsed, each argument of its constructor waits in a variable that is named by
the capital form of the argument behind `the`. Loading makes sure that the lower camel forms are
different, which are the names on the wire. Is that enough?

* **`Name.toList_camel`**: the lower camel form is the capital form with as many characters in lower
  case as the first word has. So the capital form and the length of the first word determine it.
* **`Name.runsTogether_of_capital_eq`**: two names with one capital form and different lower camel
  forms have first words of different lengths, and the longer one is an abbreviation that takes in
  what the shorter name begins another word with: `AB` and `A_B`.

Nothing keeps such names out of a class. **`Model.slots_nodup_iff`** says that the variables that
a parse routine declares are different iff there are none among its arguments.
-/

namespace WireModel

open TypeScript Codec

/-! ## Small letters at the beginning -/

namespace Text

theorem lowerChar_idem {c : Char} (h : isAlphanumeric c = true) :
    lowerChar (lowerChar c) = lowerChar c :=
  of_forall_ascii (P := fun c => lowerChar (lowerChar c) = lowerChar c) (by decide) h

theorem lowerChar_upperChar {c : Char} (h : isAlphanumeric c = true) :
    lowerChar (upperChar c) = lowerChar c :=
  of_forall_ascii (P := fun c => lowerChar (upperChar c) = lowerChar c) (by decide) h

theorem flatMap_lowerChars {cs : List Char} (h : ∀ c ∈ cs, isAlphanumeric c = true) :
    cs.flatMap lowerChars = cs.map lowerChar := by
  rw [List.map_eq_flatMap]
  exact List.flatMap_congr fun c hc => lowerChars_of_isAlphanumeric (h c hc)

/-- The first `n` characters in lower case. -/
def lowerFirst (n : Nat) (cs : List Char) : List Char := (cs.take n).map lowerChar ++ cs.drop n

/-- Behind the first character, small letters stay as they are. -/
theorem lowerFirst_of_small {n m : Nat} (hm : m ≤ n) {c : Char} {cs : List Char}
    (h : ∀ d ∈ cs.take n, lowerChar d = d) :
    lowerFirst (m + 1) (c :: cs) = lowerChar c :: cs := by
  have hsmall : (cs.take m).map lowerChar = cs.take m := by
    rw [List.map_congr_left fun d hd => h d (List.take_subset_take_left cs hm hd)]
    exact List.map_id _
  rw [lowerFirst, List.take_succ_cons, List.map_cons, List.drop_succ_cons, List.cons_append, hsmall,
    List.take_append_drop]

end Text

/-! ## The two forms of a name -/

namespace Name

def firstWord (name : String) : String := (words name).headD ""

/-- Two names that are told apart by where the first word ends, which the capital form does not
show: the name `long` begins with a longer abbreviation than the name `short` has as first word. -/
structure RunsTogether (short long : String) : Prop where
  capital_eq : capital short = capital long
  shorter : (firstWord short).length < (firstWord long).length
  abbreviation : (firstWord long).toList.head?.any Text.isUpper = true

section Word

variable {first : Char} {rest : List Char} (hfirst : Text.isAlphanumeric first = true)
  (hrest : ∀ c ∈ rest, Text.isAlphanumeric c = true)

include hrest

theorem length_capitalWord :
    (capitalWord (String.ofList (first :: rest))).toList.length = (first :: rest).length := by
  rw [toList_capitalWord, Text.flatMap_lowerChars hrest]
  split <;> simp

include hfirst

/-- Capitalising a word does not change its lower case. -/
theorem map_lowerChar_capitalWord :
    (capitalWord (String.ofList (first :: rest))).toList.map Text.lowerChar
      = (Text.lower (String.ofList (first :: rest))).toList := by
  have hlower : (Text.lower (String.ofList (first :: rest))).toList
      = (first :: rest).map Text.lowerChar := by
    rw [Text.lower, String.toList_ofList, String.toList_ofList]
    exact Text.flatMap_lowerChars (List.forall_mem_cons.mpr ⟨hfirst, hrest⟩)
  rw [hlower, toList_capitalWord, Text.flatMap_lowerChars hrest]
  split
  · rw [List.map_cons, List.map_cons, Text.lowerChar_upperChar hfirst, List.map_map]
    exact congrArg _ (List.map_congr_left fun c hc => Text.lowerChar_idem (hrest c hc))
  · rfl

end Word

/-- **The lower camel form is the capital form with its first word in lower case.** -/
theorem toList_camel {name : String} (h : isIdentifier name = true) :
    (camel name).toList = Text.lowerFirst (firstWord name).length (capital name).toList := by
  obtain ⟨first, rest, more, hwords, hletter, hrest⟩ := exists_words h
  have hfirst : Text.isAlphanumeric first = true := by
    rw [Text.isAlphanumeric, hletter, Bool.true_or]
  have hlength : (firstWord name).length
      = (capitalWord (String.ofList (first :: rest))).toList.length := by
    rw [length_capitalWord hrest, firstWord, hwords, List.headD_cons, String.length_ofList]
  -- the cut falls behind the first word, and the rest is the same in both forms
  rw [hlength, camel, capital, hwords, List.map_cons, String.join_cons, String.toList_append,
    String.toList_append, Text.lowerFirst, List.take_left, List.drop_left,
    map_lowerChar_capitalWord hfirst hrest]

/-- A capital form that begins with a small first word goes on with small letters. -/
theorem exists_capital_small {name : String} (h : isIdentifier name = true)
    (hsmall : (firstWord name).toList.head?.any Text.isUpper = false) :
    ∃ c cs n, (capital name).toList = c :: cs ∧ (firstWord name).length = n + 1
      ∧ ∀ d ∈ cs.take n, Text.lowerChar d = d := by
  obtain ⟨first, rest, more, hwords, hletter, hrest⟩ := exists_words h
  rw [firstWord, hwords, List.headD_cons] at hsmall ⊢
  have hupper : Text.isUpper first = false := by simpa using hsmall
  have hlower : Text.isLower first = true := by
    rwa [Text.isLetter, hupper, Bool.or_false] at hletter
  refine ⟨Text.upperChar first,
    rest.map Text.lowerChar ++ (String.join (more.map capitalWord)).toList, rest.length, ?_,
    String.length_ofList, fun d hd => ?_⟩
  · rw [capital, hwords, List.map_cons, String.join_cons, String.toList_append, toList_capitalWord,
      if_pos hlower, if_pos hlower, Text.flatMap_lowerChars hrest]
    rfl
  · rw [List.take_left' (by simp)] at hd
    obtain ⟨c, hc, rfl⟩ := List.mem_map.mp hd
    exact Text.lowerChar_idem (hrest c hc)

theorem firstWord_length_pos {name : String} (h : isIdentifier name = true) :
    0 < (firstWord name).length := by
  obtain ⟨first, rest, more, hwords, -⟩ := exists_words h
  rw [firstWord, hwords, List.headD_cons, String.length_ofList]
  exact Nat.succ_pos _

/-- **Names with one capital form and two lower camel forms run together.** -/
theorem runsTogether_of_capital_eq {name other : String} (h : isIdentifier name = true)
    (hother : isIdentifier other = true) (hcapital : capital name = capital other)
    (hcamel : camel name ≠ camel other)
    (hle : (firstWord name).length ≤ (firstWord other).length) : RunsTogether name other := by
  have hforms : Text.lowerFirst (firstWord name).length (capital other).toList
      ≠ Text.lowerFirst (firstWord other).length (capital other).toList := by
    rw [← toList_camel hother, ← hcapital, ← toList_camel h]
    exact fun heq => hcamel (String.toList_inj.mp heq)
  refine ⟨hcapital, lt_of_le_of_ne hle fun heq => hforms (by rw [heq]), ?_⟩
  -- a small first word would leave nothing to be put in lower case
  by_contra hsmall
  obtain ⟨c, cs, n, hlist, hlength, hd⟩ :=
    exists_capital_small hother (Bool.eq_false_iff.mpr hsmall)
  obtain ⟨m, hm⟩ := Nat.exists_eq_add_of_lt (firstWord_length_pos h)
  rw [Nat.zero_add] at hm
  rw [hlength, hlist, hm, Text.lowerFirst_of_small (by omega) hd,
    Text.lowerFirst_of_small le_rfl hd] at hforms
  exact hforms rfl

/-- Among names with different lower camel forms, the capital forms are different iff no two of
them run together. -/
theorem capitals_nodup_iff {names : List String} (h : ∀ name ∈ names, isIdentifier name = true)
    (hwires : (names.map camel).Nodup) :
    (names.map capital).Nodup ↔ ∀ name ∈ names, ∀ other ∈ names, ¬ RunsTogether name other := by
  rw [List.nodup_map_iff_inj_on hwires.of_map]
  constructor
  · intro hinj name hname other hother hruns
    have hlt := hruns.shorter
    rw [hinj name hname other hother hruns.capital_eq] at hlt
    exact lt_irrefl _ hlt
  · intro hapart name hname other hother hcapital
    by_contra hne
    have hcamel : camel name ≠ camel other :=
      fun heq => hne (List.inj_on_of_nodup_map hwires hname hother heq)
    rcases Nat.le_total (firstWord name).length (firstWord other).length with hle | hle
    · exact hapart name hname other hother
        (runsTogether_of_capital_eq (h name hname) (h other hother) hcapital hcamel hle)
    · exact hapart other hother name hname
        (runsTogether_of_capital_eq (h other hother) (h name hname) hcapital.symm hcamel.symm hle)

example : RunsTogether "X_Y_ratio" "XY_ratio" :=
  ⟨by decide +kernel, by decide +kernel, by decide +kernel⟩

end Name

/-! ## Variables that rows declare -/

namespace TypeScript

/-- The variable that a row declares by `let`. -/
def Row.variable? (r : Row) : Option String :=
  match r.leading with
  | 'l' :: 'e' :: 't' :: ' ' :: rest => some (String.ofList (rest.takeWhile Name.isPlainChar))
  | _ => none

@[simp] theorem Row.leading_code (level : Nat) (text : String) :
    (Row.code level text).leading = text.toList := rfl

@[simp] theorem Row.leading_blank : Row.blank.leading = [] := rfl

@[simp] theorem Row.leading_mk (level : Nat) (text : String) (rest : List Piece) :
    Row.leading ⟨level, .code text :: rest⟩ = text.toList := rfl

namespace Block

def letNames (rows : Block) : List String := rows.filterMap Row.variable?

/-- Rows that begin with another letter. -/
def Plain (rows : Block) : Prop := ∀ r ∈ rows, r.leading.head? ≠ some 'l'

@[simp] theorem plain_nil : Plain [] := fun _ hr => nomatch hr

@[simp] theorem plain_cons {r : Row} {rows : Block} :
    Plain (r :: rows) ↔ r.leading.head? ≠ some 'l' ∧ Plain rows :=
  List.forall_mem_cons

@[simp] theorem plain_append {rows rest : Block} :
    Plain (rows ++ rest) ↔ Plain rows ∧ Plain rest :=
  List.forall_mem_append

theorem Plain.flatMap {α : Type} {items : List α} {f : α → Block}
    (h : ∀ a ∈ items, Plain (f a)) : Plain (items.flatMap f) := by
  intro r hr
  obtain ⟨a, ha, hr⟩ := List.mem_flatMap.mp hr
  exact h a ha r hr

theorem Plain.spaced {rows : Block} (h : Plain rows) : Plain (spaced rows) := by
  unfold TypeScript.spaced
  split
  · exact plain_nil
  · exact plain_cons.mpr ⟨by simp, h⟩

theorem letNames_of_plain {rows : Block} (h : rows.Plain) : rows.letNames = [] := by
  refine List.filterMap_eq_nil_iff.mpr fun r hr => ?_
  have hhead := h r hr
  unfold Row.variable?
  split
  · next heq => exact absurd (by rw [heq]; rfl) hhead
  · rfl

theorem letNames_append (rows rest : Block) :
    letNames (rows ++ rest) = rows.letNames ++ rest.letNames :=
  List.filterMap_append

theorem letNames_spaced (rows : Block) : (spaced rows).letNames = rows.letNames := by
  unfold spaced
  split
  · next h => rw [List.isEmpty_iff.mp h]
  · rfl

end Block

namespace Slot

/-- The row of a slot declares its variable. -/
theorem variable?_declarationRow {s : Slot} (h : Name.IsWord s.binding) :
    s.declarationRow.variable? = some s.binding := by
  have hleading : s.declarationRow.leading
      = 'l' :: 'e' :: 't' :: ' ' :: (s.binding.toList
        ++ ':' :: ' ' :: ((s.type.text qualifier).toList ++ " | undefined;".toList)) := by
    simp [declarationRow]
  unfold Row.variable?
  rw [hleading]
  show some (String.ofList (List.takeWhile _ _)) = _
  rw [List.takeWhile_append_of_pos h.2, List.takeWhile_cons_of_neg (by decide), List.append_nil,
    String.ofList_toList]

theorem letNames_declarationRows {slots : List Slot} (h : ∀ s ∈ slots, Name.IsWord s.binding) :
    Block.letNames (slots.map declarationRow) = slots.map (·.binding) := by
  unfold Block.letNames
  rw [List.filterMap_map, ← List.filterMap_eq_map]
  exact List.filterMap_congr fun s hs => variable?_declarationRow (h s hs)

/-- A variable whose name begins with `t` is not mistaken for a keyword. -/
def Marked (s : Slot) : Prop := s.binding.toList.head? = some 't'

theorem marked_of (p : Parameter) : (Slot.of p).Marked := by
  simp [Marked, Slot.of, slotName]

theorem Marked.plain_caseRows {s : Slot} (h : s.Marked) : Block.Plain s.caseRows := by
  have hbody : Block.Plain (if s.isList then s.listRows else s.itemRows) := by
    unfold Marked at h
    split
    · simp [listRows, failureRow, h]
    · simp [itemRows, failureRow, h]
  simp [caseRows, hbody]

theorem plain_requiredRows (s : Slot) : Block.Plain s.requiredRows := by
  unfold requiredRows
  split <;> simp

theorem plain_argumentRows {slots : List Slot} (h : ∀ s ∈ slots, s.Marked) :
    Block.Plain (argumentRows slots) := by
  fun_induction argumentRows slots with
  | case1 => exact Block.plain_nil
  | case2 s =>
    have hs : s.Marked := h s (by simp)
    unfold Marked at hs
    simp [hs]
  | case3 s rest _ ih =>
    obtain ⟨hs, hrest⟩ := List.forall_mem_cons.mp h
    unfold Marked at hs
    simp [hs, ih hrest]

end Slot

namespace ClassCodec

theorem plain_constructRows {c : ClassCodec} (h : ∀ s ∈ c.slots, s.Marked) :
    Block.Plain c.constructRows := by
  unfold constructRows
  split
  · simp
  · simp [Slot.plain_argumentRows h]

theorem plain_discriminatorRows (c : ClassCodec) : Block.Plain c.discriminatorRows := by
  unfold discriminatorRows
  split <;> simp

/-- Behind its declarations, the body of a parse routine declares no more variables. -/
theorem exists_bodyRows {c : ClassCodec} (h : ∀ s ∈ c.slots, s.Marked) :
    ∃ rest : Block, rest.Plain
      ∧ c.bodyRows = objectGuardRows ++ (spaced (c.slots.map Slot.declarationRow) ++ rest) := by
  have hcases : Block.Plain (c.slots.flatMap Slot.caseRows) :=
    Block.Plain.flatMap fun s hs => (h s hs).plain_caseRows
  have hrequired : Block.Plain (spaced (c.slots.flatMap Slot.requiredRows)) :=
    (Block.Plain.flatMap fun s _ => s.plain_requiredRows).spaced
  -- the rest is whatever the definition puts behind the declarations
  refine ⟨_, ?_, by unfold bodyRows; simp only [List.append_assoc]; rfl⟩
  have hconstruct := plain_constructRows h
  cases c.slots.isEmpty <;> simp [hcases, hrequired, plain_discriminatorRows, hconstruct]

/-- A parse routine declares the variables of its slots. -/
theorem letNames_emitParse {c : ClassCodec} (hhand : c.isHandwritten = false)
    (hword : ∀ s ∈ c.slots, Name.IsWord s.binding) (hmarked : ∀ s ∈ c.slots, s.Marked)
    (snippets : Snippets) : (c.emitParse snippets).1.letNames = c.slots.map (·.binding) := by
  obtain ⟨rest, hrest, hbody⟩ := exists_bodyRows hmarked
  have hhead : Block.Plain (signatureRows c.stem c.type) := by simp [signatureRows]
  have hguard : Block.Plain objectGuardRows := by simp [objectGuardRows]
  have hend : Block.Plain [.code 0 "\x7d"] := by simp
  have hrows : (c.emitParse snippets).1 = signatureRows c.stem c.type ++ c.bodyRows
      ++ [.code 0 "\x7d"] := by
    unfold emitParse
    rw [if_neg (by simp [hhand])]
  simp only [hrows, hbody, Block.letNames_append, Block.letNames_spaced,
    Block.letNames_of_plain hhead, Block.letNames_of_plain hguard, Block.letNames_of_plain hrest,
    Block.letNames_of_plain hend, Slot.letNames_declarationRows hword, List.nil_append,
    List.append_nil]

end ClassCodec

end TypeScript

/-! ## Variables of accepted models -/

theorem slotNames_nodup_iff {names : List String} :
    (names.map slotName).Nodup ↔ (names.map Name.capital).Nodup := by
  have hinj : Function.Injective fun form => "the" ++ form :=
    fun _ _ heq => (String.append_right_inj _).mp heq
  have hmap : names.map slotName = (names.map Name.capital).map fun form => "the" ++ form := by
    rw [List.map_map]
    rfl
  rw [hmap, List.nodup_map_iff hinj]

/-- The variables of a parse routine are those of the arguments. -/
theorem Codec.ClassPlan.Plans.letNames_emitParse {key : String} {t : Table} {c : Class}
    {p : ClassPlan} (h : p.Plans t c) (hsound : c.Sound key t) (hhand : c.isHandwritten = false)
    (snippets : Snippets) :
    ((ClassCodec.of key p).emitParse snippets).1.letNames
      = c.arguments.map fun a => slotName a.name := by
  have hhand' : (ClassCodec.of key p).isHandwritten = false := by
    show p.type.isHandwritten = false
    rw [h.type_eq]
    exact hhand
  have hslots : (ClassCodec.of key p).slots = p.parameters.map Slot.of := rfl
  have hbindings : (ClassCodec.of key p).slots.map (·.binding)
      = c.arguments.map fun a => slotName a.name := by
    rw [hslots, List.map_map]
    refine map_eq_of_forall₂ h.parameters fun a q hq => ?_
    show slotName q.argument.name = _
    rw [hq.argument_eq]
  have hword : ∀ s ∈ (ClassCodec.of key p).slots, Name.IsWord s.binding := by
    intro s hs
    have hbinding : s.binding ∈ c.arguments.map fun a => slotName a.name :=
      hbindings ▸ List.mem_map_of_mem hs
    obtain ⟨a, ha, heq⟩ := List.mem_map.mp hbinding
    rw [← heq]
    exact isWord_slotName (hsound.isIdentifier_argument ha)
  have hmarked : ∀ s ∈ (ClassCodec.of key p).slots, s.Marked := by
    rw [hslots]
    exact List.forall_mem_map.mpr fun q _ => Slot.marked_of q
  rw [ClassCodec.letNames_emitParse hhand' hword hmarked, hbindings]

/-- **The variables that a parse routine declares are different iff no two arguments of its class
run together.** -/
theorem Model.slots_nodup_iff {key : String} {value : Json} {table : Table}
    (h : Model.load key value = .ok table) (snippets : Snippets) :
    ∃ plan, Plan.of table = .ok plan
      ∧ ∀ c ∈ table.concreteClasses, c.isHandwritten = false →
        ∃ p ∈ plan.concreteClasses, p.type = c
          ∧ ((ClassCodec.of key p).emitParse snippets).1.letNames
            = c.arguments.map (fun a => slotName a.name)
          ∧ (((ClassCodec.of key p).emitParse snippets).1.letNames.Nodup ↔
            ∀ a ∈ c.arguments, ∀ b ∈ c.arguments, ¬ Name.RunsTogether a.name b.name) := by
  have hsound := Model.sound_of_load h
  obtain ⟨plan, hplan⟩ := hsound.exists_plan
  refine ⟨plan, hplan, fun c hc hhand => ?_⟩
  obtain ⟨hclass, hconcrete⟩ := List.mem_filter.mp hc
  obtain ⟨p, hp, hplans⟩ := (Plan.plans_of_eq_ok hplan).exists_of_mem_classes hclass
  have hp' : p ∈ plan.concreteClasses := by
    refine List.mem_filter.mpr ⟨hp, ?_⟩
    rw [hplans.type_eq]
    exact hconcrete
  have hclassSound := hsound.classes c hclass
  have hnames := hplans.letNames_emitParse hclassSound hhand snippets
  refine ⟨p, hp', hplans.type_eq, hnames, ?_⟩
  have hidentifiers : ∀ name ∈ c.arguments.map (·.name), Name.isIdentifier name = true :=
    List.forall_mem_map.mpr fun a ha => hclassSound.isIdentifier_argument ha
  have hwires : ((c.arguments.map (·.name)).map Name.camel).Nodup := by
    rw [List.map_map]
    exact hclassSound.wires_arguments_nodup
  have hslots : (c.arguments.map fun a => slotName a.name)
      = (c.arguments.map (·.name)).map slotName := by
    rw [List.map_map]
    rfl
  -- loading has compared the lower camel forms, which is what the condition is about
  rw [hnames, hslots, slotNames_nodup_iff, Name.capitals_nodup_iff hidentifiers hwires]
  simp only [List.forall_mem_map]

/-- Two ratios whose names differ in where the first word ends. -/
def charts : Json :=
  .object [("name", .text "charts"), ("types", .array [
    .object [("kind", .text "concreteClass"), ("name", .text "chart"),
      ("properties", .array [
        .object [("name", .text "X_Y_ratio"), ("type", .text "float")],
        .object [("name", .text "XY_ratio"), ("type", .text "float")]])]])]

theorem charts_apart_iff : ∃ table, Model.load "modelType" charts = .ok table
    ∧ ∃ plan, Plan.of table = .ok plan
      ∧ ∀ c ∈ table.concreteClasses, c.isHandwritten = false →
        ∃ p ∈ plan.concreteClasses, p.type = c
          ∧ ((ClassCodec.of "modelType" p).emitParse []).1.letNames
            = c.arguments.map (fun a => slotName a.name)
          ∧ (((ClassCodec.of "modelType" p).emitParse []).1.letNames.Nodup ↔
            ∀ a ∈ c.arguments, ∀ b ∈ c.arguments, ¬ Name.RunsTogether a.name b.name) := by
  have hloads : (Model.load "modelType" charts).toOption.isSome = true := by decide +kernel
  obtain ⟨table, hload⟩ := Model.exists_table hloads
  exact ⟨table, hload, Model.slots_nodup_iff hload []⟩

theorem charts_slots_meet : ∃ table plan, Model.load "modelType" charts = .ok table
    ∧ Plan.of table = .ok plan
    ∧ ¬ ∀ p ∈ plan.concreteClasses, p.type.isHandwritten = false →
      ((ClassCodec.of "modelType" p).emitParse []).1.letNames.Nodup := by
  have hnames : (Model.load "modelType" charts).toOption.bind (fun t =>
      (Plan.of t).toOption.map fun plan => decide (∀ p ∈ plan.concreteClasses,
        p.type.isHandwritten = false →
          ((ClassCodec.of "modelType" p).emitParse []).1.letNames.Nodup)) = some false := by
    decide +kernel
  obtain ⟨table, plan, hload, hplan, hnames⟩ := Model.exists_plan_of_eq_some hnames
  exact ⟨table, plan, hload, hplan, of_decide_eq_false hnames⟩

end WireModel
