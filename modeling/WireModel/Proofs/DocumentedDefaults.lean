import WireModel.Proofs.Initialization
import WireModel.Reference.Build

/-!
# Documented defaults

The reference of a model lists the arguments of a constructor with their defaults, whatever their
types are. The constructor itself has two rules for defaults, and both ask whether the argument is
optional: the default is what the parameter is when it is left out if the property is optional too,
and what `null` is replaced by if it is not. Loading accepts a default for any argument.

**`Model.defaults_used_iff`**: the reference documents every default, and the constructor makes use
of it iff the argument is optional.
-/

namespace WireModel

open TypeScript Codec

/-! ## Defaults in the reference -/

namespace Reference

/-- The reference lists an argument of a class with its type and the default `d`. -/
def Documents (tree : Tree) (c : Class) (a : Argument) (d : Default) : Prop :=
  ∃ items, [Block.heading 4 "Constructor" (sectionAnchor c.name "constructor"), .list items]
      <:+: tree.blocks
    ∧ [.code a.name, .text ": "] ++ ofField a.type ++ [.text " = ", ofDefault d] ∈ items

/-- The blocks of a class are part of the reference. -/
theorem infix_build {plan : Plan} {p : ClassPlan} (hp : p ∈ plan.classes) (key : String)
    (title : Option String) : classBlocks key p <:+: (build plan key title).blocks := by
  have hclasses : classBlocks key p <:+: classesOf plan key := by
    refine List.infix_of_mem_flatten (List.mem_map.mpr ⟨.classType p, ?_, rfl⟩)
    exact Plan.mem_classes.mp hp
  have hsection : classesOf plan key <:+: sectionBlocks "Classes" (classesOf plan key) := by
    unfold sectionBlocks
    split
    · next hempty => exact List.infix_nil.mpr (List.isEmpty_iff.mp hempty)
    · exact (List.suffix_cons _ _).isInfix
  exact (hclasses.trans hsection).trans (List.suffix_append _ _).isInfix

/-- **The reference documents the default of every argument.** -/
theorem documents_build {plan : Plan} {p : ClassPlan} (hp : p ∈ plan.classes) (key : String)
    (title : Option String) {a : Argument} (ha : a ∈ p.type.arguments) {d : Default}
    (hd : a.default = some d) : Documents (build plan key title) p.type a d := by
  refine ⟨p.type.arguments.map argumentSpans, ?_, List.mem_map.mpr ⟨a, ha, ?_⟩⟩
  · have hblocks : constructorBlocks p.type <:+: classBlocks key p :=
      (List.suffix_append _ _).isInfix
    have hne : ¬p.type.arguments.isEmpty = true := by
      simpa using List.ne_nil_of_mem ha
    rw [constructorBlocks, if_neg hne] at hblocks
    exact hblocks.trans (infix_build hp key title)
  · rw [argumentSpans, hd]

end Reference

/-! ## Defaults in the constructor -/

/-- The expression `text` takes effect for an argument with the texts `entry`: the parameter is that
expression when it is left out, or that is assigned in place of `null`. -/
inductive TakesEffect (binding text : String) (entry : String × String) : Prop where
  | initializer {type : String} (htype : '=' ∉ type.toList)
      (h : entry.1 = binding ++ ": " ++ type ++ " = " ++ text)
  | fallback (h : entry.2 = "this." ++ binding ++ " = " ++ binding ++ " ?? " ++ text ++ ";")

/-- A parameter without a default that is assigned as it is makes use of no expression. -/
theorem not_takesEffect {q : Property} (hbinding : Name.IsWord q.binding) {type : String}
    (htype : '=' ∉ type.toList) (text : String) :
    ¬TakesEffect q.binding text (q.binding ++ ": " ++ type, q.plainAssignment) := by
  intro h
  cases h with
  | initializer _ h =>
    have hmem : '=' ∈ (q.binding ++ ": " ++ type).toList := by
      rw [show q.binding ++ ": " ++ type = _ from h]
      simp
    simp only [String.toList_append, List.mem_append] at hmem
    rcases hmem with (hmem | hmem) | hmem
    · exact hbinding.not_mem rfl hmem
    · revert hmem
      decide
    · exact htype hmem
  | fallback h =>
    -- the statement would be longer
    have hlength := congrArg String.length h
    simp only [Property.plainAssignment, String.length_append] at hlength
    have hmark : " ?? ".length = 4 := rfl
    omega

/-- What the reference and the constructor say about the default of an argument. -/
structure Argument.DefaultUse (t : Table) (tree : Reference.Tree) (c : Class) (a : Argument)
    (entry : String × String) : Prop where
  documented : ∀ d, a.default = some d → Reference.Documents tree c a d
  used_iff : ∀ d, a.default = some d → ∃ text, t.expressionOf a.type d = .ok text
    ∧ (TakesEffect (bindingName (Name.camel a.name)) text entry ↔ a.type.isOptional = true)

/-- The texts of an argument make use of its default iff the argument is optional. -/
theorem Initializes.takesEffect_iff {t : Table} {a : Argument} {q : Property} {s : Strategy}
    {parameter assignment : String}
    (h : Initializes t a q ((TypeExpr.ofStrategy s).text "") parameter assignment)
    (hs : t.strategy q.type = .ok s) (hbinding : Name.IsWord q.binding)
    (htype : '=' ∉ ((TypeExpr.ofStrategy s).text "").toList) {d : Default}
    (hd : a.default = some d) :
    ∃ text, t.expressionOf a.type d = .ok text
      ∧ (TakesEffect q.binding text (parameter, assignment) ↔ a.type.isOptional = true) := by
  cases h with
  | required hsame hq =>
    refine ⟨(Value.ofDefault s d).piece.text, ?_, ?_⟩
    · rw [Table.expressionOf, hsame, hs]
      rfl
    · rw [hsame, hq]
      exact iff_of_false (not_takesEffect hbinding htype _) Bool.false_ne_true
  | fallback hoptional _ _ hd' htext _ =>
    obtain rfl := Option.some.inj (hd.symm.trans hd')
    exact ⟨_, htext, iff_of_true (.fallback rfl) hoptional⟩
  | optional _ _ hd' =>
    rw [hd] at hd'
    cases hd'
  | default hsame hq hd' htext _ =>
    obtain rfl := Option.some.inj (hd.symm.trans hd')
    exact ⟨_, htext, iff_of_true (.initializer htype rfl) (hsame ▸ hq)⟩

/-- **Every default is documented, and those of optional arguments are used.** A required argument
is documented with its default, and its constructor does without. -/
theorem Model.defaults_used_iff {key : String} {value : Json} {table : Table}
    (h : Model.load key value = .ok table) (hsilent : table.constructorDiagnostics = [])
    (snippets : Snippets) (title : Option String) :
    ∃ plan, Plan.of table = .ok plan
      ∧ ∀ c ∈ table.concreteClasses, c.isHandwritten = false →
        ∃ p ∈ plan.concreteClasses, p.type = c
          ∧ ∃ entries, constructorLines entries
              <:+: ((Declaration.classOf table p).emit snippets).1.map Row.text
            ∧ List.Forall₂ (Argument.DefaultUse table (Reference.build plan key title) c)
              c.arguments entries := by
  obtain ⟨document, -, hclean, hid, rfl⟩ := Model.clean_of_load h
  have hlinked := hclean.linked_table hid
  obtain ⟨plan, hplan⟩ := hlinked.sound.exists_plan
  refine ⟨plan, hplan, fun c hc hhand => ?_⟩
  obtain ⟨hclass, -⟩ := List.mem_filter.mp hc
  obtain ⟨p, hp, hplans⟩ := (Plan.plans_of_eq_ok hplan).exists_of_mem_concreteClasses hc
  obtain rfl := hplans.type_eq
  have hinitialized := hclean.initialized_of_plans hid hsilent hclass hplans hhand snippets
  obtain ⟨entries, hentries, hlines⟩ := hinitialized.initializes
  refine ⟨p, hp, rfl, entries, hlines, ?_⟩
  have hboth := (List.forall₂_and_left _ _).mpr
    ⟨fun a (ha : a ∈ p.type.arguments) => ha, hentries⟩
  refine hboth.imp fun a entry ⟨ha, hentry⟩ => ⟨fun d hd => ?_, fun d hd => ?_⟩
  · exact Reference.documents_build (List.mem_filter.mp hp).1 key title ha hd
  · obtain ⟨q, hq, hname⟩ := (hlinked.sound.classes _ hclass).exists_property ha
    obtain ⟨s, hs, -, hinitializes⟩ := hentry q hq hname
    have hbinding : Name.IsWord q.binding :=
      isWord_bindingName (hlinked.isWord_wire_of_property hclass hq)
    have htype := TypeExpr.not_mem_text fun name hname =>
      (hlinked.ofStrategy_within (Table.carries_of_strategy hs) name hname).1
    rw [← hname]
    exact hinitializes.takesEffect_iff hs hbinding htype hd

/-- A required argument and an optional one, both with a default. -/
def counters : Json :=
  .object [("name", .text "counters"), ("types", .array [
    .object [("kind", .text "concreteClass"), ("name", .text "counter"),
      ("properties", .array [
        .object [("name", .text "step"), ("type", .text "int")],
        .object [("name", .text "label"), ("type", .text "str")]]),
      ("constructorArguments", .array [
        .object [("name", .text "step"), ("type", .text "int"),
          ("default", .number (.finite false 5629499534213120 (-50)))],
        .object [("name", .text "label"), ("type", .text "Optional[str]"),
          ("default", .text "new")]])]])]

theorem counters_defaults_used_iff : ∃ table, Model.load "modelType" counters = .ok table
    ∧ table.constructorDiagnostics = [] ∧ ∃ plan, Plan.of table = .ok plan
      ∧ ∀ c ∈ table.concreteClasses, c.isHandwritten = false →
        ∃ p ∈ plan.concreteClasses, p.type = c
          ∧ ∃ entries, constructorLines entries
              <:+: ((Declaration.classOf table p).emit []).1.map Row.text
            ∧ List.Forall₂ (Argument.DefaultUse table (Reference.build plan "modelType" none) c)
              c.arguments entries := by
  have hloads : (Model.load "modelType" counters).toOption.isSome = true := by decide +kernel
  have hfits : (Model.load "modelType" counters).toOption.map Table.constructorDiagnostics
      = some [] := by decide +kernel
  obtain ⟨table, hload⟩ := Model.exists_table hloads
  rw [hload] at hfits
  have hsilent : table.constructorDiagnostics = [] := Option.some.inj hfits
  exact ⟨table, hload, hsilent, Model.defaults_used_iff hload hsilent [] none⟩

/-- The expression for the default of the step occurs nowhere in the class. -/
theorem counters_default_unused : ∃ table plan, Model.load "modelType" counters = .ok table
    ∧ table.constructorDiagnostics = [] ∧ Plan.of table = .ok plan
    ∧ ¬ ∀ p ∈ plan.concreteClasses, p.type.isHandwritten = false →
      ∀ a ∈ p.type.arguments, ∀ d text, a.default = some d →
        table.expressionOf a.type d = .ok text →
          ∃ r ∈ ((Declaration.classOf table p).emit []).1, text.toList <:+: r.text.toList := by
  have hunused : (Model.load "modelType" counters).toOption.bind (fun t =>
      (Plan.of t).toOption.map fun plan => decide (plan.table.constructorDiagnostics = []
        ∧ ∃ p ∈ plan.concreteClasses, p.type.isHandwritten = false
          ∧ ∃ a ∈ p.type.arguments, ∃ d ∈ a.default,
            plan.table.expressionOf a.type d = .ok "5n"
            ∧ ∀ r ∈ ((Declaration.classOf plan.table p).emit []).1,
              ¬"5n".toList <:+: r.text.toList)) = some true := by
    decide +kernel
  obtain ⟨table, plan, hload, hplan, hunused⟩ := Model.exists_plan_of_eq_some hunused
  rw [(Plan.plans_of_eq_ok hplan).table_eq] at hunused
  obtain ⟨hsilent, p, hp, hhand, a, ha, d, hd, htext, hnot⟩ := of_decide_eq_true hunused
  refine ⟨table, plan, hload, hsilent, hplan, fun hall => ?_⟩
  obtain ⟨r, hr, hinfix⟩ := hall p hp hhand a ha d "5n" hd htext
  exact hnot r hr hinfix

end WireModel
