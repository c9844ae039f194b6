import WireModel.Proofs.Members
import WireModel.Proofs.Planning
import WireModel.Schema.Definition

/-!
# The definitions of a schema

Definitions are assigned to one object: those of types under their names, and then those of
interfaces under the names of their classes with the ending `_choice`. A type may be called like
that, and loading does not compare the two, so the definition of an interface can take the place of
that of a type. **`Model.definitions_complete`** says that nothing else is lost: every definition is
made, it is found under its name unless the name is that of an interface, and the object has as many
keys as there are types and interfaces, less those that are taken.
-/

namespace WireModel

open Codec

/-- A type has a definition under its own name. -/
def NamedType.isDefined : NamedType → Bool
  | .enumeration _ => true
  | .constrained _ => true
  | .classType c => c.isConcrete

namespace Schema

/-- The schema of a type: the values of its literals, its primitive, its properties on the wire, or
its snippet. -/
inductive Describes (t : Table) (key : String) (snippets : Snippets) : NamedType → Json → Prop where
  | enumeration (e : Enumeration) : Describes t key snippets (.enumeration e)
      (.object (withDescription e.description
        [("type", .text "string"), ("enum", Json.texts (e.literals.map (·.value)))]))
  | constrained (c : Constrained) : Describes t key snippets (.constrained c)
      (.object (withDescription c.description (ofPrimitive c.constrainee)))
  | generated {c : Class} {p : ClassPlan} (hhand : c.isHandwritten = false)
      (hp : ClassPlan.of t c = .ok p) :
      Describes t key snippets (.classType c) (.object (ofClass t key p))
  | handwritten {c : Class} {schema : Json.Members} (hhand : c.isHandwritten = true)
      (hsnippet : ofSnippet snippets c.name = .ok schema) :
      Describes t key snippets (.classType c) (.object schema)

/-- The name under which the definition of an interface is found. -/
def isChoice (t : Table) (name : String) : Bool :=
  t.interfaces.any fun i => choiceName i.name == name

variable {t : Table} {key : String} {snippets : Snippets}

/-! ## Definitions of types -/

/-- A type that has a definition gets one, unless something is reported. -/
theorem definitionOf_of_silent {s : NamedType} {p : TypePlan} (hp : TypePlan.of t s = .ok p)
    (hsilent : (definitionOf t key snippets p).2 = []) :
    if s.isDefined then
      ∃ schema, (definitionOf t key snippets p).1 = some (s.name, schema)
        ∧ Describes t key snippets s schema
    else (definitionOf t key snippets p).1 = none := by
  cases s with
  | enumeration e =>
    cases TypePlan.plans_of_eq_ok hp
    exact ⟨_, rfl, .enumeration e⟩
  | constrained c =>
    cases hp
    exact ⟨_, rfl, .constrained c⟩
  | classType c =>
    obtain ⟨plan, hplan, rfl⟩ := map_eq_ok_iff.mp hp
    have htype := (ClassPlan.plans_of_eq_ok hplan).type_eq
    have hname : plan.name = c.name := congrArg Class.name htype
    unfold definitionOf at hsilent ⊢
    simp only [htype, hname] at hsilent ⊢
    show if c.isConcrete = true then _ else _
    cases hconcrete : c.isConcrete with
    | false => rfl
    | true =>
      cases hhand : c.isHandwritten with
      | false => exact ⟨_, rfl, .generated hhand hplan⟩
      | true =>
        -- a snippet that cannot be used would have been reported
        rw [hconcrete, hhand] at hsilent
        cases hsnippet : ofSnippet snippets c.name with
        | error d =>
          rw [hsnippet] at hsilent
          cases hsilent
        | ok schema =>
          exact ⟨_, rfl, .handwritten hhand hsnippet⟩

theorem definitions_of_silent {types : List NamedType} {plans : List TypePlan}
    (h : List.Forall₂ (fun s p => TypePlan.of t s = .ok p) types plans)
    (hsilent : ∀ p ∈ plans, (definitionOf t key snippets p).2 = []) :
    List.Forall₂ (fun s d => d.1 = s.name ∧ Describes t key snippets s d.2)
      (types.filter NamedType.isDefined)
      (plans.filterMap fun p => (definitionOf t key snippets p).1) := by
  induction h with
  | nil => exact .nil
  | @cons s p types plans hp _ ih =>
    have hrest := ih fun q hq => hsilent q (List.mem_cons_of_mem p hq)
    have hdefinition := definitionOf_of_silent hp (hsilent p List.mem_cons_self)
    by_cases hs : s.isDefined = true
    · rw [if_pos hs] at hdefinition
      obtain ⟨schema, hfirst, hdescribes⟩ := hdefinition
      rw [List.filter_cons_of_pos hs, List.filterMap_cons, hfirst]
      exact .cons ⟨rfl, hdescribes⟩ hrest
    · rw [if_neg hs] at hdefinition
      rwa [List.filter_cons_of_neg hs, List.filterMap_cons, hdefinition]

/-! ## Definitions that are kept -/

/-- Everything that the definitions `defs` hold and what they may have lost. -/
structure Complete (t : Table) (key : String) (snippets : Snippets) (defs : Json.Members) :
    Prop where
  types : ∀ s ∈ t.types, s.isDefined = true → ∃ schema, Describes t key snippets s schema
    ∧ (isChoice t s.name = false → defs.get? s.name = some schema)
  choices : ∀ i ∈ t.interfaces, defs.get? (choiceName i.name)
    = some (.object [("oneOf", .array (i.implementers.map fun name => .object (reference name)))])
  length_eq : defs.length + t.types.countP (fun s => s.isDefined && isChoice t s.name)
    = t.types.countP NamedType.isDefined + t.interfaces.length

theorem mem_keys_choices {name : String} :
    name ∈ Json.Members.keys (t.interfaces.map choiceOf) ↔ isChoice t name = true := by
  simp [Json.Members.keys, isChoice, choiceOf]

theorem keys_choices_nodup (h : (t.interfaces.map (·.name)).Nodup) :
    (Json.Members.keys (t.interfaces.map choiceOf)).Nodup := by
  have hmap : Json.Members.keys (t.interfaces.map choiceOf)
      = (t.interfaces.map (·.name)).map choiceName := by
    unfold Json.Members.keys
    rw [List.map_map, List.map_map]
    rfl
  rw [hmap]
  exact h.map fun a b hab => (String.append_left_inj _).mp hab

theorem definitions_eq (plans : List TypePlan) :
    (definitions ⟨t, plans⟩ key snippets).1
      = .ofList ((plans.filterMap fun p => (definitionOf t key snippets p).1)
        ++ t.interfaces.map choiceOf) := by
  show Json.Members.ofList ((plans.map (definitionOf t key snippets)).filterMap (·.1) ++ _) = _
  rw [List.filterMap_map]
  rfl

/-- Where nothing is reported, the definitions of types and those of interfaces are assigned. -/
theorem exists_pairs_of_silent {plan : Plan} (hplan : Plan.of t = .ok plan)
    (hsilent : (definitions plan key snippets).2 = []) : ∃ pairs : List (String × Json),
    (definitions plan key snippets).1 = .ofList (pairs ++ t.interfaces.map choiceOf)
      ∧ List.Forall₂ (fun s d => d.1 = s.name ∧ Describes t key snippets s d.2)
        (t.types.filter NamedType.isDefined) pairs := by
  obtain ⟨plans, hplans, rfl⟩ := map_eq_ok_iff.mp hplan
  have hquiet : ∀ p ∈ plans, (definitionOf t key snippets p).2 = [] := fun p hp =>
    List.flatMap_eq_nil_iff.mp hsilent _ (List.mem_map_of_mem hp)
  exact ⟨_, definitions_eq plans, definitions_of_silent (mapM_eq_ok_iff.mp hplans) hquiet⟩

/-- How many definitions stay, when `names` are replaced. -/
theorem length_filter_add_countP {types : List NamedType} {pairs : List (String × Json)}
    (hnames : Json.Members.keys pairs = (types.filter NamedType.isDefined).map (·.name))
    (names : List String) :
    (pairs.filter fun m => decide (m.1 ∉ names)).length
      + types.countP (fun s => s.isDefined && decide (s.name ∈ names))
      = types.countP NamedType.isDefined := by
  have htaken : types.countP (fun s => s.isDefined && decide (s.name ∈ names))
      = pairs.countP fun m => decide (m.1 ∈ names) := by
    have hpairs : pairs.countP (fun m => decide (m.1 ∈ names))
        = (Json.Members.keys pairs).countP fun name => decide (name ∈ names) := by
      rw [Json.Members.keys, List.countP_map]
      rfl
    rw [hpairs, hnames, List.countP_map, List.countP_filter]
    exact List.countP_congr fun s _ => by simp [and_comm]
  have hlength : pairs.length = types.countP NamedType.isDefined := by
    have hmap := congrArg List.length hnames
    rwa [Json.Members.keys, List.length_map, List.length_map,
      ← List.countP_eq_length_filter] at hmap
  have hsplit := List.length_eq_countP_add_countP (fun m : String × Json => decide (m.1 ∈ names))
    (l := pairs)
  simp only [decide_eq_true_eq] at hsplit
  rw [← List.countP_eq_length_filter]
  omega

theorem complete_of_silent {wireKey : String} (h : t.Sound wireKey) {plan : Plan}
    (hplan : Plan.of t = .ok plan) (hsilent : (definitions plan key snippets).2 = []) :
    Complete t key snippets (definitions plan key snippets).1 := by
  obtain ⟨pairs, hdefs, hpairs⟩ := exists_pairs_of_silent hplan hsilent
  rw [hdefs]
  have hnames : Json.Members.keys pairs = (t.types.filter NamedType.isDefined).map (·.name) :=
    map_eq_of_forall₂ hpairs fun _ _ hd => hd.1
  have hnodup : (Json.Members.keys pairs).Nodup := by
    rw [hnames]
    exact h.names_nodup.sublist (List.filter_sublist.map _)
  have hperm := Json.Members.perm_ofList_append hnodup (keys_choices_nodup h.interfaces_distinct)
  have hkeys := Json.Members.keys_ofList_nodup (pairs ++ t.interfaces.map choiceOf)
  constructor
  case types =>
    intro s hs hdefined
    obtain ⟨d, hd, hname, hdescribes⟩ := exists_of_mem_forall₂ hpairs
      (List.mem_filter.mpr ⟨hs, hdefined⟩)
    refine ⟨d.2, hdescribes, fun hfree => ?_⟩
    rw [Json.Members.get?_eq_some_iff hkeys, hperm.mem_iff, ← hname]
    refine List.mem_append_right _ (List.mem_filter.mpr ⟨hd, ?_⟩)
    rw [decide_eq_true_eq, mem_keys_choices, hname, hfree]
    exact Bool.false_ne_true
  case choices =>
    intro i hi
    rw [Json.Members.get?_eq_some_iff hkeys, hperm.mem_iff]
    exact List.mem_append_left _ (List.mem_map_of_mem (f := choiceOf) hi)
  case length_eq =>
    have hlength := hperm.length_eq
    have hcount := length_filter_add_countP hnames
      (Json.Members.keys (t.interfaces.map choiceOf))
    simp only [mem_keys_choices, Bool.decide_eq_true] at hcount
    rw [List.length_append, List.length_map] at hlength
    simp only [mem_keys_choices] at hlength
    omega

theorem get?_build (plan : Plan) :
    (build plan key snippets).1.get? "$defs"
      = some (.object (definitions plan key snippets).1) := by
  unfold build
  cases plan.table.description <;> rfl

end Schema

/-- **Every definition of a schema is made, and kept unless an interface takes its name.** -/
theorem Model.definitions_complete {wireKey : String} {value : Json} {table : Table}
    (h : Model.load wireKey value = .ok table) (key : String) (snippets : Snippets) :
    ∃ plan, Plan.of table = .ok plan
      ∧ ((Schema.build plan key snippets).2 = [] →
        ∃ defs, (Schema.build plan key snippets).1.get? "$defs" = some (.object defs)
          ∧ Schema.Complete table key snippets defs) := by
  have hsound := Model.sound_of_load h
  obtain ⟨plan, hplan⟩ := hsound.exists_plan
  refine ⟨plan, hplan, fun hsilent => ⟨_, Schema.get?_build plan, ?_⟩⟩
  exact Schema.complete_of_silent hsound hplan hsilent

/-- An enumeration that is called like the definition of an interface. -/
def pickers : Json :=
  .object [("name", .text "pickers"), ("types", .array [
    .object [("kind", .text "enumeration"), ("name", .text "shape_choice"), ("literals", .array [
      .object [("name", .text "round"), ("value", .text "r")]])],
    .object [("kind", .text "abstractClass"), ("name", .text "shape")],
    .object [("kind", .text "concreteClass"), ("name", .text "circle"),
      ("inheritances", Json.texts ["shape"])]])]

theorem pickers_complete : ∃ table, Model.load "modelType" pickers = .ok table
    ∧ ∃ plan, Plan.of table = .ok plan ∧ (Schema.build plan "modelType" []).2 = []
      ∧ ∃ defs, (Schema.build plan "modelType" []).1.get? "$defs" = some (.object defs)
        ∧ Schema.Complete table "modelType" [] defs := by
  have hquiet : (Model.load "modelType" pickers).toOption.bind (fun t =>
      (Plan.of t).toOption.map fun plan => (Schema.build plan "modelType" []).2) = some [] := by
    decide +kernel
  obtain ⟨table, plan, hload, hplan, hsilent⟩ := Model.exists_plan_of_eq_some hquiet
  obtain ⟨plan', hplan', hcomplete⟩ := Model.definitions_complete hload "modelType" []
  obtain rfl : plan = plan' := Except.ok.inj (hplan.symm.trans hplan')
  exact ⟨table, hload, plan, hplan, hsilent, hcomplete hsilent⟩

/-- What is found under the name of the enumeration lists no values. -/
theorem pickers_definition_lost : ∃ table plan, Model.load "modelType" pickers = .ok table
    ∧ Plan.of table = .ok plan ∧ (Schema.build plan "modelType" []).2 = []
    ∧ "shape_choice" ∈ plan.table.enumerations.map (·.name)
    ∧ ((((Schema.build plan "modelType" []).1.get? "$defs").bind (·.get? "shape_choice")).bind
      (·.get? "enum")).isNone = true := by
  have hlost : (Model.load "modelType" pickers).toOption.bind (fun t =>
      (Plan.of t).toOption.map fun plan =>
        decide ((Schema.build plan "modelType" []).2 = []
          ∧ "shape_choice" ∈ plan.table.enumerations.map (·.name)
          ∧ ((((Schema.build plan "modelType" []).1.get? "$defs").bind (·.get? "shape_choice")).bind
            (·.get? "enum")).isNone = true))
        = some true := by decide +kernel
  obtain ⟨table, plan, hload, hplan, hlost⟩ := Model.exists_plan_of_eq_some hlost
  exact ⟨table, plan, hload, hplan, of_decide_eq_true hlost⟩

end WireModel
