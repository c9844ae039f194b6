import WireModel.Proofs.Declarations
import WireModel.Proofs.Definitions
import WireModel.Proofs.WireKeys

/-!
# References of a schema

A schema refers to its definitions from the properties of classes and from the choices of
interfaces. An abstract class has no definition and a handwritten class has one only if its snippet
can be used, so that a reference leads somewhere takes an argument: a class without a definition
has an interface, and then the reference is to the choice.

## The architecture

* **`Json.RefersTo`** is a reference anywhere in a value, and there is one equivalence for each
  kind of schema. A snippet is a value like any other, and nothing is said about what it refers to.
* **`Schema.Designates`** says which definition the type of a field stands for, without looking at
  interfaces: the choice of a class with descendants, and the type itself otherwise
  (`Table.Sound.refersTo_ofField_iff`).
* **`Schema.Meets`** is what `required` and `const` ask of an object. Two implementers of an
  interface ask for different values of the discriminator (`Schema.apart_of_const?_ne`).
* **`Model.schema_resolves`** puts it together for a schema that is generated, as
  `Schema.Resolved`.
-/

namespace WireModel

open Codec

/-! ## References in a value -/

/-- There is a reference to `target` somewhere in a value. -/
inductive Json.RefersTo (target : String) : Json → Prop where
  | here {members : Json.Members} (h : ("$ref", .text target) ∈ members) :
      RefersTo target (.object members)
  | member {members : Json.Members} {m : String × Json} (hm : m ∈ members)
      (h : RefersTo target m.2) : RefersTo target (.object members)
  | item {items : List Json} {value : Json} (hvalue : value ∈ items)
      (h : RefersTo target value) : RefersTo target (.array items)

namespace Json

variable {target : String}

theorem refersTo_object_iff {members : Members} :
    (object members).RefersTo target ↔
      ∃ m ∈ members, m = ("$ref", .text target) ∨ m.2.RefersTo target := by
  constructor
  · intro h
    cases h with
    | here h => exact ⟨_, h, .inl rfl⟩
    | member hm h => exact ⟨_, hm, .inr h⟩
  · rintro ⟨m, hm, rfl | h⟩
    · exact .here hm
    · exact .member hm h

theorem refersTo_array_iff {items : List Json} :
    (array items).RefersTo target ↔ ∃ value ∈ items, value.RefersTo target := by
  constructor
  · intro h
    cases h with
    | item hvalue h => exact ⟨_, hvalue, h⟩
  · rintro ⟨value, hvalue, h⟩
    exact .item hvalue h

@[simp] theorem not_refersTo_empty : ¬(object []).RefersTo target := by
  simp [refersTo_object_iff]

@[simp] theorem refersTo_cons_iff {m : String × Json} {rest : Members} :
    (object (m :: rest)).RefersTo target ↔
      m = ("$ref", .text target) ∨ m.2.RefersTo target ∨ (object rest).RefersTo target := by
  simp [refersTo_object_iff, or_assoc]

theorem refersTo_append_iff {first second : Members} :
    (object (first ++ second)).RefersTo target ↔
      (object first).RefersTo target ∨ (object second).RefersTo target := by
  simp only [refersTo_object_iff, List.mem_append, or_and_right, exists_or]

@[simp] theorem not_refersTo_text (s : String) : ¬(text s).RefersTo target := nofun

@[simp] theorem not_refersTo_bool (b : Bool) : ¬(bool b).RefersTo target := nofun

@[simp] theorem not_refersTo_texts (items : List String) : ¬(texts items).RefersTo target := by
  rw [texts, refersTo_array_iff]
  simp

end Json

namespace Schema

variable {t : Table} {key target : String}

theorem refersTo_reference_iff {name : String} :
    (Json.object (reference name)).RefersTo target ↔ target = "#/$defs/" ++ name := by
  simp [reference, eq_comm]

theorem refersTo_withDescription_iff {description : Option Description} {schema : Json.Members} :
    (Json.object (withDescription description schema)).RefersTo target ↔
      (Json.object schema).RefersTo target := by
  cases description with
  | none => rfl
  | some d => simp [withDescription]

theorem not_refersTo_ofPrimitive (kind : Primitive) :
    ¬(Json.object (ofPrimitive kind)).RefersTo target := by
  cases kind <;> simp [ofPrimitive]

theorem refersTo_ofField_iff {type : FieldType Atom} :
    (Json.object (ofField t type)).RefersTo target ↔
      (Json.object (ofAtom t type.item)).RefersTo target := by
  unfold ofField
  split
  · -- the references of a list are those of its items
    simp
  · rfl

/-! ## What a type stands for -/

/-- The definition that an item stands for: of a class with descendants the choice between them, of
any other type its own. -/
inductive Designates (t : Table) : Atom → String → Prop where
  | choice {c : Class} (hc : c ∈ t.classes) (h : c.descendants ≠ []) :
      Designates t (.named c.name) (c.name ++ "_choice")
  | object {c : Class} (hc : c ∈ t.classes) (h : c.descendants = []) :
      Designates t (.named c.name) c.name
  | plain {s : NamedType} (hs : s ∈ t.types) (h : s.class? = none) :
      Designates t (.named s.name) s.name

end Schema

namespace Table.Sound

variable {key : String} {t : Table} (h : t.Sound key)

include h

theorem exists_class_of_interface? {name : String} (hname : (t.interface? name).isSome = true) :
    ∃ c ∈ t.classes, c.name = name ∧ c.descendants ≠ [] := by
  obtain ⟨i, hi⟩ := Option.isSome_iff_exists.mp hname
  obtain ⟨c, hc, hcname⟩ := h.interfaces_declared i (List.mem_of_find?_eq_some hi)
  have heq : c.name = name := hcname.trans (name_of_interface? hi)
  exact ⟨c, hc, heq, (h.classes c hc).interface_iff.mp (heq ▸ hname)⟩

/-- Only a class has an interface. -/
theorem interface?_of_class?_eq_none {s : NamedType} (hs : s ∈ t.types) (hclass : s.class? = none) :
    ¬(t.interface? s.name).isSome = true := by
  intro hsome
  obtain ⟨c, hc, hname, -⟩ := h.exists_class_of_interface? hsome
  have heq : NamedType.classType c = s :=
    List.inj_on_of_nodup_map h.names_nodup (mem_classes.mp hc) hs hname
  subst heq
  cases hclass

theorem designates_iff {name other : String} (hname : name ∈ t.types.map (·.name)) :
    Schema.Designates t (.named name) other ↔
      other = if (t.interface? name).isSome then Schema.choiceName name else name := by
  constructor
  · intro hdesignates
    cases hdesignates with
    | choice hc hdescendants =>
      rw [if_pos ((h.classes _ hc).interface_iff.mpr hdescendants)]
      rfl
    | object hc hdescendants =>
      exact (if_neg fun hsome => (h.classes _ hc).interface_iff.mp hsome hdescendants).symm
    | plain hs hclass => exact (if_neg (h.interface?_of_class?_eq_none hs hclass)).symm
  · -- a class has an interface iff it has descendants, and no other type has one
    rintro rfl
    split
    · next hsome =>
      obtain ⟨c, hc, rfl, hdescendants⟩ := h.exists_class_of_interface? hsome
      exact .choice hc hdescendants
    · next hnone =>
      obtain ⟨s, hs, rfl⟩ := List.mem_map.mp hname
      cases hclass : s.class? with
      | none => exact .plain hs hclass
      | some c =>
        cases s with
        | enumeration | constrained => cases hclass
        | classType c =>
          have hc := mem_classes.mpr hs
          refine .object hc ?_
          by_contra hdescendants
          exact hnone ((h.classes c hc).interface_iff.mpr hdescendants)

/-- **The references in the schema of a field** are to the definition that its item stands for. -/
theorem refersTo_ofField_iff {type : FieldType Atom} (hknows : t.Knows type) {target : String} :
    (Json.object (Schema.ofField t type)).RefersTo target ↔
      ∃ name, Schema.Designates t type.item name ∧ target = "#/$defs/" ++ name := by
  rw [Schema.refersTo_ofField_iff]
  cases hitem : type.item with
  | primitive kind =>
    refine iff_of_false (Schema.not_refersTo_ofPrimitive kind) ?_
    rintro ⟨name, hdesignates, -⟩
    cases hdesignates
  | named name =>
    simp only [h.designates_iff (hknows name hitem).1, exists_eq_left, Schema.ofAtom]
    split <;> exact Schema.refersTo_reference_iff

end Table.Sound

/-! ## Schemas of classes -/

namespace Schema

/-- The schema of the property `name` in the schema of a class. -/
def property? (schema : Json.Members) (name : String) : Option Json :=
  (schema.get? "properties").bind (·.get? name)

/-- The only value that a schema allows for the property `name`, where there is only one. -/
def const? (schema : Json.Members) (name : String) : Option Json :=
  (property? schema name).bind (·.get? "const")

/-- An object has every property that a schema requires, and the value that it asks for where it
asks for one. -/
structure Meets (schema object : Json.Members) : Prop where
  required : ∀ name ∈ requiredNames schema, name ∈ object.keys
  const : ∀ name value constant, object.get? name = some value →
    const? schema name = some constant → value = constant

/-- Schemas that require a property and ask for different values of it have no object in common. -/
theorem apart_of_const?_ne {first second object : Json.Members} {name : String} {a b : Json}
    (hrequired : name ∈ requiredNames first) (ha : const? first name = some a)
    (hb : const? second name = some b) (hne : a ≠ b) :
    ¬(Meets first object ∧ Meets second object) := by
  rintro ⟨hfirst, hsecond⟩
  cases hvalue : object.get? name with
  | none => exact Json.Members.get?_eq_none_iff.mp hvalue (hfirst.required name hrequired)
  | some value =>
    exact hne ((hfirst.const name value a hvalue ha).symm.trans
      (hsecond.const name value b hvalue hb))

theorem property?_ofClass (t : Table) (key name : String) (p : ClassPlan) :
    property? (ofClass t key p) name = (properties t key p).get? name := by
  unfold property? ofClass
  rw [get?_withDescription (by decide)]
  rfl

/-- A class refers to what the types of its properties refer to. -/
theorem exists_member_of_refersTo {t : Table} {key target : String} {p : ClassPlan}
    (h : (Json.object (ofClass t key p)).RefersTo target) :
    ∃ m ∈ p.members, (Json.object (ofField t m.property.type)).RefersTo target := by
  rw [ofClass, refersTo_withDescription_iff] at h
  -- of the members of the schema only `properties` can refer to anything
  have hproperties : (Json.object (properties t key p)).RefersTo target := by
    rw [Json.refersTo_append_iff, Json.refersTo_append_iff] at h
    rcases h with (h | h) | h
    · simpa using h
    · split at h <;> simp at h
    · simp at h
  obtain ⟨m, hm, h⟩ := Json.refersTo_object_iff.mp hproperties
  -- it is the property of a member, for the discriminator has a constant
  rcases List.mem_append.mp (Json.Members.mem_of_mem_ofList hm) with hm | hm
  · obtain ⟨member, hmember, rfl⟩ := List.mem_map.mp hm
    rcases h with h | h
    · cases (Prod.mk.inj h).2
    · exact ⟨member, hmember, refersTo_withDescription_iff.mp h⟩
  · split at hm
    · rw [List.mem_singleton.mp hm] at h
      simp at h
    · cases hm

end Schema

namespace Codec.ClassPlan.Plans

variable {t : Table} {key : String} {c : Class} {p : ClassPlan} (h : p.Plans t c)
  (hsound : c.Sound key t)

include h hsound

theorem get?_properties_eq_some_iff {name : String} {value : Json} :
    (Schema.properties t key p).get? name = some value ↔
      (name, value) ∈ Schema.propertyPairs t key p := by
  have hkeys : (Schema.properties t key p).keys.Nodup := Json.Members.keys_ofList_nodup _
  rw [Json.Members.get?_eq_some_iff hkeys, (h.properties_perm key hsound).mem_iff]

theorem property?_of_mem {q : Property} (hq : q ∈ c.properties) :
    Schema.property? (Schema.ofClass t key p) (Name.camel q.name)
      = some (.object (Schema.withDescription q.description (Schema.ofField t q.type))) := by
  rw [Schema.property?_ofClass, h.get?_properties_eq_some_iff hsound]
  obtain ⟨m, hm, hplans⟩ := exists_of_mem_forall₂ h.members hq
  refine List.mem_append_left _ (List.mem_map.mpr ⟨m, hm, ?_⟩)
  rw [hplans.wire_eq, hplans.property_eq]

theorem const?_of_isDiscriminated (hd : t.isDiscriminated c.name = true) :
    Schema.const? (Schema.ofClass t key p) key = some (.text (Name.capital c.name)) := by
  have hproperty : (Schema.properties t key p).get? key
      = some (.object [("const", .text (Name.capital c.name))]) := by
    have hname : p.name = c.name := congrArg Class.name h.type_eq
    rw [h.get?_properties_eq_some_iff hsound, Schema.propertyPairs, h.isDiscriminated_eq,
      if_pos hd, hname]
    exact List.mem_append_right _ (List.mem_singleton.mpr rfl)
  rw [Schema.const?, Schema.property?_ofClass, hproperty]
  rfl

omit hsound in
theorem mem_requiredNames_of_isDiscriminated (hd : t.isDiscriminated c.name = true) :
    key ∈ Schema.requiredNames (Schema.ofClass t key p) := by
  rw [Schema.requiredNames_ofClass, h.mem_required_iff]
  refine .inr ?_
  rw [Table.discriminatorOf, if_pos hd]
  exact List.mem_singleton.mpr rfl

end Codec.ClassPlan.Plans

/-! ## Definitions -/

namespace Schema

section Definitions

variable {t : Table} {key : String} {snippets : Snippets} {plan : Plan}
  (hplan : Plan.of t = .ok plan) (hsilent : (definitions plan key snippets).2 = [])

include hplan hsilent

/-- A definition is that of a type or of an interface. -/
theorem mem_definitions {m : String × Json} (hm : m ∈ (definitions plan key snippets).1) :
    (∃ s ∈ t.types, s.name = m.1 ∧ Describes t key snippets s m.2)
      ∨ ∃ i ∈ t.interfaces, choiceOf i = m := by
  obtain ⟨pairs, hdefs, hpairs⟩ := exists_pairs_of_silent hplan hsilent
  rw [hdefs] at hm
  rcases List.mem_append.mp (Json.Members.mem_of_mem_ofList hm) with hm | hm
  · obtain ⟨s, hs, hname, hdescribes⟩ := exists_of_mem_forall₂ hpairs.flip hm
    exact .inl ⟨s, List.mem_of_mem_filter hs, hname.symm, hdescribes⟩
  · exact .inr (List.mem_map.mp hm)

/-- The definitions of a schema are the only part of it that refers to anything. -/
theorem exists_definition_of_refersTo {target : String}
    (h : (build plan key snippets).1.RefersTo target) :
    ∃ m ∈ (definitions plan key snippets).1, m.2.RefersTo target := by
  have hdefs : (Json.object (definitions plan key snippets).1).RefersTo target := by
    unfold build at h
    rw [Json.refersTo_append_iff, Json.refersTo_append_iff] at h
    rcases h with (h | h) | h
    · simp at h
    · cases hdescription : plan.table.description <;> simp [hdescription] at h
    · simpa using h
  obtain ⟨m, hm, rfl | hrefers⟩ := Json.refersTo_object_iff.mp hdefs
  · -- a definition is an object, whatever its name is
    rcases mem_definitions hplan hsilent hm with ⟨s, -, -, hdescribes⟩ | ⟨i, -, heq⟩
    · cases hdescribes
    · cases (Prod.mk.inj heq).2
  · exact ⟨m, hm, hrefers⟩

theorem mem_keys_of_isDefined {s : NamedType} (hs : s ∈ t.types) (hdefined : s.isDefined = true) :
    s.name ∈ (definitions plan key snippets).1.keys := by
  obtain ⟨pairs, hdefs, hpairs⟩ := exists_pairs_of_silent hplan hsilent
  obtain ⟨d, hd, hname, -⟩ := exists_of_mem_forall₂ hpairs (List.mem_filter.mpr ⟨hs, hdefined⟩)
  rw [hdefs, Json.Members.mem_keys_ofList, ← hname]
  exact List.mem_map_of_mem (List.mem_append_left _ hd)

theorem mem_keys_of_interface {i : Interface} (hi : i ∈ t.interfaces) :
    choiceName i.name ∈ (definitions plan key snippets).1.keys := by
  obtain ⟨pairs, hdefs, -⟩ := exists_pairs_of_silent hplan hsilent
  rw [hdefs, Json.Members.mem_keys_ofList]
  exact List.mem_map_of_mem (List.mem_append_right pairs (List.mem_map_of_mem hi))

end Definitions

/-! ## References that lead to a definition -/

/-- Every reference in a value leads to one of the definitions. -/
def Leads (defs : Json.Members) (value : Json) : Prop :=
  ∀ target, value.RefersTo target → ∃ name ∈ defs.keys, target = "#/$defs/" ++ name

/-- The definition of a handwritten class is its snippet. -/
structure IsSnippet (t : Table) (snippets : Snippets) (m : String × Json) : Prop where
  handwritten : ∃ c ∈ t.classes, c.name = m.1 ∧ c.isHandwritten = true
  snippet : ∃ members, ofSnippet snippets m.1 = .ok members ∧ m.2 = .object members

section Leading

variable {t : Table} {wireKey key : String} {snippets : Snippets} {plan : Plan}
  (h : t.Linked wireKey) (hplan : Plan.of t = .ok plan)
  (hsilent : (definitions plan key snippets).2 = [])

include h hplan hsilent

/-- What an item stands for is defined: a class without a definition has an interface. -/
theorem mem_keys_of_designates {atom : Atom} {name : String} (hname : Designates t atom name) :
    name ∈ (definitions plan key snippets).1.keys := by
  cases hname with
  | @choice c hc hdescendants =>
    obtain ⟨i, hi⟩ := Option.isSome_iff_exists.mp
      ((h.sound.classes c hc).interface_iff.mpr hdescendants)
    rw [← Table.name_of_interface? hi]
    exact mem_keys_of_interface hplan hsilent (List.mem_of_find?_eq_some hi)
  | @object c hc hdescendants =>
    have hconcrete : c.isConcrete = true := by
      by_contra habstract
      have hsound := h.sound.classes c hc
      exact hsound.interface_iff.mp (hsound.interface_of_abstract (by simpa using habstract))
        hdescendants
    exact mem_keys_of_isDefined hplan hsilent (Table.mem_classes.mp hc) hconcrete
  | @plain s hs hclass =>
    refine mem_keys_of_isDefined hplan hsilent hs ?_
    cases s with
    | enumeration | constrained => rfl
    | classType => cases hclass

theorem leads_ofClass {c : Class} (hc : c ∈ t.classes) {p : ClassPlan} (hp : p.Plans t c) :
    Leads (definitions plan key snippets).1 (.object (ofClass t key p)) := by
  intro target hrefers
  obtain ⟨m, hm, hrefers⟩ := exists_member_of_refersTo hrefers
  obtain ⟨q, hq, hplans⟩ := exists_of_mem_forall₂ hp.members.flip hm
  rw [hplans.property_eq, h.sound.refersTo_ofField_iff
    ((h.sound.classes c hc).properties_known q hq)] at hrefers
  obtain ⟨name, hdesignates, htarget⟩ := hrefers
  exact ⟨name, mem_keys_of_designates h hplan hsilent hdesignates, htarget⟩

theorem leads_choiceOf {i : Interface} (hi : i ∈ t.interfaces) :
    Leads (definitions plan key snippets).1 (choiceOf i).2 := by
  intro target hrefers
  have hitem : ∃ value ∈ i.implementers.map fun name => Json.object (reference name),
      value.RefersTo target := by
    simpa [choiceOf, Json.refersTo_array_iff] using hrefers
  obtain ⟨value, hvalue, hrefers⟩ := hitem
  obtain ⟨name, hname, rfl⟩ := List.mem_map.mp hvalue
  -- an implementer is concrete, so it has a definition
  obtain ⟨c, hfind, hconcrete⟩ := h.closed.implementers i hi name hname
  have hcname : (NamedType.classType c).name = name := by simpa using List.find?_some hfind
  refine ⟨name, ?_, refersTo_reference_iff.mp hrefers⟩
  rw [← hcname]
  exact mem_keys_of_isDefined hplan hsilent (List.mem_of_find?_eq_some hfind) hconcrete

theorem leads_of_mem_definitions {m : String × Json}
    (hm : m ∈ (definitions plan key snippets).1) :
    IsSnippet t snippets m ∨ Leads (definitions plan key snippets).1 m.2 := by
  rcases mem_definitions hplan hsilent hm with ⟨s, hs, hname, hdescribes⟩ | ⟨i, hi, rfl⟩
  · obtain ⟨name, definition⟩ := m
    cases hdescribes with
    | enumeration e =>
      refine .inr fun target hrefers => ?_
      rw [refersTo_withDescription_iff] at hrefers
      simp at hrefers
    | constrained c =>
      refine .inr fun target hrefers => ?_
      rw [refersTo_withDescription_iff] at hrefers
      exact absurd hrefers (not_refersTo_ofPrimitive c.constrainee)
    | generated hhand hp =>
      exact .inr (leads_ofClass h hplan hsilent (Table.mem_classes.mpr hs)
        (ClassPlan.plans_of_eq_ok hp))
    | @handwritten c schema hhand hsnippet =>
      obtain rfl : c.name = name := hname
      exact .inl ⟨⟨c, Table.mem_classes.mpr hs, rfl, hhand⟩, schema, hsnippet, rfl⟩
  · exact .inr (leads_choiceOf h hplan hsilent hi)

end Leading

/-! ## Schemas that resolve -/

/-- What the references of a schema lead to, and what tells implementers apart. -/
structure Resolved (plan : Plan) (key : String) (snippets : Snippets) (schema : Json)
    (defs : Json.Members) : Prop where
  /-- A schema refers to nothing outside of its definitions. -/
  within : ∀ target, schema.RefersTo target → ∃ m ∈ defs, m.2.RefersTo target
  definitions : ∀ m ∈ defs, IsSnippet plan.table snippets m ∨ Leads defs m.2
  classes : ∀ p ∈ plan.classes, Leads defs (.object (ofClass plan.table key p))
  choices : ∀ i ∈ plan.table.interfaces, Leads defs (choiceOf i).2
  /-- A property refers to the choice of a class with descendants, and to any other type itself. -/
  properties : ∀ p ∈ plan.classes, ∀ q ∈ p.type.properties, ∃ field,
    property? (ofClass plan.table key p) (Name.camel q.name) = some field
      ∧ ∀ target, field.RefersTo target ↔
        ∃ name, Designates plan.table q.type.item name ∧ target = "#/$defs/" ++ name
  /-- No object is of two implementers of an interface. -/
  apart : ∀ i ∈ plan.table.interfaces, ∀ p ∈ plan.classes, ∀ q ∈ plan.classes,
    p.name ∈ i.implementers → q.name ∈ i.implementers → p.name ≠ q.name →
      key ∈ requiredNames (ofClass plan.table key p)
        ∧ key ∈ requiredNames (ofClass plan.table key q)
        ∧ (∃ a b, const? (ofClass plan.table key p) key = some a
          ∧ const? (ofClass plan.table key q) key = some b ∧ a ≠ b)
        ∧ ∀ object, ¬(Meets (ofClass plan.table key p) object
          ∧ Meets (ofClass plan.table key q) object)

/-- Two implementers of an interface carry the discriminator with different values. -/
theorem apart_of_implements {t : Table} {key : String} (h : t.Sound key) {i : Interface}
    (hi : i ∈ t.interfaces) {c d : Class} (hc : c ∈ t.classes) (hd : d ∈ t.classes)
    {p q : ClassPlan} (hp : p.Plans t c) (hq : q.Plans t d) (hcname : c.name ∈ i.implementers)
    (hdname : d.name ∈ i.implementers) (hne : c.name ≠ d.name) :
    key ∈ requiredNames (ofClass t key p) ∧ key ∈ requiredNames (ofClass t key q)
      ∧ (∃ a b, const? (ofClass t key p) key = some a ∧ const? (ofClass t key q) key = some b
        ∧ a ≠ b)
      ∧ ∀ object, ¬(Meets (ofClass t key p) object ∧ Meets (ofClass t key q) object) := by
  have hcarries : ∀ name ∈ i.implementers, t.isDiscriminated name = true := fun name hname =>
    List.any_eq_true.mpr ⟨i, hi, List.contains_iff_mem.mpr hname⟩
  have hconst := hp.const?_of_isDiscriminated (h.classes c hc) (hcarries _ hcname)
  have hconst' := hq.const?_of_isDiscriminated (h.classes d hd) (hcarries _ hdname)
  have hvalue : Json.text (Name.capital c.name) ≠ .text (Name.capital d.name) := by
    intro heq
    -- capital names tell the types of a table apart
    have hsame := List.inj_on_of_nodup_map h.capitals_distinct (Table.mem_classes.mp hc)
      (Table.mem_classes.mp hd) (Json.text.inj heq)
    exact hne (congrArg NamedType.name hsame)
  have hrequired : key ∈ requiredNames (ofClass t key p) :=
    hp.mem_requiredNames_of_isDiscriminated (hcarries _ hcname)
  exact ⟨hrequired, hq.mem_requiredNames_of_isDiscriminated (hcarries _ hdname),
    ⟨_, _, hconst, hconst', hvalue⟩,
    fun object => apart_of_const?_ne hrequired hconst hconst' hvalue⟩

theorem resolved_of_silent {t : Table} {key : String} {snippets : Snippets} {plan : Plan}
    (h : t.Linked key) (hplan : Plan.of t = .ok plan)
    (hsilent : (definitions plan key snippets).2 = []) :
    Resolved plan key snippets (build plan key snippets).1
      (definitions plan key snippets).1 := by
  have hplans := Plan.plans_of_eq_ok hplan
  constructor
  case within => exact fun target => exists_definition_of_refersTo hplan hsilent
  case definitions =>
    rw [hplans.table_eq]
    exact fun m hm => leads_of_mem_definitions h hplan hsilent hm
  case classes =>
    intro p hp
    obtain ⟨c, hc, hclass⟩ := hplans.exists_class hp
    rw [hplans.table_eq]
    exact leads_ofClass h hplan hsilent hc hclass
  case choices =>
    rw [hplans.table_eq]
    exact fun i hi => leads_choiceOf h hplan hsilent hi
  case properties =>
    intro p hp q hq
    obtain ⟨c, hc, hclass⟩ := hplans.exists_class hp
    have hsound := h.sound.classes c hc
    rw [hclass.type_eq] at hq
    rw [hplans.table_eq]
    refine ⟨_, hclass.property?_of_mem hsound hq, fun target => ?_⟩
    rw [refersTo_withDescription_iff]
    exact h.sound.refersTo_ofField_iff (hsound.properties_known q hq)
  case apart =>
    intro i hi p hp q hq hpname hqname hne
    obtain ⟨c, hc, hclass⟩ := hplans.exists_class hp
    obtain ⟨d, hd, hclass'⟩ := hplans.exists_class hq
    have hcname : p.name = c.name := congrArg Class.name hclass.type_eq
    have hdname : q.name = d.name := congrArg Class.name hclass'.type_eq
    rw [hplans.table_eq] at hi ⊢
    rw [hcname] at hpname hne
    rw [hdname] at hqname hne
    exact apart_of_implements h.sound hi hc hd hclass hclass' hpname hqname hne

end Schema

/-- **The references of a generated schema lead to definitions**, those in snippets apart, and no
object is of two implementers of an interface. -/
theorem Model.schema_resolves {o : Options} {value : Json} {table : Table}
    (h : compile value o = .ok table) {snippets : Snippets} {files : List File}
    (hfiles : generate table .jsonschema o snippets = .ok (.ok files)) :
    ∃ plan defs, Plan.of table = .ok plan
      ∧ files = [⟨"schema.json",
        (Schema.build plan o.discriminatorKey snippets).1.pretty o.indent ++ "\n"⟩]
      ∧ (Schema.build plan o.discriminatorKey snippets).1.get? "$defs" = some (.object defs)
      ∧ Schema.Resolved plan o.discriminatorKey snippets
        (Schema.build plan o.discriminatorKey snippets).1 defs := by
  obtain ⟨plan, hplan, hgenerate⟩ := map_eq_ok_iff.mp hfiles
  obtain ⟨hsilent, rfl⟩ := Codec.Plan.generate_eq_ok hgenerate
  exact ⟨plan, _, hplan, rfl, Schema.get?_build plan,
    Schema.resolved_of_silent (Model.linked_of_load h) hplan hsilent⟩

/-- Vessels of three kinds, one of them handwritten and one with a descendant of its own, and a
class that refers to all of them. -/
def harbor : Json :=
  .object [("name", .text "harbor"), ("types", .array [
    .object [("kind", .text "enumeration"), ("name", .text "flag"), ("literals", .array [
      .object [("name", .text "red"), ("value", .text "r")]])],
    .object [("kind", .text "abstractClass"), ("name", .text "vessel"),
      ("properties", .array [.object [("name", .text "flag"), ("type", .text "Optional[flag]")]])],
    .object [("kind", .text "concreteClass"), ("name", .text "barge"),
      ("inheritances", Json.texts ["vessel"])],
    .object [("kind", .text "concreteClass"), ("name", .text "tug_boat"),
      ("inheritances", Json.texts ["barge"])],
    .object [("kind", .text "concreteClass"), ("name", .text "raft"),
      ("inheritances", Json.texts ["vessel"]), ("implementationSpecific", .bool true)],
    .object [("kind", .text "concreteClass"), ("name", .text "pier"),
      ("properties", .array [
        .object [("name", .text "vessels"), ("type", .text "List[vessel]")],
        .object [("name", .text "barge"), ("type", .text "Optional[barge]")],
        .object [("name", .text "tug_boat"), ("type", .text "tug_boat")]])]])]

/-- A snippet that refers to a definition that nobody makes. -/
def harborSnippets : Snippets :=
  [(SnippetKey.schemaDefinition "raft", "\x7b\"$ref\": \"#/$defs/float\"\x7d")]

theorem harbor_resolves : ∃ table files, compile harbor {} = .ok table
    ∧ generate table .jsonschema {} harborSnippets = .ok (.ok files)
    ∧ ∃ plan defs, Plan.of table = .ok plan
      ∧ files = [⟨"schema.json",
        (Schema.build plan "modelType" harborSnippets).1.pretty "  " ++ "\n"⟩]
      ∧ (Schema.build plan "modelType" harborSnippets).1.get? "$defs" = some (.object defs)
      ∧ Schema.Resolved plan "modelType" harborSnippets
        (Schema.build plan "modelType" harborSnippets).1 defs := by
  have hready : ((compile harbor {}).toOption.any fun t =>
      (generate t .jsonschema {} harborSnippets).toOption.any (·.toOption.isSome)) = true := by
    decide +kernel
  obtain ⟨table, files, hcompile, hfiles⟩ := exists_files hready
  exact ⟨table, files, hcompile, hfiles, Model.schema_resolves hcompile hfiles⟩

end WireModel
