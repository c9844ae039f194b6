import Mathlib.Data.List.Forall2
import WireModel.Codec.Plan
import WireModel.Proofs.Identifier
import WireModel.Proofs.Tables

/-!
# Plans of sound tables

Making a plan is the only step of generation that can meet a fault. A sound table has none: its
names have words, its fields have types that the table knows, and its abstract classes have
interfaces. So **`Table.Sound.exists_plan`** gives every sound table a plan.

What is in a plan is said by relations between the parts of a table and those of its plan
(`Codec.Member.Plans` and so on up to `Codec.Plan.Plans`), so that generators are reasoned about
without the traversals that made the plan: **`Codec.Plan.plans_of_eq_ok`**.
-/

namespace WireModel

/-! ## Steps that may fail -/

section Steps

variable {ε α β : Type}

theorem bind_eq_ok_iff {x : Except ε α} {f : α → Except ε β} {b : β} :
    x >>= f = .ok b ↔ ∃ a, x = .ok a ∧ f a = .ok b := by
  cases x with
  | error e =>
    show Except.error e = .ok b ↔ _
    simp
  | ok a =>
    show f a = .ok b ↔ _
    simp

theorem bind_eq_error_iff {x : Except ε α} {f : α → Except ε β} {e : ε} :
    x >>= f = .error e ↔ x = .error e ∨ ∃ a, x = .ok a ∧ f a = .error e := by
  cases x with
  | error d =>
    show Except.error d = .error e ↔ _
    simp
  | ok a =>
    show f a = .error e ↔ _
    simp

theorem map_eq_ok_iff {x : Except ε α} {f : α → β} {b : β} :
    x.map f = .ok b ↔ ∃ a, x = .ok a ∧ f a = b := by
  cases x with
  | error e =>
    show Except.error e = .ok b ↔ _
    simp
  | ok a =>
    show Except.ok (f a) = .ok b ↔ _
    simp

/-- A traversal succeeds iff each step does. -/
theorem mapM_eq_ok_iff {f : α → Except ε β} {items : List α} {results : List β} :
    items.mapM f = .ok results ↔ List.Forall₂ (fun a b => f a = .ok b) items results := by
  induction items generalizing results with
  | nil =>
    rw [List.forall₂_nil_left_iff]
    show Except.ok [] = Except.ok results ↔ _
    rw [Except.ok.injEq, eq_comm]
  | cons a items ih =>
    rw [List.mapM_cons, bind_eq_ok_iff, List.forall₂_cons_left_iff]
    refine exists_congr fun b => ?_
    rw [bind_eq_ok_iff, ← exists_and_left]
    refine exists_congr fun bs => ?_
    rw [ih]
    show _ ∧ _ ∧ Except.ok (b :: bs) = Except.ok results ↔ _
    rw [Except.ok.injEq, eq_comm (a := b :: bs)]

theorem mapM_congr_left {f g : α → Except ε β} {items : List α} (h : ∀ a ∈ items, f a = g a) :
    items.mapM f = items.mapM g := by
  induction items with
  | nil => rfl
  | cons a items ih =>
    rw [List.mapM_cons, List.mapM_cons, h a List.mem_cons_self,
      ih fun x hx => h x (List.mem_cons_of_mem a hx)]

theorem exists_mapM_eq_ok {f : α → Except ε β} {items : List α}
    (h : ∀ a ∈ items, ∃ b, f a = .ok b) : ∃ results, items.mapM f = .ok results := by
  induction items with
  | nil => exact ⟨[], rfl⟩
  | cons a items ih =>
    obtain ⟨b, hb⟩ := h a List.mem_cons_self
    obtain ⟨bs, hbs⟩ := ih fun x hx => h x (List.mem_cons_of_mem a hx)
    exact ⟨b :: bs, mapM_eq_ok_iff.mpr (.cons hb (mapM_eq_ok_iff.mp hbs))⟩

end Steps

/-! ## Lists that go together -/

section Together

variable {α β γ : Type} {R : α → β → Prop} {as : List α} {bs : List β}

theorem map_eq_of_forall₂ {f : α → γ} {g : β → γ} (h : List.Forall₂ R as bs)
    (hfg : ∀ a b, R a b → g b = f a) : bs.map g = as.map f := by
  induction h with
  | nil => rfl
  | cons hab _ ih => rw [List.map_cons, List.map_cons, hfg _ _ hab, ih]

theorem map_filter_eq_of_forall₂ {p : α → Bool} {q : β → Bool} {f : α → γ} {g : β → γ}
    (h : List.Forall₂ R as bs) (hpq : ∀ a b, R a b → q b = p a) (hfg : ∀ a b, R a b → g b = f a) :
    (bs.filter q).map g = (as.filter p).map f := by
  induction h with
  | nil => rfl
  | @cons a b as bs hab _ ih =>
    rw [List.filter_cons, List.filter_cons, hpq a b hab]
    cases p a with
    | false => exact ih
    | true => exact congrArg₂ List.cons (hfg a b hab) ih

theorem flatMap_eq_of_forall₂ {f : α → List γ} {g : β → List γ} (h : List.Forall₂ R as bs)
    (hfg : ∀ a b, R a b → g b = f a) : bs.flatMap g = as.flatMap f := by
  rw [List.flatMap_def, List.flatMap_def, map_eq_of_forall₂ h hfg]

theorem exists_of_mem_forall₂ (h : List.Forall₂ R as bs) {a : α} (ha : a ∈ as) :
    ∃ b ∈ bs, R a b := by
  induction h with
  | nil => cases ha
  | cons hab _ ih =>
    rcases List.mem_cons.mp ha with rfl | ha
    · exact ⟨_, List.mem_cons_self, hab⟩
    · obtain ⟨b, hb, hR⟩ := ih ha
      exact ⟨b, List.mem_cons_of_mem _ hb, hR⟩

end Together

namespace Codec

/-! ## What a plan says

A part of a plan *plans* a part of the table if it holds that part and what belongs to it. -/

theorem camelOf_of_isIdentifier {name : String} (h : Name.isIdentifier name = true) :
    camelOf name = .ok (Name.camel name) := by
  have hne := Name.words_ne_nil h
  unfold camelOf Name.camel?
  rw [if_neg (by simpa using hne)]
  rfl

theorem eq_camel_of_camelOf {name wire : String} (h : camelOf name = .ok wire) :
    wire = Name.camel name := by
  unfold camelOf Name.camel? at h
  split at h
  · cases h
  · cases h
    rfl

def Stem.spell (name : String) : Stem := ⟨name, Name.camel name⟩

def InterfacePlan.spell (i : Interface) : InterfacePlan :=
  ⟨i.name, i.implementers.map Stem.spell⟩

structure Member.Plans (t : Table) (p : Property) (m : Member) : Prop where
  property_eq : m.property = p
  wire_eq : m.wire = Name.camel p.name
  strategy_eq : t.strategy p.type = .ok m.strategy

structure Parameter.Plans (t : Table) (a : Argument) (p : Parameter) : Prop where
  argument_eq : p.argument = a
  wire_eq : p.wire = Name.camel a.name
  strategy_eq : t.strategy a.type = .ok p.strategy

structure ClassPlan.Plans (t : Table) (c : Class) (p : ClassPlan) : Prop where
  type_eq : p.type = c
  stem_eq : p.stem = .spell c.name
  interface_eq : p.interface = (t.interface? c.name).map InterfacePlan.spell
  isDiscriminated_eq : p.isDiscriminated = t.isDiscriminated c.name
  members : List.Forall₂ (Member.Plans t) c.properties p.members
  parameters : List.Forall₂ (Parameter.Plans t) c.arguments p.parameters

inductive TypePlan.Plans (t : Table) : NamedType → TypePlan → Prop where
  | enumeration (e : Enumeration) : Plans t (.enumeration e) (.enumeration ⟨e, .spell e.name⟩)
  | constrained (c : Constrained) : Plans t (.constrained c) (.constrained c)
  | classType {c : Class} {p : ClassPlan} (h : p.Plans t c) :
      Plans t (.classType c) (.classType p)

structure Plan.Plans (t : Table) (plan : Plan) : Prop where
  table_eq : plan.table = t
  types : List.Forall₂ (TypePlan.Plans t) t.types plan.types

section Inversion

variable {t : Table}

theorem Stem.eq_spell_of_eq_ok {name : String} {stem : Stem} (h : Stem.of name = .ok stem) :
    stem = .spell name := by
  obtain ⟨wire, hwire, rfl⟩ := map_eq_ok_iff.mp h
  rw [spell, eq_camel_of_camelOf hwire]

theorem Member.plans_of_eq_ok {p : Property} {m : Member} (h : Member.of t p = .ok m) :
    m.Plans t p := by
  obtain ⟨wire, hwire, h⟩ := bind_eq_ok_iff.mp h
  obtain ⟨strategy, hstrategy, h⟩ := bind_eq_ok_iff.mp h
  cases h
  exact ⟨rfl, eq_camel_of_camelOf hwire, hstrategy⟩

theorem Parameter.plans_of_eq_ok {a : Argument} {p : Parameter} (h : Parameter.of t a = .ok p) :
    p.Plans t a := by
  obtain ⟨wire, hwire, h⟩ := bind_eq_ok_iff.mp h
  obtain ⟨strategy, hstrategy, h⟩ := bind_eq_ok_iff.mp h
  cases h
  exact ⟨rfl, eq_camel_of_camelOf hwire, hstrategy⟩

theorem InterfacePlan.eq_spell_of_eq_ok {i : Interface} {p : InterfacePlan}
    (h : InterfacePlan.of i = .ok p) : p = .spell i := by
  obtain ⟨stems, hstems, h⟩ := bind_eq_ok_iff.mp h
  cases h
  have hspell := map_eq_of_forall₂ (f := Stem.spell) (g := id) (mapM_eq_ok_iff.mp hstems)
    fun _ _ => Stem.eq_spell_of_eq_ok
  rw [spell, ← hspell, List.map_id]

theorem InterfacePlan.eq_of_ofClass {c : Class} {p : Option InterfacePlan}
    (h : InterfacePlan.ofClass t c = .ok p) :
    p = (t.interface? c.name).map InterfacePlan.spell := by
  unfold InterfacePlan.ofClass at h
  split at h
  · next i hi =>
    obtain ⟨q, hq, rfl⟩ := map_eq_ok_iff.mp h
    rw [eq_spell_of_eq_ok hq, hi, Option.map_some]
  · next hi =>
    cases h
    rw [hi, Option.map_none]

theorem ClassPlan.plans_of_eq_ok {c : Class} {p : ClassPlan} (h : ClassPlan.of t c = .ok p) :
    p.Plans t c := by
  obtain ⟨stem, hstem, h⟩ := bind_eq_ok_iff.mp h
  obtain ⟨interface, hinterface, h⟩ := bind_eq_ok_iff.mp h
  obtain ⟨members, hmembers, h⟩ := bind_eq_ok_iff.mp h
  obtain ⟨parameters, hparameters, h⟩ := bind_eq_ok_iff.mp h
  cases h
  exact
    { type_eq := rfl
      stem_eq := Stem.eq_spell_of_eq_ok hstem
      interface_eq := InterfacePlan.eq_of_ofClass hinterface
      isDiscriminated_eq := rfl
      members := (mapM_eq_ok_iff.mp hmembers).imp fun _ _ => Member.plans_of_eq_ok
      parameters := (mapM_eq_ok_iff.mp hparameters).imp fun _ _ => Parameter.plans_of_eq_ok }

theorem TypePlan.plans_of_eq_ok {s : NamedType} {p : TypePlan} (h : TypePlan.of t s = .ok p) :
    p.Plans t s := by
  cases s with
  | enumeration e =>
    obtain ⟨stem, hstem, rfl⟩ := map_eq_ok_iff.mp h
    rw [Stem.eq_spell_of_eq_ok hstem]
    exact .enumeration e
  | constrained c =>
    cases h
    exact .constrained c
  | classType c =>
    obtain ⟨plan, hplan, rfl⟩ := map_eq_ok_iff.mp h
    exact .classType (ClassPlan.plans_of_eq_ok hplan)

/-- **A plan that is made plans its table.** -/
theorem Plan.plans_of_eq_ok {plan : Plan} (h : Plan.of t = .ok plan) : plan.Plans t := by
  obtain ⟨types, htypes, rfl⟩ := map_eq_ok_iff.mp h
  exact ⟨rfl, (mapM_eq_ok_iff.mp htypes).imp fun _ _ => TypePlan.plans_of_eq_ok⟩

end Inversion

end Codec

theorem Table.name_of_interface? {t : Table} {name : String} {i : Interface}
    (h : t.interface? name = some i) : i.name = name := by
  simpa using List.find?_some h

/-- Generated code has something for the type itself, and not only for its interface. -/
def NamedType.isEmitted : NamedType → Bool
  | .enumeration _ => true
  | .constrained _ => false
  | .classType c => c.isConcrete

/-! ## Sound tables have plans -/

theorem Table.mem_classes {t : Table} {c : Class} : c ∈ t.classes ↔ .classType c ∈ t.types := by
  unfold classes
  rw [List.mem_filterMap]
  constructor
  · rintro ⟨s, hs, hclass⟩
    cases s <;> cases hclass
    exact hs
  · intro hc
    exact ⟨_, hc, rfl⟩

theorem Codec.Plan.Plans.exists_of_mem_classes {t : Table} {plan : Plan} (h : plan.Plans t)
    {c : Class} (hc : c ∈ t.classes) : ∃ p ∈ plan.classes, p.Plans t c := by
  obtain ⟨q, hq, hplans⟩ := exists_of_mem_forall₂ h.types (Table.mem_classes.mp hc)
  cases hplans with
  | classType hp => exact ⟨_, List.mem_filterMap.mpr ⟨_, hq, rfl⟩, hp⟩

theorem Codec.Plan.Plans.exists_of_mem_concreteClasses {t : Table} {plan : Plan}
    (h : plan.Plans t) {c : Class} (hc : c ∈ t.concreteClasses) :
    ∃ p ∈ plan.concreteClasses, p.Plans t c := by
  obtain ⟨hclass, hconcrete⟩ := List.mem_filter.mp hc
  obtain ⟨p, hp, hplans⟩ := h.exists_of_mem_classes hclass
  refine ⟨p, List.mem_filter.mpr ⟨hp, ?_⟩, hplans⟩
  rw [hplans.type_eq]
  exact hconcrete

theorem Codec.Plan.mem_classes {plan : Plan} {p : ClassPlan} :
    p ∈ plan.classes ↔ .classType p ∈ plan.types := by
  unfold classes
  rw [List.mem_filterMap]
  constructor
  · rintro ⟨q, hq, hclass⟩
    cases q <;> cases hclass
    exact hq
  · intro hp
    exact ⟨_, hp, rfl⟩

theorem Codec.Plan.Plans.exists_class {t : Table} {plan : Plan} (h : plan.Plans t)
    {p : ClassPlan} (hp : p ∈ plan.classes) : ∃ c ∈ t.classes, p.Plans t c := by
  obtain ⟨s, hs, hplans⟩ := exists_of_mem_forall₂ h.types.flip (mem_classes.mp hp)
  cases hplans with
  | classType hp => exact ⟨_, Table.mem_classes.mpr hs, hp⟩

namespace Table.Sound

open Codec

variable {key : String} {t : Table} (h : t.Sound key)

include h

theorem exists_find? {name : String} (hname : name ∈ t.types.map (·.name)) :
    ∃ s ∈ t.types, t.find? name = some s := by
  obtain ⟨s, hs, rfl⟩ := List.mem_map.mp hname
  exact ⟨s, hs, (find?_key_eq_some_iff h.names_nodup).mpr ⟨hs, rfl⟩⟩

/-- Every class can be carried: an abstract one has an interface. -/
theorem exists_classCarrier {c : Class} (hc : c ∈ t.classes) :
    ∃ carrier, t.classCarrier c = .ok carrier := by
  unfold classCarrier
  cases hinterface : t.interface? c.name with
  | some i => exact ⟨_, rfl⟩
  | none =>
    have hconcrete : c.isConcrete = true := by
      by_contra habstract
      have hsome := (h.classes c hc).interface_of_abstract (by simpa using habstract)
      rw [hinterface] at hsome
      cases hsome
    exact ⟨_, if_pos hconcrete⟩

theorem exists_strategy {type : FieldType Atom} (hknows : t.Knows type) :
    ∃ strategy, t.strategy type = .ok strategy := by
  have hcarrier : ∃ carrier, t.carrier type.item = .ok carrier := by
    cases hitem : type.item with
    | primitive kind => exact ⟨_, rfl⟩
    | named name =>
      obtain ⟨s, hs, hfind⟩ := h.exists_find? (hknows name hitem).1
      simp only [carrier, hfind]
      cases s with
      | enumeration e => exact ⟨_, rfl⟩
      | constrained c => exact ⟨_, rfl⟩
      | classType c => exact h.exists_classCarrier (mem_classes.mpr hs)
  obtain ⟨carrier, hcarrier⟩ := hcarrier
  exact ⟨_, map_eq_ok_iff.mpr ⟨carrier, hcarrier, rfl⟩⟩

theorem isIdentifier_of_mem_classes {c : Class} (hc : c ∈ t.classes) :
    Name.isIdentifier c.name = true :=
  h.identified (.classType c) (mem_classes.mp hc)

theorem stem_of_mem_classes {c : Class} (hc : c ∈ t.classes) :
    Stem.of c.name = .ok (.spell c.name) :=
  map_eq_ok_iff.mpr ⟨_, camelOf_of_isIdentifier (h.isIdentifier_of_mem_classes hc), rfl⟩

theorem exists_interfacePlan (c : Class) : ∃ p, InterfacePlan.ofClass t c = .ok p := by
  unfold InterfacePlan.ofClass
  cases hinterface : t.interface? c.name with
  | none => exact ⟨_, rfl⟩
  | some i =>
    have hi := List.mem_of_find?_eq_some hinterface
    have hstems : ∃ stems, i.implementers.mapM Stem.of = .ok stems := by
      refine exists_mapM_eq_ok fun name hname => ?_
      obtain ⟨x, hx, rfl⟩ := h.implementers_declared i hi name hname
      exact ⟨_, h.stem_of_mem_classes hx⟩
    obtain ⟨stems, hstems⟩ := hstems
    exact ⟨_, map_eq_ok_iff.mpr ⟨_, bind_eq_ok_iff.mpr ⟨stems, hstems, rfl⟩, rfl⟩⟩

theorem exists_classPlan {c : Class} (hc : c ∈ t.classes) : ∃ p, ClassPlan.of t c = .ok p := by
  have hsound := h.classes c hc
  have hproperty : ∀ p ∈ c.properties, ∃ m, Member.of t p = .ok m := by
    intro p hp
    obtain ⟨strategy, hstrategy⟩ := h.exists_strategy (hsound.properties_known p hp)
    exact ⟨_, bind_eq_ok_iff.mpr ⟨_, camelOf_of_isIdentifier (hsound.properties_identified p hp),
      bind_eq_ok_iff.mpr ⟨strategy, hstrategy, rfl⟩⟩⟩
  have hargument : ∀ a ∈ c.arguments, ∃ p, Parameter.of t a = .ok p := by
    intro a ha
    -- an argument has the name of a property
    obtain ⟨p, hp, hname⟩ := List.mem_map.mp
      ((hsound.arguments_match a.name).mp (List.mem_map_of_mem ha))
    have hid := hsound.properties_identified p hp
    rw [hname] at hid
    obtain ⟨strategy, hstrategy⟩ := h.exists_strategy (hsound.arguments_known a ha)
    exact ⟨_, bind_eq_ok_iff.mpr ⟨_, camelOf_of_isIdentifier hid,
      bind_eq_ok_iff.mpr ⟨strategy, hstrategy, rfl⟩⟩⟩
  obtain ⟨interface, hinterface⟩ := h.exists_interfacePlan c
  obtain ⟨members, hmembers⟩ := exists_mapM_eq_ok hproperty
  obtain ⟨parameters, hparameters⟩ := exists_mapM_eq_ok hargument
  exact ⟨_, bind_eq_ok_iff.mpr ⟨_, h.stem_of_mem_classes hc,
    bind_eq_ok_iff.mpr ⟨interface, hinterface, bind_eq_ok_iff.mpr ⟨members, hmembers,
      bind_eq_ok_iff.mpr ⟨parameters, hparameters, rfl⟩⟩⟩⟩⟩

/-- **Every sound table has a plan.** -/
theorem exists_plan : ∃ plan, Plan.of t = .ok plan := by
  have htype : ∀ s ∈ t.types, ∃ p, TypePlan.of t s = .ok p := by
    intro s hs
    cases s with
    | enumeration e =>
      have hcamel : camelOf e.name = .ok (Name.camel e.name) :=
        camelOf_of_isIdentifier (h.identified (.enumeration e) hs)
      exact ⟨_, map_eq_ok_iff.mpr ⟨_, map_eq_ok_iff.mpr ⟨_, hcamel, rfl⟩, rfl⟩⟩
    | constrained c => exact ⟨_, rfl⟩
    | classType c =>
      obtain ⟨p, hp⟩ := h.exists_classPlan (mem_classes.mpr hs)
      exact ⟨_, map_eq_ok_iff.mpr ⟨p, hp, rfl⟩⟩
  obtain ⟨types, htypes⟩ := exists_mapM_eq_ok htype
  exact ⟨_, map_eq_ok_iff.mpr ⟨types, htypes, rfl⟩⟩

end Table.Sound

/-- What a fixed document is found to have planned. -/
theorem Model.exists_plan_of_eq_some {α : Type} {key : String} {value : Json}
    {f : Codec.Plan → α} {a : α}
    (h : (Model.load key value).toOption.bind (fun t => (Codec.Plan.of t).toOption.map f)
      = some a) :
    ∃ table plan, Model.load key value = .ok table ∧ Codec.Plan.of table = .ok plan
      ∧ f plan = a := by
  cases hload : Model.load key value with
  | error reported => rw [hload] at h; cases h
  | ok table =>
    rw [hload] at h
    cases hplan : Codec.Plan.of table with
    | error fault =>
      rw [Except.toOption, Option.bind_some, hplan] at h
      cases h
    | ok plan =>
      rw [Except.toOption, Option.bind_some, hplan] at h
      exact ⟨table, plan, rfl, hplan, Option.some.inj h⟩

end WireModel
