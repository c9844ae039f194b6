import WireModel.Proofs.Planning
import WireModel.TypeScript.TypesModule

/-!
# Names of the module of types

An enumeration and a concrete class are declared under the capital form of their name, and the
interface of a class under that form behind an `I`. The names come from types and from interfaces,
and loading checks them in two places: types against each other and against the reserved names, and
interfaces against types.

* Together the two checks keep all declarations apart (`Table.Sound.typeNames_nodup`).
* They do not keep them apart from the declarations that every module begins with. The reserved
  names are not compared with those of interfaces, so that the interface of a class `class` is a
  second `IClass`; and `T`, the parameter of the transformer, is not reserved at all.

**`Model.typeNames_apart`** says for every table that is loaded which names can meet.
-/

namespace WireModel

open TypeScript Codec

/-- What different items collect is different iff nothing is collected from two of them. -/
theorem nodup_flatMap_iff {α β : Type} {items : List α} {f : α → List β} (h : items.Nodup) :
    (items.flatMap f).Nodup ↔
      (∀ a ∈ items, (f a).Nodup) ∧ ∀ a ∈ items, ∀ b ∈ items, ∀ x ∈ f a, x ∈ f b → a = b := by
  rw [List.nodup_flatMap]
  refine and_congr_right fun _ => ?_
  constructor
  · intro hapart a ha b hb x hx hx'
    by_contra hne
    have hsymm : Std.Symm (Function.onFun List.Disjoint f) := ⟨fun _ _ hab x hb ha => hab ha hb⟩
    exact hapart.forall ha hb hne hx hx'
  · intro hone
    exact h.imp_of_mem fun ha hb hne x hx hx' => hne (hone _ ha _ hb x hx hx')

/-! ## Declared names -/

namespace TypeScript

/-- The name of the type that is declared. A handwritten declaration is one of its class. -/
def Declaration.name : Declaration → String
  | .enumeration _ name _ => name
  | .interface _ name _ _ => name
  | .classType _ name _ _ _ _ => name
  | .handwritten name => typeName name

def TypesModule.names (m : TypesModule) : List String := m.declarations.map Declaration.name

end TypeScript

/-- The names that are declared for a type: an abstract class has an interface only, and a concrete
class has one if it has descendants. -/
def NamedType.typeNames (t : Table) : NamedType → List String
  | .enumeration e => [typeName e.name]
  | .constrained _ => []
  | .classType c =>
    (if !c.isConcrete || (t.interface? c.name).isSome then [interfaceName c.name] else [])
      ++ (if c.isConcrete then [typeName c.name] else [])

theorem names_ofType {t : Table} {s : NamedType} {p : TypePlan} (h : p.Plans t s) :
    (Declaration.ofType t p).map Declaration.name = s.typeNames t := by
  cases h with
  | enumeration e => rfl
  | constrained c => rfl
  | @classType c p h =>
    have hclass : (Declaration.classOf t p).name = typeName c.name := by
      unfold Declaration.classOf ClassPlan.name
      rw [h.type_eq]
      split <;> rfl
    have hinterface : (Declaration.interfaceOf t p).name = interfaceName c.name := by
      show interfaceName p.type.name = _
      rw [h.type_eq]
    simp only [Declaration.ofType, NamedType.typeNames, h.type_eq, h.interface_eq,
      Option.isSome_map]
    cases c.isConcrete <;> cases (t.interface? c.name).isSome <;> simp [hclass, hinterface]

theorem names_typesModule {t : Table} {plan : Plan} (h : plan.Plans t) (banner : List String) :
    (TypesModule.of plan banner).names = t.types.flatMap (NamedType.typeNames t) := by
  show (plan.types.flatMap (Declaration.ofType plan.table)).map Declaration.name = _
  rw [h.table_eq, List.map_flatMap]
  exact flatMap_eq_of_forall₂ h.types fun _ _ => names_ofType

/-! ## Names that meet -/

/-- The name of an interface begins with an `I`. -/
theorem interface_ne {other name : String} (h : other.toList.head? ≠ some 'I') :
    "I" ++ name ≠ other := by
  rintro rfl
  exact h (by simp)

namespace Table.Sound

variable {key : String} {t : Table} (h : t.Sound key)

include h

theorem capital_ne_of_descendants {s : NamedType} {c : Class} (hs : s ∈ t.types)
    (hc : .classType c ∈ t.types) (hd : c.descendants ≠ []) :
    Name.capital s.name ≠ "I" ++ Name.capital c.name := by
  have hsome := (h.classes c (mem_classes.mpr hc)).interface_iff.mpr hd
  obtain ⟨i, hi⟩ := Option.isSome_iff_exists.mp hsome
  rw [← name_of_interface? hi]
  exact h.interfaces_free i (List.mem_of_find?_eq_some hi) s hs

theorem mem_typeNames {s : NamedType} (hs : s ∈ t.types) {name : String} :
    name ∈ s.typeNames t ↔
      (s.isEmitted = true ∧ name = Name.capital s.name)
        ∨ ∃ c, s = .classType c ∧ c.descendants ≠ [] ∧ name = "I" ++ Name.capital c.name := by
  cases s with
  | enumeration e => simp [NamedType.typeNames, NamedType.isEmitted, NamedType.name, typeName]
  | constrained c => simp [NamedType.typeNames, NamedType.isEmitted]
  | classType c =>
    have hsound := h.classes c (mem_classes.mpr hs)
    have hinterface := hsound.interface_iff
    have habstract := hsound.interface_of_abstract
    simp only [NamedType.typeNames, NamedType.isEmitted, NamedType.name, typeName, interfaceName]
    cases hc : c.isConcrete with
    | false => simp [← hinterface, habstract hc]
    | true => by_cases hd : c.descendants = [] <;> simp_all [or_comm]

/-- A name is declared for one type only: two capital forms differ, and so do the names of two
interfaces and those of a type and an interface. -/
theorem eq_of_mem_typeNames {s r : NamedType} (hs : s ∈ t.types) (hr : r ∈ t.types)
    {name : String} (hname : name ∈ s.typeNames t) (hname' : name ∈ r.typeNames t) : s = r := by
  have hcapital : Name.capital s.name = Name.capital r.name → s = r :=
    fun heq => List.inj_on_of_nodup_map h.capitals_distinct hs hr heq
  rcases (h.mem_typeNames hs).mp hname with ⟨-, heq⟩ | ⟨c, rfl, hc, heq⟩ <;>
    rcases (h.mem_typeNames hr).mp hname' with ⟨-, heq'⟩ | ⟨d, rfl, hd, heq'⟩ <;>
    have hboth := heq.symm.trans heq'
  · exact hcapital hboth
  · exact absurd hboth (h.capital_ne_of_descendants hs hr hd)
  · exact absurd hboth.symm (h.capital_ne_of_descendants hr hs hc)
  · exact hcapital ((String.append_right_inj _).mp hboth)

theorem typeNames_nodup : (t.types.flatMap (NamedType.typeNames t)).Nodup := by
  refine (nodup_flatMap_iff h.types_nodup).mpr ⟨fun s hs => ?_, fun s hs r hr name hname hname' =>
    h.eq_of_mem_typeNames hs hr hname hname'⟩
  cases s with
  | enumeration e => exact List.nodup_singleton _
  | constrained c => exact List.nodup_nil
  | classType c =>
    have hne : "I" ++ Name.capital c.name ≠ Name.capital c.name := by
      intro heq
      have hlength := congrArg String.length heq
      rw [String.length_append, show "I".length = 1 from rfl] at hlength
      omega
    simp only [NamedType.typeNames, typeName, interfaceName]
    split <;> split <;> simp_all

theorem transformer_not_mem_typeNames :
    "AbstractTransformer" ∉ t.types.flatMap (NamedType.typeNames t) := by
  intro hmem
  obtain ⟨s, hs, hname⟩ := List.mem_flatMap.mp hmem
  rcases (h.mem_typeNames hs).mp hname with ⟨-, heq⟩ | ⟨c, -, -, heq⟩
  · refine h.capitals_free s hs ?_
    rw [← heq]
    decide
  · exact interface_ne (by decide) heq.symm

/-- An interface takes the name of the root interface, but a type does not. -/
theorem root_mem_typeNames_iff :
    Declaration.rootInterface ∈ t.types.flatMap (NamedType.typeNames t) ↔
      ∃ c ∈ t.classes, c.descendants ≠ [] ∧ Name.capital c.name = "Class" := by
  have hroot : Declaration.rootInterface = "I" ++ "Class" := rfl
  rw [List.mem_flatMap]
  constructor
  · rintro ⟨s, hs, hname⟩
    rcases (h.mem_typeNames hs).mp hname with ⟨-, heq⟩ | ⟨c, rfl, hd, heq⟩
    · refine absurd ?_ (h.capitals_free s hs)
      rw [← heq]
      decide
    · rw [hroot, String.append_right_inj] at heq
      exact ⟨c, mem_classes.mpr hs, hd, heq.symm⟩
  · rintro ⟨c, hc, hd, hname⟩
    have hs := mem_classes.mp hc
    refine ⟨_, hs, (h.mem_typeNames hs).mpr (.inr ⟨c, rfl, hd, ?_⟩)⟩
    rw [hname, hroot]

theorem parameter_mem_typeNames_iff :
    "T" ∈ t.types.flatMap (NamedType.typeNames t) ↔
      ∃ s ∈ t.types, s.isEmitted = true ∧ Name.capital s.name = "T" := by
  rw [List.mem_flatMap]
  refine exists_congr fun s => and_congr_right fun hs => ?_
  rw [h.mem_typeNames hs]
  constructor
  · rintro (⟨hemitted, heq⟩ | ⟨c, -, -, heq⟩)
    · exact ⟨hemitted, heq.symm⟩
    · exact absurd heq.symm (interface_ne (by decide))
  · rintro ⟨hemitted, heq⟩
    exact .inl ⟨hemitted, heq.symm⟩

end Table.Sound

/-- How the declared names stand to each other and to what every module declares. -/
structure TypeScript.TypesModule.Apart (t : Table) (m : TypesModule) : Prop where
  names_eq : m.names = t.types.flatMap (NamedType.typeNames t)
  names_nodup : m.names.Nodup
  transformer_free : "AbstractTransformer" ∉ m.names
  root_iff : Declaration.rootInterface ∈ m.names ↔
    ∃ c ∈ t.classes, c.descendants ≠ [] ∧ Name.capital c.name = "Class"
  parameter_iff : "T" ∈ m.names ↔
    ∃ s ∈ t.types, s.isEmitted = true ∧ Name.capital s.name = "T"

/-- **The declarations of a module of types have different names**, and only two names of the
declarations before them can be taken again. -/
theorem Model.typeNames_apart {key : String} {value : Json} {table : Table}
    (h : Model.load key value = .ok table) (banner : List String) :
    ∃ plan, Plan.of table = .ok plan ∧ (TypesModule.of plan banner).Apart table := by
  have hsound := Model.sound_of_load h
  obtain ⟨plan, hplan⟩ := hsound.exists_plan
  have hnames := names_typesModule (Plan.plans_of_eq_ok hplan) banner
  refine ⟨plan, hplan, ?_⟩
  exact
    { names_eq := hnames
      names_nodup := hnames ▸ hsound.typeNames_nodup
      transformer_free := hnames ▸ hsound.transformer_not_mem_typeNames
      root_iff := hnames ▸ hsound.root_mem_typeNames_iff
      parameter_iff := hnames ▸ hsound.parameter_mem_typeNames_iff }

/-- An abstract class whose interface is a second root interface, and a class that is named like
the parameter of the transformer. -/
def shadows : Json :=
  .object [("name", .text "shadows"), ("types", .array [
    .object [("kind", .text "abstractClass"), ("name", .text "class")],
    .object [("kind", .text "concreteClass"), ("name", .text "t"),
      ("inheritances", Json.texts ["class"])]])]

theorem shadows_apart : ∃ table, Model.load "modelType" shadows = .ok table
    ∧ ∃ plan, Plan.of table = .ok plan ∧ (TypesModule.of plan []).Apart table := by
  have hloads : (Model.load "modelType" shadows).toOption.isSome = true := by decide +kernel
  obtain ⟨table, hload⟩ := Model.exists_table hloads
  exact ⟨table, hload, Model.typeNames_apart hload []⟩

theorem shadows_meet_scaffolding : ∃ table plan, Model.load "modelType" shadows = .ok table
    ∧ Plan.of table = .ok plan ∧ "IClass" ∈ (TypesModule.of plan []).names
    ∧ "T" ∈ (TypesModule.of plan []).names := by
  have hnames : (Model.load "modelType" shadows).toOption.bind (fun t =>
      (Plan.of t).toOption.map fun plan => (TypesModule.of plan []).names)
        = some ["IClass", "T"] := by decide +kernel
  obtain ⟨table, plan, hload, hplan, hnames⟩ := Model.exists_plan_of_eq_some hnames
  refine ⟨table, plan, hload, hplan, ?_⟩
  rw [hnames]
  decide

end WireModel
