import WireModel.Proofs.Faultless
import WireModel.Proofs.Scope
import WireModel.Proofs.WireKeys

/-!
# Names of members and parameters

A class of the generated code has a field for each property, a parameter for each argument of its
constructor, and two members of its own, `constructor` and `transform`. The name of a field is the
lower camel form of the name of its property, with an underscore if that form is a reserved word.

Loading compares lower camel forms and knows nothing of underscores. That is enough because a
lower camel form has no underscore itself: a form that got one can be told from all forms that did
not (`bindingName_camel_inj`). So **`Model.names_apart`**: fields and parameters have the names that
their properties and arguments say, and none of them clash.
-/

namespace WireModel

open TypeScript Codec

/-! ## Names with an underscore at the end -/

namespace TypeScript

theorem bindingName_eq_or (camel : String) :
    bindingName camel = camel ∨ bindingName camel = camel ++ "_" := by
  unfold bindingName
  split
  · exact .inr rfl
  · exact .inl rfl

theorem append_underscore_ne {s t : String} (ht : '_' ∉ t.toList) : s ++ "_" ≠ t := by
  rintro rfl
  rw [String.toList_append] at ht
  exact ht (List.mem_append_right _ List.mem_cons_self)

/-- Names without underscores stay different. -/
theorem bindingName_inj {s t : String} (hs : '_' ∉ s.toList) (ht : '_' ∉ t.toList) :
    bindingName s = bindingName t ↔ s = t := by
  refine ⟨fun heq => ?_, congrArg bindingName⟩
  rcases bindingName_eq_or s with hs' | hs' <;> rcases bindingName_eq_or t with ht' | ht' <;>
    rw [hs', ht'] at heq
  · exact heq
  -- a name that got an underscore is none that did not
  · exact absurd heq.symm (append_underscore_ne hs)
  · exact absurd heq (append_underscore_ne ht)
  · exact String.append_left_inj "_" |>.mp heq

/-- A name that is not reserved and has no underscore is taken by nothing but itself. -/
theorem bindingName_ne {s t : String} (ht : '_' ∉ t.toList) (hne : s ≠ t) : bindingName s ≠ t := by
  rcases bindingName_eq_or s with hs | hs <;> rw [hs]
  · exact hne
  · exact append_underscore_ne ht

end TypeScript

theorem Name.underscore_not_mem_camel {name : String} (h : isIdentifier name = true) :
    '_' ∉ (camel name).toList := fun hmem => by
  have halpha := isAlphanumeric_of_mem_camel h hmem
  revert halpha
  decide

theorem bindingName_camel_inj {x y : String} (hx : Name.isIdentifier x = true)
    (hy : Name.isIdentifier y = true) :
    bindingName (Name.camel x) = bindingName (Name.camel y) ↔ Name.camel x = Name.camel y :=
  bindingName_inj (Name.underscore_not_mem_camel hx) (Name.underscore_not_mem_camel hy)

theorem bindingNames_nodup {α : Type} {items : List α} {name : α → String}
    (hidentified : ∀ a ∈ items, Name.isIdentifier (name a) = true)
    (h : (items.map fun a => Name.camel (name a)).Nodup) :
    (items.map fun a => bindingName (Name.camel (name a))).Nodup := by
  refine (List.nodup_map_iff_inj_on h.of_map).mpr fun a ha b hb heq => ?_
  rw [bindingName_camel_inj (hidentified a ha) (hidentified b hb)] at heq
  exact List.inj_on_of_nodup_map h ha hb heq

/-! ## Names of a class -/

/-- The fields and the parameters of a class have the names that the class says, and no two of
them have the same name, or a field that of another member. -/
structure Class.NamesApart (c : Class) (fields : List FieldDeclaration)
    (parameters : List ParameterDeclaration) : Prop where
  fields_eq : fields.map (·.name) = c.properties.map fun q => bindingName (Name.camel q.name)
  fields_nodup : (fields.map (·.name)).Nodup
  fields_free : ∀ f ∈ fields, f.name ≠ "transform" ∧ f.name ≠ "constructor"
  parameters_eq :
    parameters.map (·.name) = c.arguments.map fun a => bindingName (Name.camel a.name)
  parameters_nodup : (parameters.map (·.name)).Nodup

/-- No class of a document has a property under a reserved name. -/
theorem Document.Clean.properties_free_table {key : String} {document : Document}
    (h : document.Clean key) {c : Class} (hc : c ∈ document.table.classes) {q : Property}
    (hq : q ∈ c.properties) : Name.camel q.name ∉ Attribute.reservedNames := by
  -- a property that is inherited was checked in the class that declares it
  refine h.forall_classes (P := fun c => ∀ q ∈ c.properties,
    Name.camel q.name ∉ Attribute.reservedNames) (fun d hd q hq => ?_) c hc q hq
  obtain ⟨owner, howner, decl, hdecl, hname, -⟩ := h.exists_decl_of_mem_properties hd hq
  rw [hname]
  exact h.accepted.properties_free owner howner decl hdecl

namespace Class.Sound

variable {key : String} {t : Table} {c : Class} (h : c.Sound key t)

include h

theorem namesApart {p : ClassPlan} (hp : p.Plans t c)
    (hfree : ∀ q ∈ c.properties, Name.camel q.name ∉ Attribute.reservedNames) :
    c.NamesApart (p.members.map (Declaration.fieldOf t))
      (p.parameters.map (Declaration.parameterOf p)) := by
  have hfields : (p.members.map (Declaration.fieldOf t)).map (·.name)
      = c.properties.map fun q => bindingName (Name.camel q.name) := by
    rw [List.map_map]
    refine map_eq_of_forall₂ hp.members fun q m hm => ?_
    show bindingName m.wire = _
    rw [hm.wire_eq]
  have hparameters : (p.parameters.map (Declaration.parameterOf p)).map (·.name)
      = c.arguments.map fun a => bindingName (Name.camel a.name) := by
    rw [List.map_map]
    refine map_eq_of_forall₂ hp.parameters fun a q hq => ?_
    show bindingName q.wire = _
    rw [hq.wire_eq]
  constructor
  case fields_eq => exact hfields
  case fields_nodup => exact hfields ▸ bindingNames_nodup h.properties_identified h.wires_distinct
  case fields_free =>
    intro f hf
    have hname : f.name ∈ c.properties.map fun q => bindingName (Name.camel q.name) :=
      hfields ▸ List.mem_map_of_mem hf
    obtain ⟨q, hq, heq⟩ := List.mem_map.mp hname
    have hne := hfree q hq
    simp only [Attribute.reservedNames, List.mem_cons, List.not_mem_nil, or_false, not_or] at hne
    rw [← heq]
    exact ⟨bindingName_ne (by decide) hne.1, bindingName_ne (by decide) hne.2⟩
  case parameters_eq => exact hparameters
  case parameters_nodup =>
    rw [hparameters]
    exact bindingNames_nodup (fun a ha => h.isIdentifier_argument ha) h.wires_arguments_nodup

end Class.Sound

/-- **No names of members or parameters clash.** Forms of identifiers exist and are the same before
and after underscores are put to them, and the names of every concrete class are apart. -/
theorem Model.names_apart {key : String} {value : Json} {table : Table}
    (h : Model.load key value = .ok table) :
    (∀ x y, Name.isIdentifier x = true → Name.isIdentifier y = true →
      ∃ wire other, Name.camel? x = .ok wire ∧ Name.camel? y = .ok other
        ∧ (bindingName wire = bindingName other ↔ wire = other))
      ∧ ∃ plan, Plan.of table = .ok plan
        ∧ ∀ c ∈ table.concreteClasses, ∃ p ∈ plan.concreteClasses, p.type = c
          ∧ c.NamesApart (p.members.map (Declaration.fieldOf table))
            (p.parameters.map (Declaration.parameterOf p)) := by
  refine ⟨fun x y hx hy => ⟨_, _, Name.worded_of_isIdentifier hx, Name.worded_of_isIdentifier hy,
    bindingName_camel_inj hx hy⟩, ?_⟩
  have hsound := Model.sound_of_load h
  obtain ⟨document, -, hclean, -, rfl⟩ := Model.clean_of_load h
  obtain ⟨plan, hplan⟩ := hsound.exists_plan
  refine ⟨plan, hplan, fun c hc => ?_⟩
  obtain ⟨hclass, -⟩ := List.mem_filter.mp hc
  obtain ⟨p, hp, hplans⟩ := (Plan.plans_of_eq_ok hplan).exists_of_mem_concreteClasses hc
  exact ⟨p, hp, hplans.type_eq, (hsound.classes c hclass).namesApart hplans
    fun q hq => hclean.properties_free_table hclass hq⟩

/-- Properties whose names are reserved words in the generated code, one of them inherited. -/
def switches : Json :=
  .object [("name", .text "switches"), ("types", .array [
    .object [("kind", .text "abstractClass"), ("name", .text "control"),
      ("properties", .array [.object [("name", .text "default"), ("type", .text "bool")]])],
    .object [("kind", .text "concreteClass"), ("name", .text "switch"),
      ("inheritances", Json.texts ["control"]),
      ("properties", .array [
        .object [("name", .text "Case"), ("type", .text "str")],
        .object [("name", .text "case_2"), ("type", .text "Optional[str]")]]),
      ("constructorArguments", .array [
        .object [("name", .text "case_2"), ("type", .text "Optional[str]")],
        .object [("name", .text "Case"), ("type", .text "str")],
        .object [("name", .text "default"), ("type", .text "bool")]])]])]

theorem switches_names_apart : ∃ table, Model.load "modelType" switches = .ok table
    ∧ (∀ x y, Name.isIdentifier x = true → Name.isIdentifier y = true →
      ∃ wire other, Name.camel? x = .ok wire ∧ Name.camel? y = .ok other
        ∧ (bindingName wire = bindingName other ↔ wire = other))
      ∧ ∃ plan, Plan.of table = .ok plan
        ∧ ∀ c ∈ table.concreteClasses, ∃ p ∈ plan.concreteClasses, p.type = c
          ∧ c.NamesApart (p.members.map (Declaration.fieldOf table))
            (p.parameters.map (Declaration.parameterOf p)) := by
  have hloads : (Model.load "modelType" switches).toOption.isSome = true := by decide +kernel
  obtain ⟨table, hload⟩ := Model.exists_table hloads
  exact ⟨table, hload, Model.names_apart hload⟩

end WireModel
