import WireModel.Document.Decode
import WireModel.Proofs.Members
import WireModel.Proofs.RowKeys
import WireModel.Proofs.Spelling
import WireModel.Schema.Definition

/-!
# Keys on the wire

The keys of an object are decided in three places: its parse routine goes through the arguments of
the constructor, its method and its schema through the properties. They meet because loading gives
every property an argument of the same name, and because nothing is reported about constructors:

* the three know the same keys, each of them once;
* the parse routine asks for a key only if the schema requires it, and fails to ask for one that is
  required only where the constructor has a default for it;
* an argument and its property are carried in the same way.

`KeysAgree` is that for one class, and **`Model.wireKeys_agree`** says it of every class whose
routines are generated.
-/

namespace WireModel

open TypeScript Codec

/-! ## Keys of a schema -/

namespace Schema

/-- The keys that a schema has properties for. -/
def propertyKeys (schema : Json.Members) : List String :=
  match schema.get? "properties" with
  | some (.object members) => Json.Members.keys members
  | _ => []

/-- The keys that a schema requires. -/
def requiredNames (schema : Json.Members) : List String :=
  match schema.get? "required" with
  | some (.array items) => items.filterMap Decode.text?
  | _ => []

theorem get?_withDescription {description : Option Description} {schema : Json.Members}
    {name : String} (h : name ≠ "description") :
    (withDescription description schema).get? name = schema.get? name := by
  unfold withDescription Json.Members.get?
  cases description with
  | none => rfl
  | some d => rw [List.lookup_cons, beq_false_of_ne h]

/-- The properties of a class in a schema, in the order in which they are assigned. -/
def propertyPairs (t : Table) (key : String) (p : ClassPlan) : List (String × Json) :=
  (p.members.map fun m =>
      (m.wire, .object (withDescription m.property.description (ofField t m.property.type))))
    ++ (if p.isDiscriminated then [(key, .object [("const", .text (Name.capital p.name))])]
      else [])

theorem propertyKeys_ofClass (t : Table) (key : String) (p : ClassPlan) :
    propertyKeys (ofClass t key p) = (properties t key p).keys := by
  unfold propertyKeys ofClass
  rw [get?_withDescription (by decide)]
  rfl

theorem requiredNames_ofClass (t : Table) (key : String) (p : ClassPlan) :
    requiredNames (ofClass t key p) = required key p := by
  unfold requiredNames ofClass
  rw [get?_withDescription (by decide)]
  cases hneeded : required key p with
  | nil => rfl
  | cons name names =>
    show ((name :: names).map Json.text).filterMap Decode.text? = _
    rw [List.filterMap_map]
    exact List.filterMap_some

end Schema

/-! ## What a class and its plan share -/

/-- The discriminator of a class, if its objects carry one. -/
def Table.discriminatorOf (t : Table) (key : String) (c : Class) : List String :=
  if t.isDiscriminated c.name then [key] else []

namespace Class.Sound

variable {key : String} {t : Table} {c : Class} (h : c.Sound key t)

include h

theorem exists_argument {q : Property} (hq : q ∈ c.properties) :
    ∃ a ∈ c.arguments, a.name = q.name :=
  List.mem_map.mp ((h.arguments_match q.name).mpr (List.mem_map_of_mem hq))

theorem exists_property {a : Argument} (ha : a ∈ c.arguments) :
    ∃ q ∈ c.properties, q.name = a.name :=
  List.mem_map.mp ((h.arguments_match a.name).mp (List.mem_map_of_mem ha))

/-- An argument and a property with one wire name have one name. -/
theorem name_eq_of_camel_eq {a : Argument} (ha : a ∈ c.arguments) {q : Property}
    (hq : q ∈ c.properties) (hcamel : Name.camel a.name = Name.camel q.name) :
    q.name = a.name := by
  obtain ⟨r, hr, hname⟩ := h.exists_property ha
  rw [← hname] at hcamel ⊢
  rw [List.inj_on_of_nodup_map h.wires_distinct hr hq hcamel]

theorem wires_arguments_nodup : (c.arguments.map fun a => Name.camel a.name).Nodup := by
  refine (List.nodup_map_iff_inj_on h.arguments_distinct.of_map).mpr fun a ha b hb hcamel => ?_
  obtain ⟨q, hq, hname⟩ := h.exists_property hb
  rw [← hname] at hcamel
  have ha' := h.name_eq_of_camel_eq ha hq hcamel
  exact List.inj_on_of_nodup_map h.arguments_distinct ha hb (ha'.symm.trans hname)

theorem mem_wires_iff (wire : String) :
    wire ∈ c.arguments.map (fun a => Name.camel a.name) ↔
      wire ∈ c.properties.map fun q => Name.camel q.name := by
  constructor
  · intro hwire
    obtain ⟨a, ha, rfl⟩ := List.mem_map.mp hwire
    obtain ⟨q, hq, hname⟩ := h.exists_property ha
    exact List.mem_map.mpr ⟨q, hq, by rw [hname]⟩
  · intro hwire
    obtain ⟨q, hq, rfl⟩ := List.mem_map.mp hwire
    obtain ⟨a, ha, hname⟩ := h.exists_argument hq
    exact List.mem_map.mpr ⟨a, ha, by rw [hname]⟩

theorem not_mem_discriminatorOf {wire : String}
    (hwire : wire ∈ c.properties.map fun q => Name.camel q.name) :
    wire ∉ t.discriminatorOf key c := by
  obtain ⟨q, hq, rfl⟩ := List.mem_map.mp hwire
  have hne := h.wires_free q hq
  unfold Table.discriminatorOf
  split <;> simp [hne]

theorem wires_nodup {wires : List String} (hwires : wires.Nodup)
    (hmem : ∀ wire, wire ∈ wires ↔ wire ∈ c.properties.map fun q => Name.camel q.name) :
    (wires ++ t.discriminatorOf key c).Nodup := by
  have hdiscriminator : (t.discriminatorOf key c).Nodup := by
    unfold Table.discriminatorOf
    split <;> simp
  refine List.nodup_append.mpr ⟨hwires, hdiscriminator, fun wire hwire k hk heq => ?_⟩
  exact h.not_mem_discriminatorOf ((hmem wire).mp hwire) (heq ▸ hk)

end Class.Sound

theorem Table.strategy_eq_ok_iff {t : Table} {type : FieldType Atom} {strategy : Strategy} :
    t.strategy type = .ok strategy ↔
      ∃ carrier, t.carrier type.item = .ok carrier ∧ type.withItem carrier = strategy :=
  map_eq_ok_iff

theorem Table.isOptional_of_strategy {t : Table} {type : FieldType Atom} {strategy : Strategy}
    (h : t.strategy type = .ok strategy) : strategy.isOptional = type.isOptional := by
  obtain ⟨carrier, -, rfl⟩ := strategy_eq_ok_iff.mp h
  rfl

namespace Codec.ClassPlan.Plans

variable {t : Table} {c : Class} {p : ClassPlan} (h : p.Plans t c) (key : String)

include h

theorem discriminator_eq :
    ((ClassCodec.of key p).discriminator.map (·.1)).toList = t.discriminatorOf key c := by
  unfold ClassCodec.of Table.discriminatorOf
  rw [h.isDiscriminated_eq]
  cases t.isDiscriminated c.name <;> rfl

theorem parsedKeys_eq :
    (ClassCodec.of key p).parsedKeys
      = c.arguments.map (fun a => Name.camel a.name) ++ t.discriminatorOf key c := by
  unfold ClassCodec.parsedKeys
  rw [h.discriminator_eq]
  congr 1
  show (p.parameters.map Slot.of).map (·.key) = _
  rw [List.map_map]
  exact map_eq_of_forall₂ h.parameters fun a _ ha => ha.wire_eq

theorem writtenKeys_eq :
    (ClassCodec.of key p).writtenKeys
      = c.properties.map (fun q => Name.camel q.name) ++ t.discriminatorOf key c := by
  unfold ClassCodec.writtenKeys
  rw [h.discriminator_eq]
  congr 1
  show (p.members.map Entry.of).map (·.key) = _
  rw [List.map_map]
  exact map_eq_of_forall₂ h.members fun q _ hq => hq.wire_eq

theorem mem_requiredKeys_iff {k : String} :
    k ∈ (ClassCodec.of key p).requiredKeys ↔
      ∃ a ∈ c.arguments, a.type.isOptional = false ∧ Name.camel a.name = k := by
  have hkeys : (ClassCodec.of key p).requiredKeys
      = (c.arguments.filter fun a => !a.type.isOptional).map fun a => Name.camel a.name := by
    show ((p.parameters.map Slot.of).filter (·.isRequired)).map (·.key) = _
    rw [List.filter_map, List.map_map]
    refine map_filter_eq_of_forall₂ h.parameters (fun a q ha => ?_) fun a _ ha => ha.wire_eq
    show (!q.strategy.isOptional) = _
    rw [Table.isOptional_of_strategy ha.strategy_eq]
  rw [hkeys, List.mem_map]
  simp [and_assoc]

theorem mem_required_iff {k : String} :
    k ∈ Schema.required key p ↔
      (∃ q ∈ c.properties, q.type.isOptional = false ∧ Name.camel q.name = k)
        ∨ k ∈ t.discriminatorOf key c := by
  have hkeys : Schema.required key p
      = (c.properties.filter fun q => !q.type.isOptional).map (fun q => Name.camel q.name)
        ++ t.discriminatorOf key c := by
    unfold Schema.required Table.discriminatorOf
    rw [h.isDiscriminated_eq]
    congr 1
    refine map_filter_eq_of_forall₂ h.members (fun q m hq => ?_) fun q _ hq => hq.wire_eq
    rw [hq.property_eq]
  rw [hkeys, List.mem_append, List.mem_map]
  simp [and_assoc]

theorem keys_propertyPairs :
    Json.Members.keys (Schema.propertyPairs t key p)
      = c.properties.map (fun q => Name.camel q.name) ++ t.discriminatorOf key c := by
  unfold Json.Members.keys Schema.propertyPairs Table.discriminatorOf
  rw [List.map_append, List.map_map, h.isDiscriminated_eq]
  congr 1
  · exact map_eq_of_forall₂ h.members fun q _ hq => hq.wire_eq
  · cases t.isDiscriminated c.name <;> rfl

/-- The properties of a schema are those of the class and its discriminator, in some order. -/
theorem properties_perm (hsound : c.Sound key t) :
    (Schema.properties t key p).Perm (Schema.propertyPairs t key p) := by
  have hnodup := hsound.wires_nodup hsound.wires_distinct fun _ => Iff.rfl
  rw [← h.keys_propertyPairs key] at hnodup
  exact Json.Members.perm_ofList hnodup

theorem keys_properties_perm (hsound : c.Sound key t) :
    (Schema.properties t key p).keys.Perm
      (c.properties.map (fun q => Name.camel q.name) ++ t.discriminatorOf key c) := by
  rw [← h.keys_propertyPairs key]
  exact (h.properties_perm key hsound).map _

end Codec.ClassPlan.Plans

/-! ## Agreement -/

/-- What the parse routine, the method and the schema of a class say about its keys. -/
structure KeysAgree (t : Table) (key : String) (snippets : Snippets) (c : Class) (p : ClassPlan) :
    Prop where
  parsed_nodup : ((ClassCodec.of key p).emitParse snippets).1.caseLabels.Nodup
  written_nodup : ((ClassCodec.of key p).emitMethod snippets).1.assignedKeys.Nodup
  described_nodup : (Schema.propertyKeys (Schema.ofClass t key p)).Nodup
  written_iff : ∀ k, k ∈ ((ClassCodec.of key p).emitMethod snippets).1.assignedKeys ↔
    k ∈ ((ClassCodec.of key p).emitParse snippets).1.caseLabels
  described_iff : ∀ k, k ∈ Schema.propertyKeys (Schema.ofClass t key p) ↔
    k ∈ ((ClassCodec.of key p).emitParse snippets).1.caseLabels
  discriminator_iff : key ∈ ((ClassCodec.of key p).emitParse snippets).1.caseLabels ↔
    t.isDiscriminated c.name = true
  required_of_checked : ∀ k, ((ClassCodec.of key p).emitParse snippets).1.checksFor k = true →
    k ∈ Schema.requiredNames (Schema.ofClass t key p)
  unchecked_iff : ∀ k, k ≠ key →
    (k ∈ Schema.requiredNames (Schema.ofClass t key p)
        ∧ ((ClassCodec.of key p).emitParse snippets).1.checksFor k = false ↔
      ∃ a ∈ c.arguments, ∃ q ∈ c.properties, q.name = a.name ∧ Name.camel q.name = k
        ∧ a.type.isOptional = true ∧ a.type.required = q.type ∧ a.default.isSome = true)
  shapes_eq : ∀ a ∈ c.arguments, ∀ q ∈ c.properties, Name.camel a.name = Name.camel q.name →
    ∃ s r, t.strategy a.type = .ok s ∧ t.strategy q.type = .ok r
      ∧ s.isList = r.isList ∧ s.item = r.item

section Agreement

variable {key : String} {t : Table} (h : t.Sound key) (hsilent : t.constructorDiagnostics = [])
  {c : Class} (hc : c ∈ t.classes) {p : ClassPlan} (hp : p.Plans t c)

include h hsilent hc

theorem shapes_eq_of_silent {a : Argument} (ha : a ∈ c.arguments) {q : Property}
    (hq : q ∈ c.properties) (hname : q.name = a.name) :
    ∃ s r, t.strategy a.type = .ok s ∧ t.strategy q.type = .ok r
      ∧ s.isList = r.isList ∧ s.item = r.item := by
  have hsound := h.classes c hc
  -- the two types have the same item and are both lists or both not
  have htype : a.type.required = q.type.required := by
    rcases h.type_eq_of_silent hsilent hc ha hq hname with heq | ⟨-, heq, -⟩
    · rw [heq]
    · rw [← heq]
      rfl
  obtain ⟨r, hr⟩ := h.exists_strategy (hsound.properties_known q hq)
  obtain ⟨carrier, hcarrier, rfl⟩ := Table.strategy_eq_ok_iff.mp hr
  have hitem : a.type.item = q.type.item := congrArg (·.item) htype
  have hlist : a.type.isList = q.type.isList := congrArg (·.isList) htype
  refine ⟨_, _, Table.strategy_eq_ok_iff.mpr ⟨carrier, ?_, rfl⟩, hr, hlist, rfl⟩
  rw [hitem]
  exact hcarrier

include hp

theorem required_of_mem_requiredKeys {k : String} (hk : k ∈ (ClassCodec.of key p).requiredKeys) :
    k ∈ Schema.required key p := by
  obtain ⟨a, ha, hrequired, hcamel⟩ := (hp.mem_requiredKeys_iff key).mp hk
  obtain ⟨q, hq, hname⟩ := (h.classes c hc).exists_property ha
  rcases h.type_eq_of_silent hsilent hc ha hq hname with heq | ⟨hoptional, -, -⟩
  · rw [← hname] at hcamel
    rw [heq] at hrequired
    exact (hp.mem_required_iff key).mpr (.inl ⟨q, hq, hrequired, hcamel⟩)
  · rw [hoptional] at hrequired
    cases hrequired

/-- A key is required and not asked for iff its argument falls back to a default. -/
theorem required_and_not_mem_iff {k : String} (hk : k ≠ key) :
    k ∈ Schema.required key p ∧ k ∉ (ClassCodec.of key p).requiredKeys ↔
      ∃ a ∈ c.arguments, ∃ q ∈ c.properties, q.name = a.name ∧ Name.camel q.name = k
        ∧ a.type.isOptional = true ∧ a.type.required = q.type ∧ a.default.isSome = true := by
  have hsound := h.classes c hc
  have hfree : k ∉ t.discriminatorOf key c := by
    unfold Table.discriminatorOf
    split <;> simp [hk]
  rw [hp.mem_required_iff key, hp.mem_requiredKeys_iff key, or_iff_left hfree]
  constructor
  · rintro ⟨⟨q, hq, hrequired, hcamel⟩, hunchecked⟩
    obtain ⟨a, ha, hname⟩ := hsound.exists_argument hq
    refine ⟨a, ha, q, hq, hname.symm, hcamel, ?_⟩
    rcases h.type_eq_of_silent hsilent hc ha hq hname.symm with heq | hoptional
    · rw [← heq] at hrequired
      rw [← hname] at hcamel
      exact absurd ⟨a, ha, hrequired, hcamel⟩ hunchecked
    · exact hoptional
  · rintro ⟨a, ha, q, hq, hname, hcamel, hoptional, heq, -⟩
    have hrequired : q.type.isOptional = false := by
      rw [← heq]
      rfl
    refine ⟨⟨q, hq, hrequired, hcamel⟩, ?_⟩
    rintro ⟨b, hb, hb', hcamel'⟩
    -- the key has one argument
    have hname' := hsound.name_eq_of_camel_eq hb hq (hcamel'.trans hcamel.symm)
    obtain rfl : a = b :=
      List.inj_on_of_nodup_map hsound.arguments_distinct ha hb (hname.symm.trans hname')
    rw [hoptional] at hb'
    cases hb'

theorem keysAgree (hhand : c.isHandwritten = false) (snippets : Snippets) :
    KeysAgree t key snippets c p := by
  have hsound := h.classes c hc
  have hhand' : (ClassCodec.of key p).isHandwritten = false := by
    show p.type.isHandwritten = false
    rw [hp.type_eq]
    exact hhand
  have hparsed := Block.caseLabels_emitParse hhand' snippets
  have hwritten := Block.assignedKeys_emitMethod hhand' snippets
  rw [hp.parsedKeys_eq] at hparsed
  rw [hp.writtenKeys_eq] at hwritten
  have hdescribed := hp.keys_properties_perm key hsound
  have hsame : ∀ k, k ∈ c.properties.map (fun q => Name.camel q.name) ++ t.discriminatorOf key c ↔
      k ∈ c.arguments.map (fun a => Name.camel a.name) ++ t.discriminatorOf key c := by
    intro k
    rw [List.mem_append, List.mem_append, hsound.mem_wires_iff]
  have hkey : key ∉ c.properties.map fun q => Name.camel q.name := by
    intro hmem
    obtain ⟨q, hq, heq⟩ := List.mem_map.mp hmem
    exact hsound.wires_free q hq heq
  constructor
  case parsed_nodup =>
    exact hparsed ▸ hsound.wires_nodup hsound.wires_arguments_nodup hsound.mem_wires_iff
  case written_nodup => exact hwritten ▸ hsound.wires_nodup hsound.wires_distinct fun _ => Iff.rfl
  case described_nodup =>
    rw [Schema.propertyKeys_ofClass, hdescribed.nodup_iff]
    exact hsound.wires_nodup hsound.wires_distinct fun _ => Iff.rfl
  case written_iff =>
    intro k
    rw [hwritten, hparsed]
    exact hsame k
  case described_iff =>
    intro k
    rw [Schema.propertyKeys_ofClass, hdescribed.mem_iff, hparsed]
    exact hsame k
  case discriminator_iff =>
    rw [hparsed, ← hsame, List.mem_append, or_iff_right hkey]
    unfold Table.discriminatorOf
    split <;> simp_all
  case required_of_checked =>
    intro k hk
    rw [Schema.requiredNames_ofClass]
    exact required_of_mem_requiredKeys h hsilent hc hp
      ((Block.checksFor_emitParse_iff hhand' snippets).mp hk)
  case unchecked_iff =>
    intro k hk
    rw [Schema.requiredNames_ofClass, ← required_and_not_mem_iff h hsilent hc hp hk,
      ← Block.checksFor_emitParse_iff hhand' snippets, Bool.not_eq_true]
  case shapes_eq =>
    intro a ha q hq hcamel
    exact shapes_eq_of_silent h hsilent hc ha hq (hsound.name_eq_of_camel_eq ha hq hcamel)

end Agreement

/-- **Parse routine, method and schema agree on the keys** of every class that they are generated
for. -/
theorem Model.wireKeys_agree {key : String} {value : Json} {table : Table}
    (h : Model.load key value = .ok table) (hsilent : table.constructorDiagnostics = [])
    (snippets : Snippets) :
    ∃ plan, Plan.of table = .ok plan
      ∧ ∀ c ∈ table.concreteClasses, c.isHandwritten = false →
        ∃ p ∈ plan.concreteClasses, p.type = c ∧ KeysAgree table key snippets c p := by
  have hsound := Model.sound_of_load h
  obtain ⟨plan, hplan⟩ := hsound.exists_plan
  refine ⟨plan, hplan, fun c hc hhand => ?_⟩
  obtain ⟨hclass, hconcrete⟩ := List.mem_filter.mp hc
  obtain ⟨p, hp, hplans⟩ := (Plan.plans_of_eq_ok hplan).exists_of_mem_classes hclass
  have hp' : p ∈ plan.concreteClasses := by
    refine List.mem_filter.mpr ⟨hp, ?_⟩
    rw [hplans.type_eq]
    exact hconcrete
  exact ⟨p, hp', hplans.type_eq, keysAgree hsound hsilent hclass hplans hhand snippets⟩

/-- A class with a descendant, and an argument that falls back to a default. -/
def windows : Json :=
  .object [("name", .text "windows"), ("types", .array [
    .object [("kind", .text "concreteClass"), ("name", .text "window"),
      ("properties", .array [
        .object [("name", .text "title"), ("type", .text "str")],
        .object [("name", .text "tab_labels"), ("type", .text "Optional[List[str]]")],
        .object [("name", .text "is_open"), ("type", .text "bool")]]),
      ("constructorArguments", .array [
        .object [("name", .text "is_open"), ("type", .text "Optional[bool]"),
          ("default", .bool true)],
        .object [("name", .text "title"), ("type", .text "str")],
        .object [("name", .text "tab_labels"), ("type", .text "Optional[List[str]]")]])],
    .object [("kind", .text "concreteClass"), ("name", .text "dialog"),
      ("inheritances", Json.texts ["window"])]])]

theorem windows_agree : ∃ table, Model.load "modelType" windows = .ok table
    ∧ table.constructorDiagnostics = [] ∧ ∃ plan, Plan.of table = .ok plan
      ∧ ∀ c ∈ table.concreteClasses, c.isHandwritten = false →
        ∃ p ∈ plan.concreteClasses, p.type = c ∧ KeysAgree table "modelType" [] c p := by
  have hloads : (Model.load "modelType" windows).toOption.isSome = true := by decide +kernel
  have hfits : (Model.load "modelType" windows).toOption.map Table.constructorDiagnostics
      = some [] := by decide +kernel
  obtain ⟨table, hload⟩ := Model.exists_table hloads
  rw [hload] at hfits
  have hsilent : table.constructorDiagnostics = [] := Option.some.inj hfits
  exact ⟨table, hload, hsilent, Model.wireKeys_agree hload hsilent []⟩

end WireModel
