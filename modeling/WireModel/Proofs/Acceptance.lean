import WireModel.Proofs.Constructors
import WireModel.Proofs.Descendants
import WireModel.Proofs.References

/-!
# A document is accepted by its rules

Resolving a document is a sequence of passes that drop what is wrong and go on. The rules that a
document has to keep can be said without any of that: `Document.Accepted` speaks of the document
as it is, of the parents that its classes list, and of the declarations along them.

## The architecture

Each pass is silent iff its rules hold, but only once the rules of the passes before it hold, for
until then the pass does not see the document as it is.

* Types and literals: `TypeDecl.declareAll_silent_iff`. From here on nothing is dropped.
* Parents and cycles: **`Document.hierarchy_silent_iff`**. From here on the classes keep the
  parents that they list (`Document.keeps_eq_of_silent`).
* Properties: **`Document.properties_silent_iff`**. From here on flattened lists are the
  declarations of the class and its ancestors.
* Constructors, interfaces, wire names and references, in any order.

**`Document.clean_iff_accepted`** goes through them once in each direction, and
**`Model.load_iff_accepted`** is the same for values.
-/

namespace WireModel

/-! ## Wire names -/

theorem Outline.wireName_sieve (key owner : String) :
    Sieve (takeWireName key owner) id (fun a => Name.camel a.name ≠ key)
      fun k a => Name.camel k.name ≠ Name.camel a.name where
  silent taken a := by
    rw [takeWireName]
    split
    · next hkey => simp [hkey]
    · next hkey =>
      rw [and_iff_right hkey]
      split
      · next other hfind =>
        simp only [List.cons_ne_nil, false_iff, not_forall]
        exact ⟨other, List.mem_of_find?_eq_some hfind,
          fun hne => hne (by simpa using List.find?_some hfind)⟩
      · next hfind => simpa using hfind
  keeps taken a h := by
    rw [takeWireName] at h ⊢
    split at h
    · cases h
    · next hkey =>
      rw [if_neg hkey]
      split at h
      · cases h
      · rfl

/-- **There is nothing to say about wire names** iff the properties of a class have different
ones, and none has that of the discriminator. -/
theorem Outline.wireNameProblems_eq_nil_iff {types : List TypeDecl} {key : String}
    (hnames : (types.map (·.name)).Nodup) :
    (ofTypes types).wireNameProblems key = [] ↔ ∀ c ∈ classesOf types,
      (∀ a ∈ (ofTypes types).attributesOf c.name, Name.camel a.name ≠ key)
      ∧ ∀ a ∈ (ofTypes types).attributesOf c.name, ∀ b ∈ (ofTypes types).attributesOf c.name,
        Name.camel a.name = Name.camel b.name → a.name = b.name := by
  rw [wireNameProblems, List.flatMap_eq_nil_iff]
  refine forall₂_congr fun c hc => ?_
  have hdistinct := names_attributesOf_nodup hnames c hc
  rw [(wireName_sieve key c.name).silent_iff]
  refine and_congr_right fun _ => ?_
  rw [show (List.Pairwise (fun a b : Attribute => Name.camel (id a).name ≠ Name.camel b.name)
      ((ofTypes types).attributesOf c.name)) ↔
      (((ofTypes types).attributesOf c.name).map fun a => Name.camel a.name).Nodup from
    List.pairwise_map.symm, List.nodup_map_iff_inj_on (List.Nodup.of_map _ hdistinct)]
  -- different entries have different names
  constructor
  · intro h a ha b hb hcamel
    rw [h a ha b hb hcamel]
  · intro h a ha b hb hcamel
    exact List.inj_on_of_nodup_map hdistinct ha hb (h a ha b hb hcamel)

namespace Document

variable {key : String} {document : Document}

/-! ## Parents and cycles -/

/-- Where parents are no problem, the walk begins with the hierarchy of the document. -/
theorem edge_nodesOf_eq (hnames : (document.types.map (·.name)).Nodup)
    (hparents : (Outline.ofTypes document.types).parentProblems = []) :
    Hierarchy.Edge (Outline.nodesOf document.types) = document.Inherits := by
  have hlink : ∀ c ∈ Outline.classesOf document.types, (c.link document.types).1 = c.parents :=
    fun c hc => ClassDecl.link_of_silent hnames (List.flatMap_eq_nil_iff.mp hparents c hc)
  funext child parent
  apply propext
  constructor
  · rintro ⟨n, hn, rfl, hp⟩
    obtain ⟨c, hc, rfl⟩ := List.mem_map.mp hn
    rw [Inherits, parentsOf_of_mem hnames hc, ← hlink c hc]
    exact hp
  · intro hp
    rw [Inherits, parentsOf] at hp
    split at hp
    · next c hfind =>
      obtain ⟨hc, rfl⟩ := (Outline.classOf?_eq_some_iff hnames).mp hfind
      refine ⟨_, List.mem_map.mpr ⟨c, hc, rfl⟩, rfl, ?_⟩
      rw [hlink c hc]
      exact hp
    · cases hp

theorem hierarchy_silent_iff (hnames : (document.types.map (·.name)).Nodup) :
    (Outline.ofTypes document.types).parentProblems = []
        ∧ (Outline.ofTypes document.types).cycleProblems = [] ↔
      (∀ c ∈ Outline.classesOf document.types,
        (∀ p ∈ c.parents, ∃ a ∈ Outline.classesOf document.types, a.name = p) ∧ c.parents.Nodup)
      ∧ ∀ name, ¬Relation.TransGen document.Inherits name name := by
  have hparents : (Outline.ofTypes document.types).parentProblems = [] ↔
      ∀ c ∈ Outline.classesOf document.types,
        (∀ p ∈ c.parents, ∃ a ∈ Outline.classesOf document.types, a.name = p)
          ∧ c.parents.Nodup := by
    rw [Outline.parentProblems, List.flatMap_eq_nil_iff]
    refine forall₂_congr fun c hc => (ClassDecl.link_silent_iff hnames c).trans ?_
    simp only [List.mem_map]
  rw [← hparents]
  refine and_congr_right fun hsilent => ?_
  rw [Outline.cycleProblems_eq_nil_iff, show (Outline.ofTypes document.types).trace
    = Hierarchy.trace (Outline.nodesOf document.types) from rfl,
    Hierarchy.dropped_eq_nil_iff (Outline.wellLinked_nodesOf hnames),
    edge_nodesOf_eq hnames hsilent]

/-! ## What rests on the hierarchy -/

section Hierarchy

variable (hnames : (document.types.map (·.name)).Nodup)
  (hkeeps : (Outline.ofTypes document.types).Keeps = document.Inherits)

include hnames hkeeps

theorem properties_silent_iff :
    (Outline.ofTypes document.types).propertyProblems = [] ↔
      (∀ c ∈ Outline.classesOf document.types, (c.properties.map (·.name)).Nodup
        ∧ ∀ d ∈ c.properties, Name.camel d.name ∉ Attribute.reservedNames
          ∧ ∃ type, FieldType.Spells document.types d.type type)
      ∧ ∀ c ∈ Outline.classesOf document.types, ∀ a d, document.Effective c.name a d →
        ∀ b e, document.Effective c.name b e → d.name = e.name → a = b := by
  rw [Outline.propertyProblems_eq_nil_iff hnames, Outline.Reaches, hkeeps]
  refine and_congr_right fun _ => forall₂_congr fun c _ => ?_
  constructor
  · rintro h a d ⟨ha, hca, hd⟩ b e ⟨hb, hcb, he⟩ hname
    exact h a ha b hb hca hcb d hd e he hname
  · intro h a ha b hb hca hcb d hd e he hname
    exact h a d ⟨ha, hca, hd⟩ b e ⟨hb, hcb, he⟩ hname

theorem descendants_ne_nil_iff {name : String} :
    (Outline.ofTypes document.types).descendantsOf name ≠ [] ↔
      ∃ x ∈ Outline.classesOf document.types, Relation.TransGen document.Inherits x.name name := by
  constructor
  · intro hne
    obtain ⟨other, hother⟩ := List.exists_mem_of_ne_nil _ hne
    obtain ⟨x, hx, rfl⟩ := Outline.exists_of_mem_descendantsOf hother
    exact ⟨x, hx, hkeeps ▸ (Outline.mem_descendantsOf hnames hx).mp hother⟩
  · rintro ⟨x, hx, hdescends⟩
    rw [← hkeeps] at hdescends
    exact List.ne_nil_of_mem ((Outline.mem_descendantsOf hnames hx).mpr hdescends)

/-- The implementers of an abstract class are its concrete descendants. -/
theorem implementers_ne_nil_iff {c : ClassDecl} (hc : c ∈ Outline.classesOf document.types)
    (habstract : c.kind.isConcrete = false) :
    (Outline.ofTypes document.types).implementersOf c.name ≠ [] ↔
      ∃ x ∈ Outline.classesOf document.types, x.kind.isConcrete = true
        ∧ Relation.TransGen document.Inherits x.name c.name := by
  constructor
  · intro hne
    obtain ⟨other, hother⟩ := List.exists_mem_of_ne_nil _ hne
    obtain ⟨x, hx, rfl, hconcrete, hmember⟩ := Outline.mem_implementersOf.mp hother
    refine ⟨x, hx, hconcrete, ?_⟩
    rcases hmember with hself | hdescends
    · obtain rfl := Outline.class_eq_of_name_eq hnames hx hc hself
      rw [habstract] at hconcrete
      cases hconcrete
    · exact hkeeps ▸ (Outline.mem_descendantsOf hnames hx).mp hdescends
  · rintro ⟨x, hx, hconcrete, hdescends⟩
    rw [← hkeeps] at hdescends
    exact List.ne_nil_of_mem ((Outline.mem_implementersOf_of_mem hnames hx).mpr
      ⟨hconcrete, .inr ((Outline.mem_descendantsOf hnames hx).mpr hdescends)⟩)

theorem interfaces_silent_iff :
    (Outline.ofTypes document.types).interfaceProblems = [] ↔
      ∀ c ∈ Outline.classesOf document.types,
        (c.kind.isConcrete = false → ∃ x ∈ Outline.classesOf document.types,
          x.kind.isConcrete = true ∧ Relation.TransGen document.Inherits x.name c.name)
        ∧ ∀ x ∈ Outline.classesOf document.types,
          Relation.TransGen document.Inherits x.name c.name →
          ∀ d ∈ document.types, Name.capital d.name ≠ "I" ++ Name.capital c.name := by
  rw [Outline.interfaceProblems_eq_nil_iff]
  refine forall₂_congr fun c hc => and_congr ?_ ?_
  · exact forall_congr' fun habstract => implementers_ne_nil_iff hnames hkeeps hc habstract
  · rw [descendants_ne_nil_iff hnames hkeeps]
    exact ⟨fun h x hx hdescends => h ⟨x, hx, hdescends⟩,
      fun h ⟨x, hx, hdescends⟩ => h x hx hdescends⟩

/-! ## What rests on properties -/

variable (hproperties : (Outline.ofTypes document.types).propertyProblems = [])

include hproperties

theorem constructors_silent_iff :
    (Outline.ofTypes document.types).constructorProblems = [] ↔
      ∀ c ∈ Outline.classesOf document.types, ∀ decls, c.arguments = some decls →
        (decls.map (·.name)).Nodup ∧ (∀ d ∈ decls, Argument.Typed document.types d)
          ∧ ∀ name, name ∈ decls.map (·.name) ↔ document.HasProperty c.name name := by
  rw [Outline.constructorProblems_eq_nil_iff hnames]
  refine forall₂_congr fun c hc => forall₂_congr fun decls _ => ?_
  simp only [mem_names_attributesOf_iff hnames hkeeps hproperties hc]

theorem wireNames_silent_iff :
    (Outline.ofTypes document.types).wireNameProblems key = [] ↔
      ∀ c ∈ Outline.classesOf document.types,
        (∀ a d, document.Effective c.name a d → Name.camel d.name ≠ key)
        ∧ ∀ a d, document.Effective c.name a d → ∀ b e, document.Effective c.name b e →
          Name.camel d.name = Name.camel e.name → d.name = e.name := by
  rw [Outline.wireNameProblems_eq_nil_iff hnames]
  refine forall₂_congr fun c hc => and_congr ?_ ?_
  · exact forall_names_attributesOf_iff hnames hkeeps hproperties hc
      (P := fun name => Name.camel name ≠ key)
  · -- once for each of the two properties
    have hother := fun name : String => forall_names_attributesOf_iff hnames hkeeps hproperties hc
      (P := fun other => Name.camel name = Name.camel other → name = other)
    simp only [hother]
    exact forall_names_attributesOf_iff hnames hkeeps hproperties hc
      (P := fun name => ∀ b e, document.Effective c.name b e →
        Name.camel name = Name.camel e.name → name = e.name)

end Hierarchy

/-! ## The rules of a document -/

/-- The rules that a document keeps if it has a table, for a discriminator key. -/
structure Accepted (key : String) (document : Document) : Prop where
  types_distinct : (document.types.map fun d => Name.capital d.name).Nodup
  types_free : ∀ d ∈ document.types, Name.capital d.name ∉ reservedTypeNames
  literals_distinct : ∀ e, .enumeration e ∈ document.types →
    (e.literals.map fun l => Name.capital l.name).Nodup ∧ (e.literals.map (·.value)).Nodup
  parents_declared : ∀ c ∈ Outline.classesOf document.types,
    ∀ p ∈ c.parents, ∃ a ∈ Outline.classesOf document.types, a.name = p
  parents_distinct : ∀ c ∈ Outline.classesOf document.types, c.parents.Nodup
  acyclic : ∀ name, ¬Relation.TransGen document.Inherits name name
  /-- A class declares different names, and no two of its ancestors declare the same one. -/
  properties_distinct : ∀ c ∈ Outline.classesOf document.types,
    (c.properties.map (·.name)).Nodup ∧ ∀ a d, document.Effective c.name a d →
      ∀ b e, document.Effective c.name b e → d.name = e.name → a = b
  properties_free : ∀ c ∈ Outline.classesOf document.types, ∀ d ∈ c.properties,
    Name.camel d.name ∉ Attribute.reservedNames
  properties_typed : ∀ c ∈ Outline.classesOf document.types, ∀ d ∈ c.properties,
    ∃ type, FieldType.Spells document.types d.type type
  arguments_distinct : ∀ c ∈ Outline.classesOf document.types, ∀ decls,
    c.arguments = some decls → (decls.map (·.name)).Nodup
  /-- The types of arguments are known, and their defaults fit. -/
  arguments_typed : ∀ c ∈ Outline.classesOf document.types, ∀ decls,
    c.arguments = some decls → ∀ d ∈ decls, Argument.Typed document.types d
  arguments_match : ∀ c ∈ Outline.classesOf document.types, ∀ decls,
    c.arguments = some decls →
      ∀ name, name ∈ decls.map (·.name) ↔ document.HasProperty c.name name
  implemented : ∀ c ∈ Outline.classesOf document.types, c.kind.isConcrete = false →
    ∃ x ∈ Outline.classesOf document.types, x.kind.isConcrete = true
      ∧ Relation.TransGen document.Inherits x.name c.name
  /-- No type has the name of the interface of a class with descendants. -/
  interfaces_free : ∀ c ∈ Outline.classesOf document.types,
    ∀ x ∈ Outline.classesOf document.types, Relation.TransGen document.Inherits x.name c.name →
      ∀ d ∈ document.types, Name.capital d.name ≠ "I" ++ Name.capital c.name
  wire_free : ∀ c ∈ Outline.classesOf document.types, ∀ a d, document.Effective c.name a d →
    Name.camel d.name ≠ key
  wire_distinct : ∀ c ∈ Outline.classesOf document.types,
    ∀ a d, document.Effective c.name a d → ∀ b e, document.Effective c.name b e →
      Name.camel d.name = Name.camel e.name → d.name = e.name
  types_described : ∀ d ∈ document.types, document.DescribedType d
  described : document.Described none document.description

theorem Clean.accepted (h : document.Clean key) : document.Accepted key := by
  have hnames := h.names_nodup
  have hkeeps := h.keeps_eq
  obtain ⟨hdistinct, hfree, hliterals⟩ := (TypeDecl.declareAll_silent_iff document.types).mp h.types
  obtain ⟨hparents, hacyclic⟩ := (hierarchy_silent_iff hnames).mp ⟨h.parents, h.cycles⟩
  obtain ⟨hown, hapart⟩ := (properties_silent_iff hnames hkeeps).mp h.properties
  have hconstructors := (constructors_silent_iff hnames hkeeps h.properties).mp h.constructors
  have hinterfaces := (interfaces_silent_iff hnames hkeeps).mp h.interfaces
  have hwire := (wireNames_silent_iff hnames hkeeps h.properties).mp h.wireNames
  obtain ⟨htypes, hdocument⟩ :=
    (referenceProblems_eq_nil_iff hnames hkeeps h.properties hliterals).mp h.references
  exact {
    types_distinct := hdistinct
    types_free := hfree
    literals_distinct := fun e he => hliterals _ he
    parents_declared := fun c hc => (hparents c hc).1
    parents_distinct := fun c hc => (hparents c hc).2
    acyclic := hacyclic
    properties_distinct := fun c hc => ⟨(hown c hc).1, hapart c hc⟩
    properties_free := fun c hc d hd => ((hown c hc).2 d hd).1
    properties_typed := fun c hc d hd => ((hown c hc).2 d hd).2
    arguments_distinct := fun c hc decls hdecls => (hconstructors c hc decls hdecls).1
    arguments_typed := fun c hc decls hdecls => (hconstructors c hc decls hdecls).2.1
    arguments_match := fun c hc decls hdecls => (hconstructors c hc decls hdecls).2.2
    implemented := fun c hc => (hinterfaces c hc).1
    interfaces_free := fun c hc => (hinterfaces c hc).2
    wire_free := fun c hc => (hwire c hc).1
    wire_distinct := fun c hc => (hwire c hc).2
    types_described := htypes
    described := hdocument }

theorem Accepted.clean (h : document.Accepted key) : document.Clean key := by
  have hliterals : ∀ d ∈ document.types, d.LiteralsDistinct := by
    intro d hd
    cases d with
    | enumeration e => exact h.literals_distinct e hd
    | constrained | classType => trivial
  have hnames : (document.types.map (·.name)).Nodup := by
    refine List.Nodup.of_map Name.capital ?_
    rw [List.map_map]
    exact h.types_distinct
  -- pass by pass, each on what the passes before it leave
  obtain ⟨hparents, hcycles⟩ := (hierarchy_silent_iff hnames).mpr
    ⟨fun c hc => ⟨h.parents_declared c hc, h.parents_distinct c hc⟩, h.acyclic⟩
  have hkeeps := keeps_eq_of_silent hnames hparents hcycles
  have hproperties := (properties_silent_iff hnames hkeeps).mpr
    ⟨fun c hc => ⟨(h.properties_distinct c hc).1,
      fun d hd => ⟨h.properties_free c hc d hd, h.properties_typed c hc d hd⟩⟩,
      fun c hc => (h.properties_distinct c hc).2⟩
  exact {
    types := (TypeDecl.declareAll_silent_iff document.types).mpr
      ⟨h.types_distinct, h.types_free, hliterals⟩
    parents := hparents
    cycles := hcycles
    properties := hproperties
    constructors := (constructors_silent_iff hnames hkeeps hproperties).mpr
      fun c hc decls hdecls => ⟨h.arguments_distinct c hc decls hdecls,
        h.arguments_typed c hc decls hdecls, h.arguments_match c hc decls hdecls⟩
    interfaces := (interfaces_silent_iff hnames hkeeps).mpr
      fun c hc => ⟨h.implemented c hc, h.interfaces_free c hc⟩
    wireNames := (wireNames_silent_iff hnames hkeeps hproperties).mpr
      fun c hc => ⟨h.wire_free c hc, h.wire_distinct c hc⟩
    references := (referenceProblems_eq_nil_iff hnames hkeeps hproperties hliterals).mpr
      ⟨h.types_described, h.described⟩ }

end Document

/-- **A value of the right form has a table iff its document keeps the rules.** -/
theorem Model.load_iff_accepted (key : String) (value : Json)
    (h : Document.conforms value = true) :
    ∃ document, Document.decode? value = some document
      ∧ ((∃ table, Model.load key value = .ok table) ↔ document.Accepted key) := by
  obtain ⟨document, hd, -⟩ := Document.decode?_of_conforms h
  refine ⟨document, hd, ?_⟩
  constructor
  · rintro ⟨table, hload⟩
    obtain ⟨document', -, hd', hnone, -⟩ := Model.load_eq_ok_iff.mp hload
    obtain rfl := Option.some.inj (hd.symm.trans hd')
    exact (Document.problems_eq_nil_iff.mp hnone).accepted
  · intro haccepted
    have hnone := Document.problems_eq_nil_iff.mpr haccepted.clean
    exact ⟨document.table, Model.load_eq_ok_iff.mpr ⟨document, h, hd, hnone, rfl⟩⟩

/-- A document with a type of each kind, a diamond, arguments with defaults and references. -/
def gallery : Json :=
  .object [("name", .text "gallery"), ("description", .text "A :class:`picture`."),
    ("types", .array [
      .object [("kind", .text "enumeration"), ("name", .text "tone"), ("literals", .array [
        .object [("name", .text "dark"), ("value", .text "d")],
        .object [("name", .text "light"), ("value", .text "l")]])],
      .object [("kind", .text "constrainedPrimitive"), ("name", .text "label"),
        ("constrainee", .text "str")],
      .object [("kind", .text "concreteClass"), ("name", .text "picture"),
        ("inheritances", Json.texts ["owned", "dated"]),
        ("description", .text ":attr:`tone`, :attr:`entity.id`"),
        ("properties", .array [.object [("name", .text "tone"), ("type", .text "tone")]]),
        ("constructorArguments", .array [
          .object [("name", .text "tone"), ("type", .text "tone"), ("default", .text "dark")],
          .object [("name", .text "id"), ("type", .text "label"), ("default", .text "none")],
          .object [("name", .text "owner"), ("type", .text "Optional[str]"), ("default", .null)],
          .object [("name", .text "years"), ("type", .text "List[int]")]])],
      .object [("kind", .text "abstractClass"), ("name", .text "owned"),
        ("inheritances", Json.texts ["entity"]),
        ("properties", .array [.object [("name", .text "owner"), ("type", .text "str")]])],
      .object [("kind", .text "abstractClass"), ("name", .text "dated"),
        ("inheritances", Json.texts ["entity"]),
        ("properties", .array [.object [("name", .text "years"), ("type", .text "List[int]")]])],
      .object [("kind", .text "abstractClass"), ("name", .text "entity"),
        ("properties", .array [.object [("name", .text "id"), ("type", .text "label")]])]])]

theorem gallery_accepted : Document.conforms gallery = true
    ∧ ∃ document, Document.decode? gallery = some document
      ∧ ((∃ table, Model.load "modelType" gallery = .ok table) ↔ document.Accepted "modelType")
      ∧ document.Accepted "modelType" := by
  have hconforms : Document.conforms gallery = true := by decide +kernel
  have hloads : (Model.load "modelType" gallery).toOption.isSome = true := by decide +kernel
  obtain ⟨document, hd, hiff⟩ := Model.load_iff_accepted "modelType" gallery hconforms
  exact ⟨hconforms, document, hd, hiff, hiff.mp (Model.exists_table hloads)⟩

end WireModel
