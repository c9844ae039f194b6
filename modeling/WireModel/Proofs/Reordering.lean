import WireModel.Proofs.Inclusion
import WireModel.Proofs.TypeLists

/-!
# The order of types

Types are resolved in the order in which a document declares them: of two names that clash the
first one stays, cycles are looked for from the first class on, and properties are flattened when
a class is first asked for. None of it is seen in the end.

## The architecture

* **`Document.Accepted.reordered`**: the rules of a document speak of its types as a set, so a
  document that keeps them does so in any order.
* **`Document.Clean.rearranges`**: the entries are those that `Inclusion` compares, here in both
  directions. What is left are the lists that name other classes: descendants and implementers are
  decided by the chains of parents, so they are the same sets, and each is listed in the order of
  its own document.
* **`Model.order_irrelevant`** says both of values.
-/

namespace WireModel

/-! ## Reordered documents -/

/-- `other` declares the types of `document` in some order, and says the same otherwise. -/
structure Document.Reorders (document other : Document) : Prop where
  name : other.name = document.name
  version : other.version = document.version
  description : other.description = document.description
  types : document.types.Perm other.types

namespace Document

variable {key : String} {document other : Document}

namespace Reorders

theorem symm (hr : document.Reorders other) : other.Reorders document :=
  ⟨hr.name.symm, hr.version.symm, hr.description.symm, hr.types.symm⟩

theorem mem_classesOf_iff (hr : document.Reorders other) {c : ClassDecl} :
    c ∈ Outline.classesOf other.types ↔ c ∈ Outline.classesOf document.types :=
  (hr.types.filterMap _).symm.mem_iff

theorem mem_names_iff (hr : document.Reorders other) {name : String} :
    name ∈ other.types.map (·.name) ↔ name ∈ document.types.map (·.name) :=
  (hr.types.map _).symm.mem_iff

section Names

variable (hr : document.Reorders other) (hnames : (document.types.map (·.name)).Nodup)

include hr hnames

theorem names_nodup : (other.types.map (·.name)).Nodup := (hr.types.map _).nodup_iff.mp hnames

/-- A name says which class is meant, so the hierarchy does not depend on the order. -/
theorem inherits_eq : other.Inherits = document.Inherits := by
  have hnames' := hr.names_nodup hnames
  have hclass : ∀ name,
      Outline.classOf? other.types name = Outline.classOf? document.types name := by
    intro name
    refine Option.ext fun c => ?_
    rw [Outline.classOf?_eq_some_iff hnames, Outline.classOf?_eq_some_iff hnames',
      hr.mem_classesOf_iff]
  funext child parent
  rw [Inherits, Inherits, parentsOf, parentsOf, hclass]

theorem effective_eq : other.Effective = document.Effective := by
  funext name a d
  rw [Effective, Effective, hr.inherits_eq hnames, hr.mem_classesOf_iff]

theorem hasProperty_eq : other.HasProperty = document.HasProperty := by
  funext name property
  rw [HasProperty, HasProperty, hr.effective_eq hnames]

theorem described {within prose : Option String} (h : document.Described within prose) :
    other.Described within prose := by
  intro s hs r hr'
  cases h s hs r hr' with
  | type hname => exact .type (hr.mem_names_iff.mpr hname)
  | property howner hproperty =>
    exact .property howner (hr.hasProperty_eq hnames ▸ hproperty)
  | own hplain hwithin hproperty =>
    exact .own hplain hwithin (hr.hasProperty_eq hnames ▸ hproperty)

theorem describedType {d : TypeDecl} (h : document.DescribedType d) : other.DescribedType d := by
  cases d with
  | enumeration e => exact ⟨hr.described hnames h.1, fun l hl => hr.described hnames (h.2 l hl)⟩
  | constrained c => exact hr.described hnames h
  | classType c => exact ⟨hr.described hnames h.1, fun p hp => hr.described hnames (h.2 p hp)⟩

end Names

end Reorders

/-- **A document keeps its rules in any order of its types.** -/
theorem Accepted.reordered (h : document.Accepted key) (hr : document.Reorders other) :
    other.Accepted key := by
  have hnames := h.clean.names_nodup
  have hsub : document.types ⊆ other.types := hr.types.subset
  have hinherits := hr.inherits_eq hnames
  have heffective := hr.effective_eq hnames
  exact {
    types_distinct := (hr.types.map _).nodup_iff.mp h.types_distinct
    types_free := fun d hd => h.types_free d (hr.types.mem_iff.mpr hd)
    literals_distinct := fun e he => h.literals_distinct e (hr.types.mem_iff.mpr he)
    parents_declared := by
      simpa only [hr.mem_classesOf_iff] using h.parents_declared
    parents_distinct := fun c hc => h.parents_distinct c (hr.mem_classesOf_iff.mp hc)
    acyclic := hinherits ▸ h.acyclic
    properties_distinct := by
      simpa only [hr.mem_classesOf_iff, heffective] using h.properties_distinct
    properties_free := fun c hc => h.properties_free c (hr.mem_classesOf_iff.mp hc)
    properties_typed := fun c hc d hd =>
      (h.properties_typed c (hr.mem_classesOf_iff.mp hc) d hd).imp
        fun _ htype => htype.of_subset hsub
    arguments_distinct := fun c hc => h.arguments_distinct c (hr.mem_classesOf_iff.mp hc)
    arguments_typed := fun c hc decls hdecls d hd => Argument.Typed.of_subset hsub
      (h.arguments_typed c (hr.mem_classesOf_iff.mp hc) decls hdecls d hd)
    arguments_match := by
      simpa only [hr.mem_classesOf_iff, hr.hasProperty_eq hnames] using h.arguments_match
    implemented := by
      simpa only [hr.mem_classesOf_iff, hinherits] using h.implemented
    interfaces_free := by
      simpa only [hr.mem_classesOf_iff, hinherits, hr.types.mem_iff] using h.interfaces_free
    wire_free := by
      simpa only [hr.mem_classesOf_iff, heffective] using h.wire_free
    wire_distinct := by
      simpa only [hr.mem_classesOf_iff, heffective] using h.wire_distinct
    types_described := fun d hd =>
      hr.describedType hnames (h.types_described d (hr.types.mem_iff.mpr hd))
    described := by
      rw [hr.description]
      exact hr.described hnames h.described }

/-! ## Chains of parents in both orders -/

namespace Clean

variable (h : document.Clean key) (h' : other.Clean key) (hr : document.Reorders other)

include h h'

/-- Lists that name classes, each once, are the same in both orders if their members are. -/
theorem perm_of_mem_iff {names names' : List String}
    (hsub : names.Sublist ((Outline.classesOf document.types).map (·.name)))
    (hsub' : names'.Sublist ((Outline.classesOf other.types).map (·.name)))
    (hmem : ∀ name, name ∈ names ↔ name ∈ names') : names.Perm names' :=
  (List.perm_ext_iff_of_nodup ((Outline.classesOf_names_nodup h.names_nodup).sublist hsub)
    ((Outline.classesOf_names_nodup h'.names_nodup).sublist hsub')).mpr hmem

include hr

theorem mem_descendantsOf_iff {c : ClassDecl} (hc : c ∈ Outline.classesOf document.types)
    {name : String} :
    c.name ∈ (Outline.ofTypes other.types).descendantsOf name ↔
      c.name ∈ (Outline.ofTypes document.types).descendantsOf name := by
  rw [Outline.mem_descendantsOf h.names_nodup hc,
    Outline.mem_descendantsOf h'.names_nodup (hr.mem_classesOf_iff.mpr hc), h.keeps_eq, h'.keeps_eq,
    hr.inherits_eq h.names_nodup]

theorem descendantsOf_perm (name : String) :
    ((Outline.ofTypes document.types).descendantsOf name).Perm
      ((Outline.ofTypes other.types).descendantsOf name) := by
  refine h.perm_of_mem_iff h' (Outline.descendantsOf_sublist _ name)
    (Outline.descendantsOf_sublist _ name) fun d => ?_
  constructor
  · intro hd
    obtain ⟨c, hc, rfl⟩ := Outline.exists_of_mem_descendantsOf hd
    exact (h.mem_descendantsOf_iff h' hr hc).mpr hd
  · intro hd
    obtain ⟨c, hc, rfl⟩ := Outline.exists_of_mem_descendantsOf hd
    exact (h.mem_descendantsOf_iff h' hr (hr.mem_classesOf_iff.mp hc)).mp hd

theorem implementersOf_perm (name : String) :
    ((Outline.ofTypes document.types).implementersOf name).Perm
      ((Outline.ofTypes other.types).implementersOf name) := by
  refine h.perm_of_mem_iff h' (Outline.implementersOf_sublist _ name)
    (Outline.implementersOf_sublist _ name) fun d => ?_
  -- an implementer is a concrete class, this one or a descendant
  rw [Outline.mem_implementersOf, Outline.mem_implementersOf,
    (h.descendantsOf_perm h' hr name).mem_iff]
  exact exists_congr fun c => and_congr_left' hr.mem_classesOf_iff.symm

end Clean

end Document

/-! ## Tables in another order -/

/-- Two entries say the same, but for the order in which descendants are listed. -/
inductive NamedType.Alike : NamedType → NamedType → Prop where
  | enumeration (e : Enumeration) : Alike (.enumeration e) (.enumeration e)
  | constrained (c : Constrained) : Alike (.constrained c) (.constrained c)
  | classType {c : Class} {descendants : List String} (h : c.descendants.Perm descendants) :
      Alike (.classType c) (.classType { c with descendants })

/-- All that `t` says about a type is said by `other`, in an order of its own. -/
structure Table.Rearranges (t other : Table) : Prop where
  name : other.name = t.name
  version : other.version = t.version
  description : other.description = t.description
  names : (t.types.map (·.name)).Perm (other.types.map (·.name))
  entries : ∀ name s, t.find? name = some s → ∃ s', other.find? name = some s' ∧ s.Alike s'
  interfaces : ∀ name i, t.interface? name = some i →
    ∃ implementers, other.interface? name = some { i with implementers }
      ∧ i.implementers.Perm implementers
  discriminated : ∀ name, other.isDiscriminated name = t.isDiscriminated name

/-- A table lists types, descendants and implementers in the order of the document. -/
structure Document.Orders (document : Document) (t : Table) : Prop where
  types : t.types.map (·.name) = document.types.map (·.name)
  descendants : ∀ c ∈ t.classes, c.descendants.Sublist (document.types.map (·.name))
  implementers : ∀ i ∈ t.interfaces, i.implementers.Sublist (document.types.map (·.name))

namespace Document.Clean

variable {key : String} {document other : Document}

theorem orders (h : document.Clean key) : document.Orders document.table where
  types := h.names_types_table
  descendants := h.forall_classes fun c _ =>
    (Outline.descendantsOf_sublist _ c.name).trans (Outline.classesOf_names_sublist document.types)
  implementers := by
    intro i hi
    rw [h.interfaces_table] at hi
    obtain ⟨c, -, -, rfl⟩ := Outline.mem_interfaces.mp hi
    exact (Outline.implementersOf_sublist _ c.name).trans
      (Outline.classesOf_names_sublist document.types)

section Both

variable (h : document.Clean key) (h' : other.Clean key) (hr : document.Reorders other)

include h h' hr

theorem typeOf_alike {d : TypeDecl} (hd : d ∈ document.types) :
    ((Outline.ofTypes document.types).typeOf d).Alike ((Outline.ofTypes other.types).typeOf d) := by
  have hsub : document.types ⊆ other.types := hr.types.subset
  cases d with
  | enumeration e =>
    rw [h.typeOf_of_subset h' hsub hd rfl]
    exact .enumeration _
  | constrained c =>
    rw [h.typeOf_of_subset h' hsub hd rfl]
    exact .constrained _
  | classType c =>
    rw [Outline.typeOf, Outline.typeOf,
      h.classOf_of_subset h' hsub (Outline.mem_classesOf.mpr hd)]
    exact .classType (h.descendantsOf_perm h' hr c.name)

/-- An interface of one order is an interface of the other, with the same implementers. -/
theorem exists_interface_of_reorders {i : Interface} (hi : i ∈ document.table.interfaces) :
    ∃ implementers, ({ i with implementers } : Interface) ∈ other.table.interfaces
      ∧ i.implementers.Perm implementers := by
  rw [h.interfaces_table] at hi
  rw [h'.interfaces_table]
  obtain ⟨c, hc, hne, rfl⟩ := Outline.mem_interfaces.mp hi
  refine ⟨_, Outline.mem_interfaces.mpr ⟨c, hr.mem_classesOf_iff.mpr hc, ?_, rfl⟩,
    h.implementersOf_perm h' hr c.name⟩
  intro hnil
  -- a class has descendants in both orders or in neither
  have hperm := h.descendantsOf_perm h' hr c.name
  rw [hnil] at hperm
  exact hne hperm.eq_nil

theorem isDiscriminated_of_reorders {name : String}
    (hname : document.table.isDiscriminated name = true) :
    other.table.isDiscriminated name = true := by
  rw [Table.isDiscriminated, List.any_eq_true] at hname ⊢
  obtain ⟨i, hi, hcontains⟩ := hname
  obtain ⟨implementers, hi', hperm⟩ := h.exists_interface_of_reorders h' hr hi
  rw [List.contains_iff_mem, hperm.mem_iff] at hcontains
  exact ⟨_, hi', List.contains_iff_mem.mpr hcontains⟩

/-- **The tables of two orders say the same.** -/
theorem rearranges : document.table.Rearranges other.table where
  name := hr.name
  version := hr.version
  description := by
    show other.outline.describe none other.description
      = document.outline.describe none document.description
    rw [h.outline_eq, h'.outline_eq, hr.description]
    exact h.describe_of_subset h' hr.types.subset h.accepted.described
  names := by
    rw [h.names_types_table, h'.names_types_table]
    exact hr.types.map _
  entries := by
    intro name s hfind
    obtain ⟨hs, rfl⟩ := h.find?_table_iff.mp hfind
    rw [h.types_table] at hs
    obtain ⟨d, hd, rfl⟩ := List.mem_map.mp hs
    rw [Outline.name_typeOf]
    exact ⟨_, h'.find?_typeOf (hr.types.subset hd), h.typeOf_alike h' hr hd⟩
  interfaces := by
    intro name i hfind
    obtain ⟨hi, hname⟩ := h.interface?_table_iff.mp hfind
    obtain ⟨implementers, hi', hperm⟩ := h.exists_interface_of_reorders h' hr hi
    exact ⟨implementers, h'.interface?_table_iff.mpr ⟨hi', hname⟩, hperm⟩
  discriminated := by
    intro name
    rw [Bool.eq_iff_iff]
    exact ⟨h'.isDiscriminated_of_reorders h hr.symm, h.isDiscriminated_of_reorders h' hr⟩

end Both

end Document.Clean

/-! ## Values -/

theorem Document.exists_reorders {members : Json.Members} {items items' : List Json}
    {document : Document} (hitems : members.get? "types" = some (.array items))
    (hperm : items.Perm items') (hd : decode? (.object members) = some document) :
    ∃ other, decode? (.object (members.set "types" (.array items'))) = some other
      ∧ document.Reorders other := by
  obtain ⟨types, htypes, hperm⟩ := exists_perm_of_mapM hperm (mapM_types_of_decode? hitems hd)
  refine ⟨{ document with types }, ?_, rfl, rfl, rfl, hperm⟩
  rw [decode?_set_types hitems hd, htypes]
  rfl

/-- **The order of types does not matter**: a value of the right form loads iff it does with its
types in any other order, and then the two tables say the same, each in the order of its own
document. -/
theorem Model.order_irrelevant (key : String) {members : Json.Members} {items items' : List Json}
    (hconforms : Document.conforms (.object members) = true)
    (hitems : members.get? "types" = some (.array items)) (hperm : items.Perm items') :
    ∃ document other, Document.decode? (.object members) = some document
      ∧ Document.decode? (.object (members.set "types" (.array items'))) = some other
      ∧ ((∃ table, Model.load key (.object members) = .ok table) ↔
        ∃ table', Model.load key (.object (members.set "types" (.array items'))) = .ok table')
      ∧ ∀ table table', Model.load key (.object members) = .ok table →
        Model.load key (.object (members.set "types" (.array items'))) = .ok table' →
        table.Rearranges table' ∧ table'.Rearranges table
          ∧ document.Orders table ∧ other.Orders table' := by
  have hconforms' := Document.conforms_set_types hitems hconforms hperm.symm.subset
  obtain ⟨document, hd, -⟩ := Document.decode?_of_conforms hconforms
  obtain ⟨other, hd', hr⟩ := Document.exists_reorders hitems hperm hd
  refine ⟨document, other, hd, hd', ?_, ?_⟩
  · rw [Model.exists_table_iff hconforms hd, Model.exists_table_iff hconforms' hd']
    exact ⟨fun h => (h.accepted.reordered hr).clean, fun h => (h.accepted.reordered hr.symm).clean⟩
  · intro table table' hload hload'
    obtain ⟨document₁, hd₁, hclean, -, rfl⟩ := Model.clean_of_load hload
    obtain ⟨other₁, hd₁', hclean', -, rfl⟩ := Model.clean_of_load hload'
    obtain rfl := Option.some.inj (hd.symm.trans hd₁)
    obtain rfl := Option.some.inj (hd'.symm.trans hd₁')
    exact ⟨hclean.rearranges hclean' hr, hclean'.rearranges hclean hr.symm, hclean.orders,
      hclean'.orders⟩

/-- The gallery of pictures, from its last type to its first. -/
theorem gallery_reordered : ∃ (members : Json.Members) (items : List Json),
    gallery = .object members
    ∧ members.get? "types" = some (.array items) ∧ Document.conforms gallery = true
    ∧ ∃ document other, Document.decode? gallery = some document
      ∧ Document.decode? (.object (members.set "types" (.array items.reverse))) = some other
      ∧ ∃ table table', Model.load "modelType" gallery = .ok table
        ∧ Model.load "modelType" (.object (members.set "types" (.array items.reverse)))
          = .ok table'
        ∧ table.Rearranges table' ∧ table'.Rearranges table
        ∧ document.Orders table ∧ other.Orders table' := by
  have hconforms : Document.conforms gallery = true := by decide +kernel
  have hloads : (Model.load "modelType" gallery).toOption.isSome = true := by decide +kernel
  obtain ⟨document, other, hd, hd', hiff, hsame⟩ :=
    Model.order_irrelevant "modelType" hconforms rfl (List.reverse_perm _).symm
  obtain ⟨table, hload⟩ := Model.exists_table hloads
  obtain ⟨table', hload'⟩ := hiff.mp ⟨table, hload⟩
  exact ⟨_, _, rfl, rfl, hconforms, document, other, hd, hd', table, table', hload, hload',
    hsame table table' hload hload'⟩

end WireModel
