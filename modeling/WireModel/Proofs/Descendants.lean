import WireModel.Proofs.Loading

/-!
# Descendants, interfaces and the discriminator

Descendants are found from the ancestors of each class, interfaces from the descendants, and the
discriminator from the implementers of interfaces. In the end all of it is the transitive closure
of the parents that a document lists.

* **`Outline.mem_descendantsOf`**: descendants are the classes from which parents lead here.
* **`Outline.interfaceProblems_eq_nil_iff`**: there is nothing to say about interfaces iff every
  abstract class has a concrete descendant and no type takes the name of an interface.
* **`Model.descendants_closed`**: the table of a model that loads, as `Document.Descent`.
-/

namespace WireModel

namespace Outline

section

variable (o : Outline) (name : String)

theorem descendantsOf_sublist : (o.descendantsOf name).Sublist (o.classes.map (·.name)) :=
  List.filter_sublist.map _

theorem implementersOf_sublist : (o.implementersOf name).Sublist (o.classes.map (·.name)) :=
  List.filter_sublist.map _

theorem mem_implementersOf {o : Outline} {name other : String} :
    other ∈ o.implementersOf name ↔ ∃ c ∈ o.classes, c.name = other ∧ c.kind.isConcrete = true
      ∧ (other = name ∨ other ∈ o.descendantsOf name) := by
  rw [implementersOf, List.mem_map]
  constructor
  · rintro ⟨c, hc, rfl⟩
    rw [List.mem_filter, Bool.and_eq_true, List.contains_iff_mem, List.mem_cons] at hc
    exact ⟨c, hc.1, rfl, hc.2.1, hc.2.2⟩
  · rintro ⟨c, hc, rfl, hconcrete, hmember⟩
    refine ⟨c, List.mem_filter.mpr ⟨hc, ?_⟩, rfl⟩
    rw [Bool.and_eq_true, List.contains_iff_mem, List.mem_cons]
    exact ⟨hconcrete, hmember⟩

end

variable {types : List TypeDecl}

/-- **Descendants are the classes from which parents lead here.** -/
theorem mem_descendantsOf (hnames : (types.map (·.name)).Nodup) {c : ClassDecl}
    (hc : c ∈ classesOf types) {name : String} :
    c.name ∈ (ofTypes types).descendantsOf name ↔
      Relation.TransGen (ofTypes types).Keeps c.name name := by
  obtain ⟨n, hn, hname, -⟩ := exists_node hnames hc
  have hancestors := Hierarchy.mem_ancestors_iff
    (Hierarchy.parentsFirst_trace (wellLinked_nodesOf hnames)) n hn name
  rw [hname] at hancestors
  rw [keeps_eq hnames, show (ofTypes types).order
    = Hierarchy.order (Hierarchy.trace (nodesOf types)) from rfl, ← hancestors,
    descendantsOf, descendantsIn, List.mem_map]
  constructor
  · rintro ⟨d, hd, hdc⟩
    have hcontains := (List.mem_filter.mp hd).2
    rw [hdc, List.contains_iff_mem] at hcontains
    exact hcontains
  · intro h
    exact ⟨c, List.mem_filter.mpr ⟨hc, List.contains_iff_mem.mpr h⟩, rfl⟩

/-- What is a descendant is a class. -/
theorem exists_of_mem_descendantsOf {name other : String}
    (h : other ∈ (ofTypes types).descendantsOf name) :
    ∃ c ∈ classesOf types, c.name = other :=
  List.mem_map.mp (((ofTypes types).descendantsOf_sublist name).subset h)

theorem not_mem_descendantsOf_self (hnames : (types.map (·.name)).Nodup) (name : String) :
    name ∉ (ofTypes types).descendantsOf name := by
  intro h
  obtain ⟨c, hc, rfl⟩ := exists_of_mem_descendantsOf h
  have hcycle := (mem_descendantsOf hnames hc).mp h
  rw [keeps_eq hnames] at hcycle
  exact (Hierarchy.parentsFirst_trace (wellLinked_nodesOf hnames)).acyclic c.name hcycle

theorem mem_implementersOf_of_mem (hnames : (types.map (·.name)).Nodup) {c : ClassDecl}
    (hc : c ∈ classesOf types) {name : String} :
    c.name ∈ (ofTypes types).implementersOf name ↔ c.kind.isConcrete = true
      ∧ (c.name = name ∨ c.name ∈ (ofTypes types).descendantsOf name) := by
  rw [mem_implementersOf]
  constructor
  · rintro ⟨d, hd, hname, hconcrete, hmember⟩
    obtain rfl := class_eq_of_name_eq hnames hd hc hname
    exact ⟨hconcrete, hmember⟩
  · rintro ⟨hconcrete, hmember⟩
    exact ⟨c, hc, rfl, hconcrete, hmember⟩

theorem mem_interfaces {o : Outline} {i : Interface} :
    i ∈ o.interfaces ↔ ∃ c ∈ o.classes, o.descendantsOf c.name ≠ []
      ∧ i = ⟨c.name, o.implementersOf c.name⟩ := by
  rw [interfaces, List.mem_map]
  constructor
  · rintro ⟨c, hc, rfl⟩
    obtain ⟨hc, hne⟩ := List.mem_filter.mp hc
    exact ⟨c, hc, by simpa using hne, rfl⟩
  · rintro ⟨c, hc, hne, rfl⟩
    exact ⟨c, List.mem_filter.mpr ⟨hc, by simpa using hne⟩, rfl⟩

/-- **A class implements an interface** iff it is concrete and has a parent or a descendant: the
interface is that of the parent, or its own. -/
theorem implements_iff (hnames : (types.map (·.name)).Nodup) {c : ClassDecl}
    (hc : c ∈ classesOf types) :
    (∃ i ∈ (ofTypes types).interfaces, c.name ∈ i.implementers) ↔ c.kind.isConcrete = true
      ∧ ((ofTypes types).parentsOf c.name ≠ [] ∨ (ofTypes types).descendantsOf c.name ≠ []) := by
  constructor
  · rintro ⟨i, hi, himplements⟩
    obtain ⟨base, hbase, hne, rfl⟩ := mem_interfaces.mp hi
    obtain ⟨hconcrete, hmember⟩ := (mem_implementersOf_of_mem hnames hc).mp himplements
    refine ⟨hconcrete, ?_⟩
    rcases hmember with hself | hdescends
    · right
      rw [hself]
      exact hne
    · -- the chain to the base begins with a parent
      left
      obtain ⟨parent, hparent, -⟩ := Relation.TransGen.head'_iff.mp
        ((mem_descendantsOf hnames hc).mp hdescends)
      exact List.ne_nil_of_mem hparent
  · rintro ⟨hconcrete, hparents | hdescendants⟩
    · -- the interface of the parent
      obtain ⟨parent, hparent⟩ := List.exists_mem_of_ne_nil _ hparents
      obtain ⟨p, hp, rfl⟩ := List.mem_map.mp (parentsOf_known hnames hparent)
      have hdescends := (mem_descendantsOf hnames hc).mpr (.single hparent)
      exact ⟨_, mem_interfaces.mpr ⟨p, hp, List.ne_nil_of_mem hdescends, rfl⟩,
        (mem_implementersOf_of_mem hnames hc).mpr ⟨hconcrete, .inr hdescends⟩⟩
    · exact ⟨_, mem_interfaces.mpr ⟨c, hc, hdescendants, rfl⟩,
        (mem_implementersOf_of_mem hnames hc).mpr ⟨hconcrete, .inl rfl⟩⟩

theorem interfaceClash?_eq_none_iff {o : Outline} {name : String} :
    o.interfaceClash? name = none ↔
      ∀ d ∈ o.types, Name.capital d.name ≠ "I" ++ Name.capital name := by
  rw [interfaceClash?, Option.map_eq_none_iff, List.find?_eq_none]
  simp only [beq_iff_eq, ne_eq]

/-- **There is nothing to say about interfaces** iff every abstract class has an implementer and
no type has the name of an interface. -/
theorem interfaceProblems_eq_nil_iff {o : Outline} :
    o.interfaceProblems = [] ↔ ∀ c ∈ o.classes,
      (c.kind.isConcrete = false → o.implementersOf c.name ≠ [])
      ∧ (o.descendantsOf c.name ≠ [] →
        ∀ d ∈ o.types, Name.capital d.name ≠ "I" ++ Name.capital c.name) := by
  rw [interfaceProblems, List.flatMap_eq_nil_iff]
  refine forall₂_congr fun c _ => ?_
  rw [interfaceProblemsOf, List.append_eq_nil_iff]
  refine and_congr ?_ ?_
  · rw [ite_eq_right_iff]
    simp
  · by_cases hnone : (o.descendantsOf c.name).isEmpty = true
    · rw [if_pos hnone]
      simp [List.isEmpty_iff.mp hnone]
    · rw [if_neg hnone, ← interfaceClash?_eq_none_iff]
      have hne : o.descendantsOf c.name ≠ [] := fun h => hnone (List.isEmpty_iff.mpr h)
      cases hclash : o.interfaceClash? c.name with
      | none => simp
      | some clash => simp [hne]

end Outline

/-! ## The table -/

/-- The classes and interfaces of a table follow from the parents that the document lists. -/
structure Document.Descent (document : Document) (table : Table) : Prop where
  classes : table.classes.map (·.name) = (Outline.classesOf document.types).map (·.name)
  parents : ∀ c ∈ table.classes, c.parents = document.parentsOf c.name
  descendants : ∀ a ∈ table.classes, ∀ c ∈ table.classes,
    c.name ∈ a.descendants ↔ Relation.TransGen document.Inherits c.name a.name
  ordered : ∀ a ∈ table.classes, a.descendants.Sublist (table.classes.map (·.name))
  distinct : (table.classes.map (·.name)).Nodup
  nodup : ∀ a ∈ table.classes, a.descendants.Nodup
  irreflexive : ∀ a ∈ table.classes, a.name ∉ a.descendants
  interface_iff : ∀ a ∈ table.classes, (table.interface? a.name).isSome ↔ a.descendants ≠ []
  interfaces : table.interfaces.map (·.name)
    = (table.classes.filter fun a => !a.descendants.isEmpty).map (·.name)
  implementers : ∀ a ∈ table.classes, ∀ i, table.interface? a.name = some i →
    i.implementers.Sublist (table.classes.map (·.name)) ∧ i.implementers ≠ []
      ∧ ∀ c ∈ table.classes, c.name ∈ i.implementers ↔
        c.isConcrete = true ∧ (c.name = a.name ∨ c.name ∈ a.descendants)
  discriminated : ∀ c ∈ table.classes, table.isDiscriminated c.name = true ↔
    c.isConcrete = true ∧ (c.parents ≠ [] ∨ c.descendants ≠ [])

namespace Document.Clean

variable {key : String} {document : Document}

theorem interfaces_table (h : document.Clean key) :
    document.table.interfaces = (Outline.ofTypes document.types).interfaces := by
  rw [table, TypeDecl.declareAll_of_silent h.types]

theorem names_interfaces_table (h : document.Clean key) :
    document.table.interfaces.map (·.name)
      = (document.table.classes.filter fun a => !a.descendants.isEmpty).map (·.name) := by
  rw [h.interfaces_table, h.classes_table, List.filter_map, Outline.interfaces, List.map_map,
    List.map_map]
  rfl

/-- **A search by name finds the interface of that name.** -/
theorem interface?_table_iff (h : document.Clean key) {name : String} {i : Interface} :
    document.table.interface? name = some i ↔ i ∈ document.table.interfaces ∧ i.name = name := by
  have hnodup : (document.table.interfaces.map (·.name)).Nodup := by
    rw [h.names_interfaces_table]
    refine List.Nodup.sublist (List.filter_sublist.map _) ?_
    rw [h.names_classes_table]
    exact Outline.classesOf_names_nodup h.names_nodup
  exact find?_key_eq_some_iff hnodup

/-- A class has an interface iff it has descendants. -/
theorem interface?_table (h : document.Clean key) {a : ClassDecl}
    (ha : a ∈ Outline.classesOf document.types) :
    document.table.interface? a.name
      = if (Outline.ofTypes document.types).descendantsOf a.name = [] then none
        else some ⟨a.name, (Outline.ofTypes document.types).implementersOf a.name⟩ := by
  split
  · next hnone =>
    refine find?_key_eq_none_iff.mpr fun hmem => ?_
    obtain ⟨i, hi, hname⟩ := List.mem_map.mp hmem
    rw [h.interfaces_table] at hi
    obtain ⟨c, -, hne, rfl⟩ := Outline.mem_interfaces.mp hi
    rw [show c.name = a.name from hname] at hne
    exact hne hnone
  · next hne =>
    refine h.interface?_table_iff.mpr ⟨?_, rfl⟩
    rw [h.interfaces_table]
    exact Outline.mem_interfaces.mpr ⟨a, ha, hne, rfl⟩

/-- An interface has implementers: the class itself, or else the class is abstract. -/
theorem implementersOf_ne_nil (h : document.Clean key) {a : ClassDecl}
    (ha : a ∈ Outline.classesOf document.types) :
    (Outline.ofTypes document.types).implementersOf a.name ≠ [] := by
  -- a concrete class implements its own interface, an abstract one is checked
  cases hconcrete : a.kind.isConcrete with
  | true =>
    exact List.ne_nil_of_mem (Outline.mem_implementersOf.mpr ⟨a, ha, rfl, hconcrete, .inl rfl⟩)
  | false =>
    exact (Outline.interfaceProblems_eq_nil_iff.mp h.interfaces a ha).1 hconcrete

end Document.Clean

/-- **Descendants, interfaces and the discriminator follow from the transitive closure of the
listed parents.** -/
theorem Model.descendants_closed {key : String} {value : Json} {table : Table}
    (h : Model.load key value = .ok table) :
    ∃ document, Document.decode? value = some document ∧ document.Descent table := by
  obtain ⟨document, -, hd, hnone, rfl⟩ := Model.load_eq_ok_iff.mp h
  have hclean := Document.problems_eq_nil_iff.mp hnone
  refine ⟨document, hd, ?_⟩
  have hnodup := Outline.classesOf_names_nodup hclean.names_nodup
  constructor
  case classes => exact hclean.names_classes_table
  case parents =>
    refine hclean.forall_classes fun c hc => ?_
    rw [← hclean.parentsOf_eq]
    rfl
  case descendants =>
    refine hclean.forall_classes fun a ha => hclean.forall_classes fun c hc => ?_
    rw [← hclean.keeps_eq]
    exact Outline.mem_descendantsOf hclean.names_nodup hc
  case ordered =>
    refine hclean.forall_classes fun a ha => ?_
    rw [hclean.names_classes_table]
    exact Outline.descendantsOf_sublist _ a.name
  case distinct =>
    rw [hclean.names_classes_table]
    exact hnodup
  case nodup =>
    exact hclean.forall_classes fun a ha => hnodup.sublist (Outline.descendantsOf_sublist _ a.name)
  case irreflexive =>
    exact hclean.forall_classes fun a ha =>
      Outline.not_mem_descendantsOf_self hclean.names_nodup a.name
  case interface_iff =>
    refine hclean.forall_classes fun a ha => ?_
    show (document.table.interface? a.name).isSome ↔
      (Outline.ofTypes document.types).descendantsOf a.name ≠ []
    rw [hclean.interface?_table ha]
    split
    · next hnone => simp [hnone]
    · next hne => simp [hne]
  case interfaces => exact hclean.names_interfaces_table
  case implementers =>
    refine hclean.forall_classes fun a ha i hi => ?_
    rw [show ((Outline.ofTypes document.types).classOf a).name = a.name from rfl,
      hclean.interface?_table ha] at hi
    split at hi
    · cases hi
    · obtain rfl := Option.some.inj hi
      refine ⟨?_, hclean.implementersOf_ne_nil ha, hclean.forall_classes fun c hc => ?_⟩
      · rw [hclean.names_classes_table]
        exact Outline.implementersOf_sublist _ a.name
      · exact Outline.mem_implementersOf_of_mem hclean.names_nodup hc
  case discriminated =>
    refine hclean.forall_classes fun c hc => ?_
    show document.table.isDiscriminated c.name = true ↔ _
    rw [Table.isDiscriminated, hclean.interfaces_table, List.any_eq_true]
    simp only [List.contains_iff_mem]
    exact Outline.implements_iff hclean.names_nodup hc

/-- A concrete class with two parents, one of them concrete, and a class that stands alone. -/
def figures : Json :=
  .object [("name", .text "figures"), ("types", .array [
    .object [("kind", .text "concreteClass"), ("name", .text "ring"),
      ("inheritances", Json.texts ["circle", "marked"])],
    .object [("kind", .text "abstractClass"), ("name", .text "shape")],
    .object [("kind", .text "concreteClass"), ("name", .text "circle"),
      ("inheritances", Json.texts ["shape"])],
    .object [("kind", .text "abstractClass"), ("name", .text "marked")],
    .object [("kind", .text "concreteClass"), ("name", .text "point")]])]

theorem figures_closed : ∃ table, Model.load "modelType" figures = .ok table
    ∧ ∃ document, Document.decode? figures = some document ∧ document.Descent table := by
  have hloads : (Model.load "modelType" figures).toOption.isSome = true := by decide +kernel
  obtain ⟨table, hload⟩ := Model.exists_table hloads
  exact ⟨table, hload, Model.descendants_closed hload⟩

end WireModel
