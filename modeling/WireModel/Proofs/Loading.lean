import WireModel.Model.Load
import WireModel.Proofs.Declared

/-!
# From a value to what is reported about it

Loading goes from a value to a document, from the document to its outline, and from the outline
to a table or a list of diagnostics. The first step never fails on a value of the right form
(`Document.decode?_of_conforms`), so what is left to say about such a value is said about its
document, and mostly about the outline of it.

* **`Model.load_eq_ok_iff`**: a value has a table iff it has the right form and its document has
  no problems.
* **`Model.diagnostics_of_conforms`**: what is reported otherwise are the problems, line by line.
* **`Outline.parentsOf_eq`**: where parents and cycles are no problem, classes keep all parents
  that they list.
-/

namespace WireModel

/-- What is resolved of a document first. -/
def Document.outline (document : Document) : Outline :=
  Outline.ofTypes (TypeDecl.declareAll document.types).1

namespace Model

/-- What is reported about a value: nothing if it has a table. -/
def diagnostics (key : String) (value : Json) : List Diagnostic :=
  match load key value with
  | .ok _ => []
  | .error reported => reported

theorem exists_table {key : String} {value : Json}
    (h : (load key value).toOption.isSome = true) : ∃ table, load key value = .ok table := by
  cases hload : load key value with
  | error reported => rw [hload] at h; cases h
  | ok table => exact ⟨table, rfl⟩

theorem load_of_decode? {value : Json} {document : Document} (key : String)
    (h : Document.conforms value = true) (hd : Document.decode? value = some document) :
    load key value = document.resolve key := by
  rw [Document.conforms] at h
  rw [load, if_pos h, hd]

theorem diagnostics_of_conforms {value : Json} {document : Document} (key : String)
    (h : Document.conforms value = true) (hd : Document.decode? value = some document) :
    diagnostics key value
      = Diagnostic.distinct ((document.problems key).map Problem.diagnostic) := by
  rw [diagnostics, load_of_decode? key h hd, Document.resolve]
  cases hp : document.problems key with
  | nil => rfl
  | cons p ps => rfl

/-- **A value has a table** iff it has the form of a document and the document has no problem. -/
theorem load_eq_ok_iff {key : String} {value : Json} {table : Table} :
    load key value = .ok table ↔
      ∃ document, Document.conforms value = true ∧ Document.decode? value = some document
        ∧ document.problems key = [] ∧ document.table = table := by
  constructor
  · intro hload
    have hconforms : Document.conforms value = true := by
      by_contra hnot
      rw [Document.conforms] at hnot
      rw [load, if_neg hnot] at hload
      cases hload
    obtain ⟨document, hd, -⟩ := Document.decode?_of_conforms hconforms
    rw [load_of_decode? key hconforms hd, Document.resolve] at hload
    refine ⟨document, hconforms, hd, ?_⟩
    split at hload
    · next hnone => exact ⟨List.isEmpty_iff.mp hnone, Except.ok.inj hload⟩
    · cases hload
  · rintro ⟨document, hconforms, hd, hnone, rfl⟩
    rw [load_of_decode? key hconforms hd, Document.resolve, hnone]
    rfl

end Model

/-! ## Documents without problems

In a document about whose types there is nothing to say all types stay, so that the other passes
can be taken to go over the outline of the document as it is. -/

/-- No pass has a problem with the document. -/
structure Document.Clean (key : String) (document : Document) : Prop where
  types : (TypeDecl.declareAll document.types).2 = []
  parents : (Outline.ofTypes document.types).parentProblems = []
  cycles : (Outline.ofTypes document.types).cycleProblems = []
  properties : (Outline.ofTypes document.types).propertyProblems = []
  constructors : (Outline.ofTypes document.types).constructorProblems = []
  interfaces : (Outline.ofTypes document.types).interfaceProblems = []
  wireNames : (Outline.ofTypes document.types).wireNameProblems key = []
  references : (Outline.ofTypes document.types).referenceProblems document = []

theorem Document.problems_eq_nil_iff {key : String} {document : Document} :
    document.problems key = [] ↔ document.Clean key := by
  constructor
  · intro h
    simp only [problems, List.append_eq_nil_iff] at h
    obtain ⟨⟨⟨⟨⟨⟨⟨types, parents⟩, cycles⟩, properties⟩, constructors⟩, interfaces⟩,
      wireNames⟩, references⟩ := h
    -- all types stay, so the other passes go over the outline of the document as it is
    rw [TypeDecl.declareAll_of_silent types] at *
    exact ⟨types, parents, cycles, properties, constructors, interfaces, wireNames, references⟩
  · rintro ⟨types, parents, cycles, properties, constructors, interfaces, wireNames, references⟩
    simp only [problems, TypeDecl.declareAll_of_silent types, types, parents, cycles, properties,
      constructors, interfaces, wireNames, references, List.append_nil]

/-- A value of the right form has a table iff its document has no problems. -/
theorem Model.exists_table_iff {key : String} {value : Json} {document : Document}
    (h : Document.conforms value = true) (hd : Document.decode? value = some document) :
    (∃ table, load key value = .ok table) ↔ document.Clean key := by
  rw [← Document.problems_eq_nil_iff]
  constructor
  · rintro ⟨table, hload⟩
    obtain ⟨document', -, hd', hnone, -⟩ := load_eq_ok_iff.mp hload
    obtain rfl := Option.some.inj (hd.symm.trans hd')
    exact hnone
  · exact fun hnone => ⟨document.table, load_eq_ok_iff.mpr ⟨document, h, hd, hnone, rfl⟩⟩

namespace Document.Clean

variable {key : String} {document : Document}

theorem names_nodup (h : document.Clean key) : (document.types.map (·.name)).Nodup := by
  rw [← TypeDecl.declareAll_of_silent h.types]
  exact TypeDecl.names_declareAll_nodup document.types

theorem outline_eq (h : document.Clean key) :
    document.outline = Outline.ofTypes document.types := by
  rw [outline, TypeDecl.declareAll_of_silent h.types]

end Document.Clean

namespace Outline

theorem length_cycleProblems (o : Outline) :
    o.cycleProblems.length = (Hierarchy.dropped o.trace).length := by
  rw [cycleProblems]
  induction o.trace with
  | nil => rfl
  | cons event rest ih =>
    cases event with
    | cycle first path => simpa using ih
    | inherit | finish => simpa using ih

theorem cycleProblems_eq_nil_iff (o : Outline) :
    o.cycleProblems = [] ↔ Hierarchy.dropped o.trace = [] := by
  rw [← List.length_eq_zero_iff, length_cycleProblems, List.length_eq_zero_iff]

variable {types : List TypeDecl}

/-- **Where nothing is wrong with parents, classes keep all that they list.** -/
theorem parentsOf_eq (hnames : (types.map (·.name)).Nodup)
    (hparents : (ofTypes types).parentProblems = []) (hcycles : (ofTypes types).cycleProblems = [])
    {c : ClassDecl} (hc : c ∈ classesOf types) :
    (ofTypes types).parentsOf c.name = c.parents := by
  have hwl := wellLinked_nodesOf hnames
  have hlink : (c.link types).1 = c.parents :=
    ClassDecl.link_of_silent hnames (List.flatMap_eq_nil_iff.mp hparents c hc)
  have hnode : (⟨c.name, (c.link types).1⟩ : Hierarchy.Node) ∈ nodesOf types :=
    List.mem_map.mpr ⟨c, hc, rfl⟩
  obtain ⟨n, hn, hname, heq⟩ := exists_node hnames hc
  obtain ⟨hsub, hperm⟩ := Hierarchy.parents_of_mem_order hwl hn hnode hname
  have hdropped : Hierarchy.droppedBy (Hierarchy.trace (nodesOf types)) n.name = [] := by
    rw [Hierarchy.droppedBy, show Hierarchy.dropped (Hierarchy.trace (nodesOf types)) = [] from
      (cycleProblems_eq_nil_iff _).mp hcycles]
    rfl
  -- a sublist of the same length is the whole list
  rw [hdropped, List.append_nil] at hperm
  rw [← heq, hsub.eq_of_length hperm.length_eq, hlink]

theorem parentsOf_eq_nil (hnames : (types.map (·.name)).Nodup) {name : String}
    (h : name ∉ (classesOf types).map (·.name)) : (ofTypes types).parentsOf name = [] := by
  rw [parentsOf]
  split
  · next n hfind =>
    obtain rfl : n.name = name := by simpa using List.find?_some hfind
    exact absurd (mem_classNames_of_mem_order hnames (List.mem_of_find?_eq_some hfind)) h
  · rfl

end Outline

/-! ## The hierarchy of a document -/

namespace Document

/-- The parents that the class `name` lists. -/
def parentsOf (document : Document) (name : String) : List String :=
  match Outline.classOf? document.types name with
  | some c => c.parents
  | none => []

/-- The class `child` lists `parent` among its parents. -/
def Inherits (document : Document) (child parent : String) : Prop :=
  parent ∈ document.parentsOf child

theorem parentsOf_of_mem {document : Document} (hnames : (document.types.map (·.name)).Nodup)
    {c : ClassDecl} (hc : c ∈ Outline.classesOf document.types) :
    document.parentsOf c.name = c.parents := by
  rw [parentsOf, (Outline.classOf?_eq_some_iff hnames).mpr ⟨hc, rfl⟩]

/-- Where parents are no problem, the hierarchy is that of the document. -/
theorem parentsOf_eq_of_silent {document : Document}
    (hnames : (document.types.map (·.name)).Nodup)
    (hparents : (Outline.ofTypes document.types).parentProblems = [])
    (hcycles : (Outline.ofTypes document.types).cycleProblems = []) :
    (Outline.ofTypes document.types).parentsOf = document.parentsOf := by
  funext name
  rw [parentsOf]
  split
  · next c hfind =>
    obtain ⟨hc, rfl⟩ := (Outline.classOf?_eq_some_iff hnames).mp hfind
    exact Outline.parentsOf_eq hnames hparents hcycles hc
  · next hfind => exact Outline.parentsOf_eq_nil hnames (Outline.classOf?_eq_none_iff.mp hfind)

theorem keeps_eq_of_silent {document : Document} (hnames : (document.types.map (·.name)).Nodup)
    (hparents : (Outline.ofTypes document.types).parentProblems = [])
    (hcycles : (Outline.ofTypes document.types).cycleProblems = []) :
    (Outline.ofTypes document.types).Keeps = document.Inherits := by
  funext child parent
  rw [Outline.Keeps, parentsOf_eq_of_silent hnames hparents hcycles, Inherits]

namespace Clean

variable {key : String} {document : Document}

theorem parentsOf_eq (h : document.Clean key) :
    (Outline.ofTypes document.types).parentsOf = document.parentsOf :=
  parentsOf_eq_of_silent h.names_nodup h.parents h.cycles

theorem keeps_eq (h : document.Clean key) :
    (Outline.ofTypes document.types).Keeps = document.Inherits :=
  keeps_eq_of_silent h.names_nodup h.parents h.cycles

theorem acyclic (h : document.Clean key) (name : String) :
    ¬Relation.TransGen document.Inherits name name := by
  rw [← h.keeps_eq, Outline.keeps_eq h.names_nodup]
  exact (Hierarchy.parentsFirst_trace (Outline.wellLinked_nodesOf h.names_nodup)).acyclic name

/-- The classes of the table are those of the document. -/
theorem classes_table (h : document.Clean key) :
    document.table.classes = (Outline.classesOf document.types).map
      (Outline.ofTypes document.types).classOf := by
  have hclasses : ∀ (o : Outline) (types : List TypeDecl),
      (types.map o.typeOf).filterMap NamedType.class?
        = (Outline.classesOf types).map o.classOf := by
    intro o types
    induction types with
    | nil => rfl
    | cons d rest ih =>
      cases d with
      | classType c => exact congrArg (o.classOf c :: ·) ih
      | enumeration | constrained => exact ih
  rw [Table.classes, table, TypeDecl.declareAll_of_silent h.types]
  exact hclasses (Outline.ofTypes document.types) document.types

/-- What holds of the classes of a table is said about the declarations that they come from. -/
theorem forall_classes (h : document.Clean key) {P : Class → Prop}
    (hclass : ∀ d ∈ Outline.classesOf document.types,
      P ((Outline.ofTypes document.types).classOf d)) : ∀ c ∈ document.table.classes, P c := by
  rw [h.classes_table]
  exact List.forall_mem_map.mpr hclass

theorem names_classes_table (h : document.Clean key) :
    document.table.classes.map (·.name) = (Outline.classesOf document.types).map (·.name) := by
  rw [h.classes_table, List.map_map]
  rfl

end Clean

end Document

end WireModel
