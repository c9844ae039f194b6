import WireModel.Model.Outline
import WireModel.Proofs.Decoding
import WireModel.Proofs.Hierarchy.Order
import WireModel.Proofs.Sequence

/-!
# Declared types and their parents

The first two passes over a document: types and literals that clash are dropped, and so are
parents that are no classes or are listed again. Whatever the document is like, the names of the
types that stay are distinct, and the classes with the parents that stay are a hierarchy that the
walk is for. A document about which the two passes have nothing to say goes through unchanged.

* **`TypeDecl.declareAll_silent_iff`**, **`TypeDecl.declareAll_of_silent`**: types and literals.
* **`Outline.wellLinked_nodesOf`**: the hierarchy of any declared types is well linked.
* **`ClassDecl.link_silent_iff`**, **`ClassDecl.link_of_silent`**: parents.
-/

namespace WireModel

/-! ## Types and literals -/

/-- The literals of an enumeration can be told apart by their names and by their values. -/
def TypeDecl.LiteralsDistinct : TypeDecl → Prop
  | .enumeration d =>
    (d.literals.map fun l => Name.capital l.name).Nodup ∧ (d.literals.map (·.value)).Nodup
  | _ => True

theorem LiteralDecl.sieve (owner : String) :
    Sieve (declare owner) id (fun _ => True)
      fun k l => Name.capital k.name ≠ Name.capital l.name ∧ k.value ≠ l.value where
  silent kept l := by
    rw [declare]
    split
    · next h =>
      obtain ⟨k, hk, hkl⟩ := List.any_eq_true.mp h
      simp only [List.cons_ne_nil, true_and, false_iff, not_forall]
      exact ⟨k, hk, fun hne => hne.1 (eq_of_beq hkl)⟩
    split
    · next h =>
      obtain ⟨k, hk, hkl⟩ := List.any_eq_true.mp h
      simp only [List.cons_ne_nil, true_and, false_iff, not_forall]
      exact ⟨k, hk, fun hne => hne.2 (eq_of_beq hkl)⟩
    · next hname hvalue =>
      simp only [true_and, true_iff]
      exact fun k hk => ⟨fun h => hname (List.any_eq_true.mpr ⟨k, hk, by simp [h]⟩),
        fun h => hvalue (List.any_eq_true.mpr ⟨k, hk, by simp [h]⟩)⟩
  keeps kept l h := by
    rw [declare] at h ⊢
    split at h
    · cases h
    split at h
    · cases h
    · next hname hvalue => rw [if_neg hname, if_neg hvalue]; rfl

namespace TypeDecl

theorem declareBody_silent_iff (d : TypeDecl) : d.declareBody.2 = [] ↔ d.LiteralsDistinct := by
  cases d with
  | enumeration d =>
    rw [declareBody, LiteralsDistinct]
    simp only
    simp only [(LiteralDecl.sieve d.name).silent_iff, List.Nodup, List.pairwise_map,
      ← List.pairwise_and_iff]
    simp
  | constrained d => simp [declareBody, LiteralsDistinct]
  | classType d => simp [declareBody, LiteralsDistinct]

theorem declareBody_of_silent {d : TypeDecl} (h : d.declareBody.2 = []) : d.declareBody.1 = d := by
  cases d with
  | enumeration d =>
    have hliterals := (LiteralDecl.sieve d.name).result_of_silent h
    simp only [declareBody, hliterals, List.nil_append, List.map_id]
  | constrained d => rfl
  | classType d => rfl

@[simp] theorem name_declareBody (d : TypeDecl) : d.declareBody.1.name = d.name := by
  cases d <;> rfl

theorem declare_of_find?_eq_none {kept : List TypeDecl} {d : TypeDecl}
    (h : kept.find? (fun k => Name.capital k.name == Name.capital d.name) = none) :
    declare kept d = (some d.declareBody.1,
      (if reservedTypeNames.contains (Name.capital d.name) then [Problem.reservedType d.name]
        else []) ++ d.declareBody.2) := by
  rw [declare, h]

theorem sieve :
    Sieve declare id
      (fun d => Name.capital d.name ∉ reservedTypeNames ∧ d.LiteralsDistinct)
      fun k d => Name.capital k.name ≠ Name.capital d.name where
  silent kept d := by
    cases hf : kept.find? fun k => Name.capital k.name == Name.capital d.name with
    | some other =>
      -- the type that is found is one from which `d` is not apart
      rw [declare, hf]
      simp only [List.cons_ne_nil, false_iff, not_and, not_forall]
      intro _
      exact ⟨other, List.mem_of_find?_eq_some hf, fun h => h (by simpa using List.find?_some hf)⟩
    | none =>
      rw [declare_of_find?_eq_none hf, List.append_eq_nil_iff, declareBody_silent_iff]
      have hapart : ∀ k ∈ kept, Name.capital k.name ≠ Name.capital d.name := by
        simpa using hf
      rw [and_iff_left hapart]
      refine and_congr_left fun _ => ?_
      rw [ite_eq_right_iff, List.contains_iff_mem]
      exact ⟨fun h hmem => List.cons_ne_nil _ _ (h hmem), fun h hmem => absurd hmem h⟩
  keeps kept d h := by
    cases hf : kept.find? fun k => Name.capital k.name == Name.capital d.name with
    | some other => rw [declare, hf] at h; cases h
    | none =>
      rw [declare_of_find?_eq_none hf] at h ⊢
      rw [declareBody_of_silent (List.append_eq_nil_iff.mp h).2]
      rfl

/-- **There is nothing to say about declarations** iff the types can be told apart, none has a
reserved name, and the literals of each enumeration can be told apart. -/
theorem declareAll_silent_iff (types : List TypeDecl) :
    (declareAll types).2 = [] ↔
      (types.map fun d => Name.capital d.name).Nodup
        ∧ (∀ d ∈ types, Name.capital d.name ∉ reservedTypeNames)
        ∧ ∀ d ∈ types, d.LiteralsDistinct := by
  rw [declareAll, sieve.silent_iff, List.Nodup, List.pairwise_map]
  constructor
  · rintro ⟨hsound, hpair⟩
    exact ⟨hpair, fun d hd => (hsound d hd).1, fun d hd => (hsound d hd).2⟩
  · rintro ⟨hpair, hreserved, hliterals⟩
    exact ⟨fun d hd => ⟨hreserved d hd, hliterals d hd⟩, hpair⟩

theorem declareAll_of_silent {types : List TypeDecl} (h : (declareAll types).2 = []) :
    (declareAll types).1 = types := by
  have hresult := sieve.result_of_silent h
  rwa [List.nil_append, List.map_id] at hresult

/-- A type that is kept has a capital name of its own, and keeps all but clashing literals. -/
theorem declare_eq_some {kept : List TypeDecl} {d b : TypeDecl}
    (h : (declare kept d).1 = some b) :
    Name.capital b.name ∉ kept.map (fun k => Name.capital k.name) ∧ b = d.declareBody.1 := by
  cases hf : kept.find? fun k => Name.capital k.name == Name.capital d.name with
  | some other => rw [declare, hf] at h; cases h
  | none =>
    rw [declare_of_find?_eq_none hf] at h
    obtain rfl := Option.some.inj h
    refine ⟨?_, rfl⟩
    rw [name_declareBody, ← find?_key_eq_none_iff]
    exact hf

/-- Whatever is declared twice, the types that stay have different capital names. -/
theorem capitals_declareAll_nodup (types : List TypeDecl) :
    ((declareAll types).1.map fun d => Name.capital d.name).Nodup :=
  sift_keys_nodup _ (fun _ _ _ h => (declare_eq_some h).1) types

theorem names_declareAll_nodup (types : List TypeDecl) :
    ((declareAll types).1.map (·.name)).Nodup := by
  refine List.Nodup.of_map Name.capital ?_
  rw [List.map_map]
  exact capitals_declareAll_nodup types

/-- A type that stays is a type of the document, perhaps with fewer literals. -/
theorem exists_of_mem_declareAll {types : List TypeDecl} {d : TypeDecl}
    (h : d ∈ (declareAll types).1) : ∃ t ∈ types, d = t.declareBody.1 := by
  have hkeep : ∀ kept t b, (declare kept t).1 = some b → b = t.declareBody.1 :=
    fun _ _ _ h => (declare_eq_some h).2
  exact sift_result_of_mem hkeep h

end TypeDecl

/-! ## Classes -/

theorem TypeDecl.name_of_find? {types : List TypeDecl} {name : String} {d : TypeDecl}
    (h : types.find? (fun d => d.name == name) = some d) : d.name = name := by
  simpa using List.find?_some h

namespace Outline

variable {types : List TypeDecl}

theorem mem_classesOf {c : ClassDecl} : c ∈ classesOf types ↔ TypeDecl.classType c ∈ types := by
  rw [classesOf, List.mem_filterMap]
  constructor
  · rintro ⟨d, hd, hc⟩
    cases d with
    | classType d => exact Option.some.inj hc ▸ hd
    | enumeration | constrained => cases hc
  · exact fun h => ⟨_, h, rfl⟩

theorem classesOf_names_sublist (types : List TypeDecl) :
    ((classesOf types).map (·.name)).Sublist (types.map (·.name)) := by
  induction types with
  | nil => exact .slnil
  | cons d rest ih =>
    cases d with
    | classType c => exact ih.cons_cons c.name
    | enumeration e => exact ih.cons e.name
    | constrained c => exact ih.cons c.name

theorem classesOf_names_nodup (hnames : (types.map (·.name)).Nodup) :
    ((classesOf types).map (·.name)).Nodup :=
  hnames.sublist (classesOf_names_sublist types)

/-- Names tell classes apart. -/
theorem class_eq_of_name_eq (hnames : (types.map (·.name)).Nodup) {a b : ClassDecl}
    (ha : a ∈ classesOf types) (hb : b ∈ classesOf types) (h : a.name = b.name) : a = b :=
  List.inj_on_of_nodup_map (classesOf_names_nodup hnames) ha hb h

theorem classOf?_eq_some_iff (hnames : (types.map (·.name)).Nodup) {name : String}
    {c : ClassDecl} : classOf? types name = some c ↔ c ∈ classesOf types ∧ c.name = name :=
  find?_key_eq_some_iff (classesOf_names_nodup hnames)

theorem classOf?_eq_none_iff {name : String} :
    classOf? types name = none ↔ name ∉ (classesOf types).map (·.name) :=
  find?_key_eq_none_iff

end Outline

/-! ## Parents -/

namespace ClassDecl

open Outline (classesOf mem_classesOf)

variable {types : List TypeDecl}

theorem linkParent_eq_some {child parent b : String} {kept : List String}
    (h : (linkParent types child kept parent).1 = some b) :
    b ∉ kept ∧ b = parent ∧ b ∈ (classesOf types).map (·.name) := by
  rw [linkParent] at h
  split at h
  · cases h
  · next c hf =>
    split at h
    · cases h
    · next hkept =>
      obtain rfl := Option.some.inj h
      have hname : c.name = parent := TypeDecl.name_of_find? hf
      have hc := mem_classesOf.mpr (List.mem_of_find?_eq_some hf)
      exact ⟨by simpa using hkept, rfl, List.mem_map.mpr ⟨c, hc, hname⟩⟩
  · cases h

/-- The parents that a class keeps are different. -/
theorem link_nodup (types : List TypeDecl) (c : ClassDecl) : (c.link types).1.Nodup := by
  have hnew : ∀ kept p b, (linkParent types c.name kept p).1 = some b → id b ∉ kept.map id := by
    intro kept p b h
    simpa using (linkParent_eq_some h).1
  have hnodup := sift_keys_nodup id hnew c.parents
  rwa [List.map_id] at hnodup

/-- The parents that a class keeps are among those that it lists, and are classes. -/
theorem mem_of_mem_link {c : ClassDecl} {p : String} (h : p ∈ (c.link types).1) :
    p ∈ c.parents ∧ p ∈ (classesOf types).map (·.name) := by
  have hkeep : ∀ kept q b, (linkParent types c.name kept q).1 = some b →
      b = q ∧ b ∈ (classesOf types).map (·.name) :=
    fun _ _ _ h => (linkParent_eq_some h).2
  obtain ⟨q, hq, rfl, hclass⟩ := sift_result_of_mem hkeep h
  exact ⟨hq, hclass⟩

theorem link_sieve (hnames : (types.map (·.name)).Nodup) (child : String) :
    Sieve (linkParent types child) id (· ∈ (classesOf types).map (·.name)) (· ≠ ·) where
  silent kept p := by
    rw [linkParent]
    split
    · next hf =>
      simp only [List.cons_ne_nil, false_iff, not_and]
      intro hp
      obtain ⟨c, hc, rfl⟩ := List.mem_map.mp hp
      have hnone := List.find?_eq_none.mp hf _ (mem_classesOf.mp hc)
      exact absurd (by simp [TypeDecl.name]) hnone
    · next c hf =>
      have hname : c.name = p := TypeDecl.name_of_find? hf
      have hp : p ∈ (classesOf types).map (·.name) :=
        List.mem_map.mpr ⟨c, mem_classesOf.mpr (List.mem_of_find?_eq_some hf), hname⟩
      rw [and_iff_right hp]
      split
      · next hkept =>
        simp only [List.cons_ne_nil, false_iff, not_forall]
        exact ⟨p, by simpa using hkept, fun hne => hne rfl⟩
      · next hkept =>
        simp only [true_iff]
        rintro k hk rfl
        exact hkept (List.contains_iff_mem.mpr hk)
    · next d hnot hf =>
      -- names are distinct, so a class of that name would have been found
      simp only [List.cons_ne_nil, false_iff, not_and]
      intro hp
      obtain ⟨c, hc, rfl⟩ := List.mem_map.mp hp
      have hc' := (find?_key_eq_some_iff hnames).mpr ⟨mem_classesOf.mp hc, rfl⟩
      exact absurd (Option.some.inj (hf.symm.trans hc')) (hnot c)
  keeps kept p h := by
    rw [linkParent] at h ⊢
    split at h
    · cases h
    · next c hf =>
      split at h
      · cases h
      · next hkept => rw [if_neg hkept]; rfl
    · cases h

/-- **There is nothing to say about the parents of a class** iff they are declared classes, each
listed once. -/
theorem link_silent_iff (hnames : (types.map (·.name)).Nodup) (c : ClassDecl) :
    (c.link types).2 = [] ↔
      (∀ p ∈ c.parents, p ∈ (classesOf types).map (·.name)) ∧ c.parents.Nodup :=
  (link_sieve hnames c.name).silent_iff c.parents

theorem link_of_silent (hnames : (types.map (·.name)).Nodup) {c : ClassDecl}
    (h : (c.link types).2 = []) : (c.link types).1 = c.parents := by
  have hresult := (link_sieve hnames c.name).result_of_silent h
  rwa [List.nil_append, List.map_id] at hresult

end ClassDecl

namespace Outline

variable {types : List TypeDecl}

theorem map_name_nodesOf (types : List TypeDecl) :
    (nodesOf types).map (·.name) = (classesOf types).map (·.name) := by
  simp [nodesOf]

/-- **The walk is for every hierarchy of declared classes.** -/
theorem wellLinked_nodesOf (hnames : (types.map (·.name)).Nodup) :
    Hierarchy.WellLinked (nodesOf types) where
  names := by
    rw [map_name_nodesOf]
    exact classesOf_names_nodup hnames
  parents n hn := by
    obtain ⟨c, -, rfl⟩ := List.mem_map.mp hn
    exact c.link_nodup types
  known n hn p hp := by
    obtain ⟨c, -, rfl⟩ := List.mem_map.mp hn
    rw [map_name_nodesOf]
    exact (ClassDecl.mem_of_mem_link hp).2

theorem parentsOf_of_mem_order (hnames : (types.map (·.name)).Nodup) {n : Hierarchy.Node}
    (hn : n ∈ (ofTypes types).order) : (ofTypes types).parentsOf n.name = n.parents := by
  have hnodup := (Hierarchy.parentsFirst_trace (wellLinked_nodesOf hnames)).names_nodup
  have hfind : (ofTypes types).order.find? (fun m => m.name == n.name) = some n :=
    (find?_key_eq_some_iff hnodup).mpr ⟨hn, rfl⟩
  rw [parentsOf, hfind]

/-- The class `child` keeps the class `parent` as a parent. -/
def Keeps (o : Outline) (child parent : String) : Prop := parent ∈ o.parentsOf child

/-- The parents of the outline are the edges that the walk keeps. -/
theorem keeps_eq (hnames : (types.map (·.name)).Nodup) :
    (ofTypes types).Keeps = Hierarchy.Edge (ofTypes types).order := by
  funext child parent
  apply propext
  constructor
  · intro hkeeps
    rw [Keeps, parentsOf] at hkeeps
    split at hkeeps
    · next n hfind =>
      exact ⟨n, List.mem_of_find?_eq_some hfind, by simpa using List.find?_some hfind, hkeeps⟩
    · cases hkeeps
  · rintro ⟨n, hn, rfl, hp⟩
    rw [Keeps, parentsOf_of_mem_order hnames hn]
    exact hp

/-- The order has a node for every class, with the parents that the class keeps. -/
theorem exists_node (hnames : (types.map (·.name)).Nodup) {c : ClassDecl}
    (hc : c ∈ classesOf types) :
    ∃ n ∈ (ofTypes types).order, n.name = c.name
      ∧ n.parents = (ofTypes types).parentsOf c.name := by
  have hnode : (⟨c.name, (c.link types).1⟩ : Hierarchy.Node) ∈ nodesOf types :=
    List.mem_map.mpr ⟨c, hc, rfl⟩
  obtain ⟨n, hn, hname⟩ := Hierarchy.exists_mem_order (wellLinked_nodesOf hnames) hnode
  have hparents := parentsOf_of_mem_order hnames hn
  rw [hname] at hparents
  exact ⟨n, hn, hname, hparents.symm⟩

theorem mem_classNames_of_mem_order (hnames : (types.map (·.name)).Nodup) {n : Hierarchy.Node}
    (hn : n ∈ (ofTypes types).order) : n.name ∈ (classesOf types).map (·.name) := by
  rw [← map_name_nodesOf]
  exact (Hierarchy.order_names_perm (wellLinked_nodesOf hnames)).mem_iff.mp
    (List.mem_map_of_mem hn)

theorem lookup_attributes (hnames : (types.map (·.name)).Nodup) {name : String}
    (h : name ∈ (classesOf types).map (·.name)) :
    (ofTypes types).attributes.lookup name = some ((ofTypes types).attributesOf name) := by
  have hkeys : name ∈ (ofTypes types).attributes.map (·.1) := by
    rw [show (ofTypes types).attributes.map (·.1) = (ofTypes types).order.map (·.name) from
      Hierarchy.keys_tabulate _ _]
    rw [← map_name_nodesOf] at h
    exact (Hierarchy.order_names_perm (wellLinked_nodesOf hnames)).mem_iff.mpr h
  obtain ⟨attributes, hlookup⟩ := Option.isSome_iff_exists.mp (Hierarchy.isSome_lookup hkeys)
  rw [attributesOf, hlookup, Option.getD_some]

theorem inheritedFrom_eq (hnames : (types.map (·.name)).Nodup) {names : List String}
    (h : ∀ p ∈ names, p ∈ (classesOf types).map (·.name)) :
    (ofTypes types).inheritedFrom names
      = Attribute.inheritAll (names.map (ofTypes types).attributesOf) := by
  rw [inheritedFrom, ← List.filterMap_eq_map]
  congr 1
  exact List.filterMap_congr fun p hp => lookup_attributes hnames (h p hp)

theorem parentsOf_known (hnames : (types.map (·.name)).Nodup) {child parent : String}
    (h : parent ∈ (ofTypes types).parentsOf child) :
    parent ∈ (classesOf types).map (·.name) := by
  obtain ⟨n, hn, -, hp⟩ : Hierarchy.Edge (ofTypes types).order child parent :=
    keeps_eq hnames ▸ h
  obtain ⟨m, hm, rfl⟩ := List.mem_map.mp
    ((Hierarchy.parentsFirst_trace (wellLinked_nodesOf hnames)).parents_known n hn parent hp)
  exact mem_classNames_of_mem_order hnames hm

/-- **Induction over the hierarchy**: what goes from the parents that a class keeps to the class
holds of all classes. -/
theorem class_induction (hnames : (types.map (·.name)).Nodup) {P : ClassDecl → Prop}
    (step : ∀ c ∈ classesOf types,
      (∀ p ∈ classesOf types, p.name ∈ (ofTypes types).parentsOf c.name → P p) → P c) :
    ∀ c ∈ classesOf types, P c := by
  have hordered := Hierarchy.parentsFirst_trace (wellLinked_nodesOf hnames)
  have hnodes := hordered.induction (P := fun name => ∀ c ∈ classesOf types, c.name = name → P c)
    fun n hn ih c hc hname => step c hc fun p hp hkept => by
      rw [hname, parentsOf_of_mem_order hnames hn] at hkept
      exact ih p.name hkept p hp rfl
  intro c hc
  obtain ⟨n, hn, hname, -⟩ := exists_node hnames hc
  exact hnodes n hn c hc hname.symm

/-- **Effective properties are a recursion over the parents that are kept.** -/
theorem attributesOf_eq (hnames : (types.map (·.name)).Nodup) {c : ClassDecl}
    (hc : c ∈ classesOf types) :
    (ofTypes types).attributesOf c.name = Attribute.effective types c
      (((ofTypes types).parentsOf c.name).map (ofTypes types).attributesOf) := by
  obtain ⟨n, hn, hname, hparents⟩ := exists_node hnames hc
  have hlookup := Hierarchy.lookup_tabulate (attributesOfNode types)
    (Hierarchy.parentsFirst_trace (wellLinked_nodesOf hnames)) n hn
  have hof : ((ofTypes types).parentsOf c.name).filterMap
      (fun p => (ofTypes types).attributes.lookup p)
      = ((ofTypes types).parentsOf c.name).map (ofTypes types).attributesOf := by
    rw [← List.filterMap_eq_map]
    exact List.filterMap_congr fun p hp => lookup_attributes hnames (parentsOf_known hnames hp)
  -- the table is computed along the order, so its equation holds at the node of `c`
  rw [← hof, ← hparents, attributesOf,
    show (ofTypes types).attributes.lookup c.name = _ from hname ▸ hlookup, Option.getD_some,
    attributesOfNode, hname, (classOf?_eq_some_iff hnames).mpr ⟨hc, rfl⟩]
  rfl

end Outline

end WireModel
