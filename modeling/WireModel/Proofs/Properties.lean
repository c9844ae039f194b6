import WireModel.Proofs.Hierarchy.Listing
import WireModel.Proofs.Loading

/-!
# Effective properties

A class takes over the flattened properties of its parents, one parent after the other, and adds
its own. Nothing in that walks the hierarchy. This module shows that it comes to the same as
listing the ancestors depth first and taking the own properties of each.

## The architecture

* **`Outline.names_attributesOf_nodup`**, **`Outline.mem_attributesOf`**: whatever a document is
  like, no name occurs twice in a flattened list, and each entry is declared by an ancestor.
* **`Attribute.inherit_flatMap`**: the crux. Where equal names mean equal declaring classes,
  merging by name is merging by class, which is how listings are continued (`Visits.snoc`).
* **`Outline.propertyProblems_eq_nil_iff`**: there is nothing to say about properties iff every
  class and its ancestors declare different names, none is reserved, and all types are known.
* **`Outline.exists_listing`**: and then flattened lists are listings.
-/

namespace WireModel

/-! ## Types of fields -/

/-- The text spells a type that mentions declared types only. -/
def FieldType.Spells (types : List TypeDecl) (text : String) (type : FieldType Atom) : Prop :=
  FieldType.parse text = .ok type ∧ ∀ name, type.item = .named name → name ∈ types.map (·.name)

theorem Atom.unknown?_eq_none_iff {types : List TypeDecl} {atom : Atom} :
    atom.unknown? types = none ↔ ∀ name, atom = .named name → name ∈ types.map (·.name) := by
  cases atom with
  | primitive kind => simp [unknown?]
  | named name =>
    rw [unknown?]
    constructor
    · intro h other heq
      obtain rfl := Atom.named.inj heq
      split at h
      · next hany =>
        obtain ⟨d, hd, hname⟩ := List.any_eq_true.mp hany
        exact List.mem_map.mpr ⟨d, hd, eq_of_beq hname⟩
      · cases h
    · intro h
      obtain ⟨d, hd, hname⟩ := List.mem_map.mp (h name rfl)
      rw [if_pos (List.any_eq_true.mpr ⟨d, hd, by simp [hname]⟩)]

namespace FieldType

variable {types : List TypeDecl} {subject : Subject} {text : String}

theorem resolve_of_spells {type : FieldType Atom} (h : Spells types text type) :
    resolve types subject text = (type, []) := by
  rw [resolve, h.1]
  simp only [Atom.unknown?_eq_none_iff.mpr h.2]

theorem resolve_silent_iff :
    (resolve types subject text).2 = [] ↔ ∃ type, Spells types text type := by
  constructor
  · intro h
    rw [resolve] at h
    split at h
    · cases h
    · next type htype =>
      split at h
      · cases h
      · next hknown => exact ⟨type, htype, Atom.unknown?_eq_none_iff.mp hknown⟩
  · rintro ⟨type, htype⟩
    rw [resolve_of_spells htype]

end FieldType

/-! ## What a class takes over and what it adds -/

namespace Attribute

variable {types : List TypeDecl} {attributes more : List Attribute}

theorem isNone_find?_iff {name : String} :
    (find? attributes name).isNone = true ↔ name ∉ attributes.map (·.name) := by
  rw [Option.isNone_iff_eq_none]
  exact find?_key_eq_none_iff

theorem inheritAll_concat (lists : List (List Attribute)) (list : List Attribute) :
    inheritAll (lists ++ [list]) = inherit (inheritAll lists) list := by
  simp [inheritAll, List.foldl_append]

theorem mem_inherit {a : Attribute} (h : a ∈ inherit attributes more) :
    a ∈ attributes ∨ a ∈ more :=
  (List.mem_append.mp h).imp_right List.mem_of_mem_filter

theorem mem_inheritAll {lists : List (List Attribute)} {a : Attribute}
    (h : a ∈ inheritAll lists) : ∃ list ∈ lists, a ∈ list := by
  induction lists using List.reverseRecOn with
  | nil => cases h
  | append_singleton lists list ih =>
    rw [inheritAll_concat] at h
    rcases mem_inherit h with h | h
    · obtain ⟨l, hl, ha⟩ := ih h
      exact ⟨l, List.mem_append_left _ hl, ha⟩
    · exact ⟨list, by simp, h⟩

theorem names_inherit_nodup (h : (attributes.map (·.name)).Nodup)
    (hmore : (more.map (·.name)).Nodup) : ((inherit attributes more).map (·.name)).Nodup := by
  rw [inherit, List.map_append, List.nodup_append]
  refine ⟨h, hmore.sublist (List.filter_sublist.map _), ?_⟩
  rintro name hname other hother rfl
  obtain ⟨a, ha, rfl⟩ := List.mem_map.mp hother
  exact isNone_find?_iff.mp (List.mem_filter.mp ha).2 hname

theorem names_inheritAll_nodup {lists : List (List Attribute)}
    (h : ∀ list ∈ lists, (list.map (·.name)).Nodup) :
    ((inheritAll lists).map (·.name)).Nodup := by
  induction lists using List.reverseRecOn with
  | nil => exact .nil
  | append_singleton lists list ih =>
    rw [inheritAll_concat]
    exact names_inherit_nodup (ih fun l hl => h l (List.mem_append_left _ hl)) (h list (by simp))

/-- The attribute that a declaration of `owner` becomes. -/
def ofDecl (types : List TypeDecl) (owner : String) (d : PropertyDecl) : Attribute :=
  ⟨d.name, (FieldType.resolve types (.member owner d.name) d.type).1, owner, d.description⟩

theorem declare_eq_some {owner : String} {inherited own : List Attribute} {d : PropertyDecl}
    {a : Attribute} (h : (declare types owner inherited own d).1 = some a) :
    a.name ∉ (inherited ++ own).map (·.name) ∧ a = ofDecl types owner d := by
  rw [declare] at h
  split at h
  · cases h
  · next hf =>
    obtain rfl := Option.some.inj h
    exact ⟨find?_key_eq_none_iff.mp hf, rfl⟩

theorem mem_own {c : ClassDecl} {inherited : List Attribute} {a : Attribute}
    (h : a ∈ (own types c inherited).1) : ∃ d ∈ c.properties, a = ofDecl types c.name d := by
  have hkeep : ∀ kept d b, (declare types c.name inherited kept d).1 = some b →
      b = ofDecl types c.name d := fun _ _ _ h => (declare_eq_some h).2
  exact sift_result_of_mem hkeep h

theorem names_effective_nodup {c : ClassDecl} {lists : List (List Attribute)}
    (h : ∀ list ∈ lists, (list.map (·.name)).Nodup) :
    ((effective types c lists).map (·.name)).Nodup := by
  have hstart : ((inheritAll lists ++ []).map Attribute.name).Nodup := by
    rw [List.append_nil]
    exact names_inheritAll_nodup h
  have hstep : ∀ kept, ∀ d ∈ c.properties, ∀ a,
      ((inheritAll lists ++ kept).map Attribute.name).Nodup →
      (declare types c.name (inheritAll lists) kept d).1 = some a →
      ((inheritAll lists ++ (kept ++ [a])).map Attribute.name).Nodup := by
    intro kept d _ a hkept ha
    rw [← List.append_assoc, List.map_append, List.nodup_append]
    refine ⟨hkept, by simp, ?_⟩
    -- an own property is kept only if nothing before it has its name
    rintro name hname other hother rfl
    obtain rfl := List.mem_singleton.mp hother
    exact (declare_eq_some ha).1 hname
  exact sift_result_induction
    (P := fun own => ((inheritAll lists ++ own).map Attribute.name).Nodup) hstart hstep

/-- There is nothing to say about an own property iff no inherited one has its name, the name is
not reserved, and its type is known. -/
theorem sieve (owner : String) (inherited : List Attribute) :
    Sieve (declare types owner inherited) (ofDecl types owner)
      (fun d => d.name ∉ inherited.map (·.name) ∧ Name.camel d.name ∉ reservedNames
        ∧ ∃ type, FieldType.Spells types d.type type)
      fun k d => k.name ≠ d.name where
  silent kept d := by
    rw [declare]
    split
    · next other hf =>
      simp only [List.cons_ne_nil, false_iff, not_and, not_forall]
      rintro ⟨hnew, -⟩
      have hname : other.name = d.name := by simpa [find?] using List.find?_some hf
      rcases List.mem_append.mp (List.mem_of_find?_eq_some hf) with hmem | hmem
      · exact absurd (List.mem_map.mpr ⟨other, hmem, hname⟩) hnew
      · exact ⟨other, hmem, fun hne => hne hname⟩
    · next hf =>
      have hnew : d.name ∉ (inherited ++ kept).map (·.name) := find?_key_eq_none_iff.mp hf
      rw [List.map_append, List.mem_append, not_or] at hnew
      have hapart : ∀ k ∈ kept, k.name ≠ d.name :=
        fun k hk heq => hnew.2 (List.mem_map.mpr ⟨k, hk, heq⟩)
      rw [and_iff_left hapart, and_iff_right hnew.1, List.append_eq_nil_iff,
        FieldType.resolve_silent_iff]
      refine and_congr_left fun _ => ?_
      rw [ite_eq_right_iff, List.contains_iff_mem]
      exact ⟨fun h hmem => List.cons_ne_nil _ _ (h hmem), fun h hmem => absurd hmem h⟩
  keeps kept d h := by
    rw [declare] at h ⊢
    split at h
    · cases h
    · rfl

theorem own_silent_iff {c : ClassDecl} {inherited : List Attribute} :
    (own types c inherited).2 = [] ↔
      (∀ d ∈ c.properties, d.name ∉ inherited.map (·.name) ∧ Name.camel d.name ∉ reservedNames
        ∧ ∃ type, FieldType.Spells types d.type type)
      ∧ (c.properties.map (·.name)).Nodup := by
  rw [own, (sieve c.name inherited).silent_iff, List.Nodup, List.pairwise_map]
  rfl

theorem own_of_silent {c : ClassDecl} {inherited : List Attribute}
    (h : (own types c inherited).2 = []) :
    (own types c inherited).1 = c.properties.map (ofDecl types c.name) := by
  have hresult := (sieve c.name inherited).result_of_silent h
  rwa [List.nil_append] at hresult

theorem conflicts_eq_nil_iff {owner : String} (h : (attributes.map (·.name)).Nodup) :
    conflicts owner attributes more = [] ↔
      ∀ a ∈ attributes, ∀ b ∈ more, a.name = b.name → a.declaredBy = b.declaredBy := by
  rw [conflicts, List.filterMap_eq_nil_iff]
  constructor
  · intro hnone a ha b hb hname
    have hb := hnone b hb
    rw [show find? attributes b.name = some a from
      (find?_key_eq_some_iff h).mpr ⟨ha, hname⟩] at hb
    by_contra hne
    simp [hne] at hb
  · intro hsame b hb
    split
    · next other hf =>
      obtain ⟨hother, hname⟩ := (find?_key_eq_some_iff h).mp hf
      rw [if_pos (hsame other hother b hb hname)]
    · rfl

/-- **Where equal names mean equal declaring classes, merging by name is merging by class.** -/
theorem inherit_flatMap {own : String → List Attribute} {before after : List String}
    (hown : ∀ name, ∀ a ∈ own name, a.declaredBy = name)
    (hsame : ∀ a ∈ before.flatMap own, ∀ b ∈ after.flatMap own, a.name = b.name →
      a.declaredBy = b.declaredBy) :
    inherit (before.flatMap own) (after.flatMap own)
      = (before ++ after.filter (· ∉ before)).flatMap own := by
  rw [inherit, List.flatMap_append]
  congr 1
  induction after with
  | nil => rfl
  | cons c rest ih =>
    have hrest := ih fun a ha b hb => hsame a ha b (by
      rw [List.flatMap_cons]
      exact List.mem_append_right _ hb)
    rw [List.flatMap_cons, List.filter_append, hrest]
    by_cases hc : c ∈ before
    · -- all attributes of `c` are there already
      have hnone : (own c).filter
          (fun a => (find? (before.flatMap own) a.name).isNone) = [] := by
        rw [List.filter_eq_nil_iff]
        intro a ha hnone
        exact isNone_find?_iff.mp hnone
          (List.mem_map_of_mem (List.mem_flatMap.mpr ⟨c, hc, ha⟩))
      rw [hnone, List.filter_cons_of_neg (by simpa using hc), List.nil_append]
    · -- an attribute of that name would have to be declared by `c`
      have hall : (own c).filter
          (fun a => (find? (before.flatMap own) a.name).isNone) = own c := by
        rw [List.filter_eq_self]
        intro b hb
        rw [isNone_find?_iff]
        intro hmem
        obtain ⟨a, ha, hname⟩ := List.mem_map.mp hmem
        have hby := hsame a ha b (List.mem_flatMap.mpr ⟨c, by simp, hb⟩) hname
        obtain ⟨d, hd, had⟩ := List.mem_flatMap.mp ha
        rw [hown d a had, hown c b hb] at hby
        exact hc (hby ▸ hd)
      rw [hall, List.filter_cons_of_pos (by simpa using hc), List.flatMap_cons]

end Attribute

/-! ## Flattened lists -/

namespace Outline

variable {types : List TypeDecl}

/-- The class or one of its ancestors along parents that are kept. -/
def Reaches (o : Outline) : String → String → Prop := Relation.ReflTransGen o.Keeps

theorem exists_parent (hnames : (types.map (·.name)).Nodup) {child parent : String}
    (h : parent ∈ (ofTypes types).parentsOf child) : ∃ p ∈ classesOf types, p.name = parent :=
  List.mem_map.mp (parentsOf_known hnames h)

/-- No name occurs twice in a flattened list. -/
theorem names_attributesOf_nodup (hnames : (types.map (·.name)).Nodup) :
    ∀ c ∈ classesOf types, (((ofTypes types).attributesOf c.name).map (·.name)).Nodup := by
  refine class_induction hnames fun c hc ih => ?_
  rw [attributesOf_eq hnames hc]
  refine Attribute.names_effective_nodup fun list hlist => ?_
  obtain ⟨parent, hparent, rfl⟩ := List.mem_map.mp hlist
  obtain ⟨p, hp, rfl⟩ := exists_parent hnames hparent
  exact ih p hp hparent

theorem mem_inheritedFrom (hnames : (types.map (·.name)).Nodup) {child : String}
    {earlier : List String} (hsub : earlier ⊆ (ofTypes types).parentsOf child) {a : Attribute}
    (h : a ∈ (ofTypes types).inheritedFrom earlier) :
    ∃ p ∈ classesOf types, p.name ∈ earlier ∧ a ∈ (ofTypes types).attributesOf p.name := by
  rw [inheritedFrom_eq hnames fun p hp => parentsOf_known hnames (hsub hp)] at h
  obtain ⟨list, hlist, ha⟩ := Attribute.mem_inheritAll h
  obtain ⟨parent, hparent, rfl⟩ := List.mem_map.mp hlist
  obtain ⟨p, hp, rfl⟩ := exists_parent hnames (hsub hparent)
  exact ⟨p, hp, hparent, ha⟩

theorem attributesOf_eq_append (hnames : (types.map (·.name)).Nodup) {c : ClassDecl}
    (hc : c ∈ classesOf types) :
    (ofTypes types).attributesOf c.name
      = (ofTypes types).inheritedFrom ((ofTypes types).parentsOf c.name)
        ++ (Attribute.own types c
          ((ofTypes types).inheritedFrom ((ofTypes types).parentsOf c.name))).1 := by
  rw [attributesOf_eq hnames hc, inheritedFrom_eq hnames fun p hp => parentsOf_known hnames hp]
  rfl

/-- Each entry of a flattened list is declared by the class or an ancestor. -/
theorem mem_attributesOf (hnames : (types.map (·.name)).Nodup) :
    ∀ c ∈ classesOf types, ∀ a ∈ (ofTypes types).attributesOf c.name,
      ∃ x ∈ classesOf types, (ofTypes types).Reaches c.name x.name
        ∧ ∃ d ∈ x.properties, a = Attribute.ofDecl types x.name d := by
  refine class_induction hnames fun c hc ih a ha => ?_
  rw [attributesOf_eq_append hnames hc] at ha
  rcases List.mem_append.mp ha with ha | ha
  · obtain ⟨p, hp, hparent, ha⟩ := mem_inheritedFrom hnames (List.Subset.refl _) ha
    obtain ⟨x, hx, hreach, hdecl⟩ := ih p hp hparent a ha
    exact ⟨x, hx, .head hparent hreach, hdecl⟩
  · exact ⟨c, hc, .refl, Attribute.mem_own ha⟩

/-! ## What there is to say about properties -/

/-- Parent by parent, and then the own properties. -/
theorem propertyProblems_eq_nil_iff_forall (hnames : (types.map (·.name)).Nodup) :
    (ofTypes types).propertyProblems = [] ↔ ∀ c ∈ classesOf types,
      (∀ earlier parent, earlier ++ [parent] <+: (ofTypes types).parentsOf c.name →
        Attribute.conflicts c.name ((ofTypes types).inheritedFrom earlier)
          ((ofTypes types).attributesOf parent) = [])
      ∧ (Attribute.own types c
          ((ofTypes types).inheritedFrom ((ofTypes types).parentsOf c.name))).2 = [] := by
  have hwl := wellLinked_nodesOf hnames
  rw [propertyProblems, List.flatMap_eq_nil_iff]
  constructor
  · intro h c hc
    obtain ⟨n, hn, hname, hparents⟩ := exists_node hnames hc
    constructor
    · intro earlier parent hbegin
      refine h _ ((Hierarchy.inherit_mem_trace_iff hwl).mpr ⟨n, hn, hname, ?_⟩)
      rw [hparents]
      exact hbegin
    · have hfinish := h _ (Hierarchy.finish_mem_trace_iff.mpr hn)
      rw [propertyProblemsAt, hparents, hname,
        show (ofTypes types).class? c.name = some c from
          (classOf?_eq_some_iff hnames).mpr ⟨hc, rfl⟩] at hfinish
      exact hfinish
  · intro h event hevent
    cases event with
    | cycle first path => rfl
    | inherit child earlier parent =>
      obtain ⟨n, hn, rfl, hbegin⟩ := (Hierarchy.inherit_mem_trace_iff hwl).mp hevent
      obtain ⟨c, hc, hname⟩ := List.mem_map.mp (mem_classNames_of_mem_order hnames hn)
      rw [propertyProblemsAt, ← hname]
      refine (h c hc).1 earlier parent ?_
      rw [hname, parentsOf_of_mem_order hnames hn]
      exact hbegin
    | finish n =>
      have hn := Hierarchy.finish_mem_trace_iff.mp hevent
      obtain ⟨c, hc, hname⟩ := List.mem_map.mp (mem_classNames_of_mem_order hnames hn)
      have hown := (h c hc).2
      rw [hname, parentsOf_of_mem_order hnames hn] at hown
      rw [propertyProblemsAt, ← hname, show (ofTypes types).class? c.name = some c from
        (classOf?_eq_some_iff hnames).mpr ⟨hc, rfl⟩]
      exact hown

/-! ## Flattened lists are listings -/

/-- The properties that the class `name` declares, as attributes. -/
def ownOf (types : List TypeDecl) (name : String) : List Attribute :=
  match classOf? types name with
  | some c => c.properties.map (Attribute.ofDecl types c.name)
  | none => []

theorem ownOf_eq (hnames : (types.map (·.name)).Nodup) {c : ClassDecl} (hc : c ∈ classesOf types) :
    ownOf types c.name = c.properties.map (Attribute.ofDecl types c.name) := by
  rw [ownOf, (classOf?_eq_some_iff hnames).mpr ⟨hc, rfl⟩]

theorem exists_of_mem_ownOf (hnames : (types.map (·.name)).Nodup) {name : String} {a : Attribute}
    (ha : a ∈ ownOf types name) :
    ∃ c ∈ classesOf types, c.name = name ∧ a.declaredBy = name := by
  rw [ownOf] at ha
  split at ha
  · next c hfind =>
    obtain ⟨hc, hname⟩ := (classOf?_eq_some_iff hnames).mp hfind
    obtain ⟨d, -, rfl⟩ := List.mem_map.mp ha
    exact ⟨c, hc, hname, hname⟩
  · cases ha

theorem names_inheritedFrom_nodup (hnames : (types.map (·.name)).Nodup) {child : String}
    {earlier : List String} (hsub : earlier ⊆ (ofTypes types).parentsOf child) :
    (((ofTypes types).inheritedFrom earlier).map (·.name)).Nodup := by
  rw [inheritedFrom_eq hnames fun p hp => parentsOf_known hnames (hsub hp)]
  refine Attribute.names_inheritAll_nodup fun list hlist => ?_
  obtain ⟨parent, hparent, rfl⟩ := List.mem_map.mp hlist
  obtain ⟨p, hp, rfl⟩ := exists_parent hnames (hsub hparent)
  exact names_attributesOf_nodup hnames p hp

/-- What the class `name` has flattened is what it lists depth first. -/
def IsListed (types : List TypeDecl) (name : String) : Prop :=
  ∃ listed, Hierarchy.Visits (ofTypes types).parentsOf [] [name] listed
    ∧ (ofTypes types).attributesOf name = listed.flatMap (ownOf types)

/-- Parents whose flattened lists are listings are merged into a listing. -/
theorem exists_visits_parents (hnames : (types.map (·.name)).Nodup) {child : String}
    {parents : List String} (hsub : parents ⊆ (ofTypes types).parentsOf child)
    (hlisted : ∀ p ∈ parents, IsListed types p)
    (hsame : ∀ earlier parent, earlier ++ [parent] <+: parents →
      ∀ a ∈ (ofTypes types).inheritedFrom earlier, ∀ b ∈ (ofTypes types).attributesOf parent,
        a.name = b.name → a.declaredBy = b.declaredBy) :
    ∃ listed, Hierarchy.Visits (ofTypes types).parentsOf [] parents listed
      ∧ (ofTypes types).inheritedFrom parents = listed.flatMap (ownOf types) := by
  induction parents using List.reverseRecOn with
  | nil => exact ⟨[], .done [], rfl⟩
  | append_singleton before parent ih =>
    have hbefore : before ⊆ before ++ [parent] := List.subset_append_left _ _
    obtain ⟨listed, hvisits, hinherited⟩ := ih (List.Subset.trans hbefore hsub)
      (fun p hp => hlisted p (hbefore hp))
      (fun earlier p hbegin => hsame earlier p (hbegin.trans (List.prefix_append _ _)))
    obtain ⟨ofParent, hparent, hattributes⟩ := hlisted parent (by simp)
    -- the last parent is merged by name, which is by class here
    have hmerge : (ofTypes types).inheritedFrom (before ++ [parent])
        = Attribute.inherit ((ofTypes types).inheritedFrom before)
          ((ofTypes types).attributesOf parent) := by
      rw [inheritedFrom_eq hnames fun p hp => parentsOf_known hnames (hsub hp),
        inheritedFrom_eq hnames fun p hp => parentsOf_known hnames (hsub (hbefore hp)),
        List.map_append, List.map_singleton, Attribute.inheritAll_concat]
    have hmeet := hsame before parent (List.prefix_refl _)
    rw [hinherited, hattributes] at hmerge hmeet
    refine ⟨_, hvisits.snoc hparent, ?_⟩
    rw [hmerge, Attribute.inherit_flatMap (fun name a ha => ?_) hmeet]
    obtain ⟨-, -, -, hby⟩ := exists_of_mem_ownOf hnames ha
    exact hby

/-- **Where there is nothing to say about properties, flattened lists are listings.** -/
theorem exists_listing (hnames : (types.map (·.name)).Nodup)
    (h : (ofTypes types).propertyProblems = []) : ∀ c ∈ classesOf types, IsListed types c.name := by
  refine class_induction hnames fun c hc ih => ?_
  obtain ⟨hconflicts, hown⟩ := (propertyProblems_eq_nil_iff_forall hnames).mp h c hc
  have hlisted : ∀ p ∈ (ofTypes types).parentsOf c.name, IsListed types p := by
    intro parent hparent
    obtain ⟨p, hp, rfl⟩ := exists_parent hnames hparent
    exact ih p hp hparent
  obtain ⟨listed, hvisits, hinherited⟩ :=
    exists_visits_parents hnames (List.Subset.refl _) hlisted fun earlier parent hbegin =>
      (Attribute.conflicts_eq_nil_iff (names_inheritedFrom_nodup hnames
        fun p hp => hbegin.subset (List.mem_append_left _ hp))).mp
        (hconflicts earlier parent hbegin)
  refine ⟨listed ++ [c.name], hvisits.leave, ?_⟩
  rw [attributesOf_eq_append hnames hc, Attribute.own_of_silent hown, hinherited,
    List.flatMap_append, List.flatMap_singleton, ownOf_eq hnames hc]

/-- What a class or an ancestor declares is an entry of the flattened list. -/
theorem ofDecl_mem_attributesOf (hnames : (types.map (·.name)).Nodup)
    (h : (ofTypes types).propertyProblems = []) {c a : ClassDecl} (hc : c ∈ classesOf types)
    (ha : a ∈ classesOf types) (hreach : (ofTypes types).Reaches c.name a.name)
    {d : PropertyDecl} (hd : d ∈ a.properties) :
    Attribute.ofDecl types a.name d ∈ (ofTypes types).attributesOf c.name := by
  obtain ⟨listed, hvisits, heq⟩ := exists_listing hnames h c hc
  rw [heq, List.mem_flatMap]
  refine ⟨a.name, hvisits.mem_iff.mpr hreach, ?_⟩
  rw [ownOf_eq hnames ha]
  exact List.mem_map_of_mem hd

/-- **There is nothing to say about properties** iff every class declares different names, none
of them reserved, with known types, and no class has two ancestors that declare the same name. -/
theorem propertyProblems_eq_nil_iff (hnames : (types.map (·.name)).Nodup) :
    (ofTypes types).propertyProblems = [] ↔
      (∀ c ∈ classesOf types, (c.properties.map (·.name)).Nodup ∧ ∀ d ∈ c.properties,
        Name.camel d.name ∉ Attribute.reservedNames ∧ ∃ type, FieldType.Spells types d.type type)
      ∧ ∀ c ∈ classesOf types, ∀ a ∈ classesOf types, ∀ b ∈ classesOf types,
        (ofTypes types).Reaches c.name a.name → (ofTypes types).Reaches c.name b.name →
        ∀ d ∈ a.properties, ∀ e ∈ b.properties, d.name = e.name → a = b := by
  constructor
  · intro h
    refine ⟨fun c hc => ?_, fun c hc a ha b hb hca hcb d hd e he hname => ?_⟩
    · obtain ⟨hsound, hnodup⟩ := Attribute.own_silent_iff.mp
        ((propertyProblems_eq_nil_iff_forall hnames).mp h c hc).2
      exact ⟨hnodup, fun d hd => (hsound d hd).2⟩
    · -- both declarations are entries of the flattened list of `c`, which has each name once
      have hsame : Attribute.ofDecl types a.name d = Attribute.ofDecl types b.name e :=
        List.inj_on_of_nodup_map (names_attributesOf_nodup hnames c hc)
          (ofDecl_mem_attributesOf hnames h hc ha hca hd)
          (ofDecl_mem_attributesOf hnames h hc hb hcb he) hname
      exact class_eq_of_name_eq hnames ha hb (congrArg Attribute.declaredBy hsame)
  · rintro ⟨hown, hapart⟩
    refine (propertyProblems_eq_nil_iff_forall hnames).mpr fun c hc => ⟨?_, ?_⟩
    · intro earlier parent hbegin
      have hsub : earlier ⊆ (ofTypes types).parentsOf c.name :=
        fun p hp => hbegin.subset (List.mem_append_left _ hp)
      have hparent : parent ∈ (ofTypes types).parentsOf c.name := hbegin.subset (by simp)
      refine (Attribute.conflicts_eq_nil_iff (names_inheritedFrom_nodup hnames hsub)).mpr ?_
      intro a ha b hb hname
      -- both entries are declared by ancestors of `c`, which are the same by the rule
      obtain ⟨p, hp, hearlier, ha⟩ := mem_inheritedFrom hnames hsub ha
      obtain ⟨x, hx, hpx, d, hd, rfl⟩ := mem_attributesOf hnames p hp a ha
      obtain ⟨q, hq, rfl⟩ := exists_parent hnames hparent
      obtain ⟨y, hy, hqy, e, he, rfl⟩ := mem_attributesOf hnames q hq b hb
      have hxy := hapart c hc x hx y hy (.head (hsub hearlier) hpx) (.head hparent hqy)
        d hd e he hname
      rw [hxy]
      rfl
    · refine Attribute.own_silent_iff.mpr ⟨fun d hd => ⟨?_, (hown c hc).2 d hd⟩, (hown c hc).1⟩
      -- an ancestor that declares the name would be the class itself, and on a cycle
      intro hmem
      obtain ⟨a, ha, hname⟩ := List.mem_map.mp hmem
      obtain ⟨p, hp, hparent, ha⟩ := mem_inheritedFrom hnames (List.Subset.refl _) ha
      obtain ⟨x, hx, hpx, e, he, rfl⟩ := mem_attributesOf hnames p hp a ha
      have hxc := hapart c hc x hx c hc (.head hparent hpx) .refl e he d hd hname
      have hcycle : Relation.TransGen (ofTypes types).Keeps c.name c.name :=
        .head' hparent (hxc ▸ hpx)
      rw [keeps_eq hnames] at hcycle
      exact (Hierarchy.parentsFirst_trace (wellLinked_nodesOf hnames)).acyclic c.name hcycle

end Outline

/-! ## Properties by their declarations -/

/-- The class `name` has the property that `a`, which is the class itself or an ancestor,
declares by `d`. -/
def Document.Effective (document : Document) (name : String) (a : ClassDecl) (d : PropertyDecl) :
    Prop :=
  a ∈ Outline.classesOf document.types ∧ Relation.ReflTransGen document.Inherits name a.name
    ∧ d ∈ a.properties

/-- The class `name` has a property of the given name. -/
def Document.HasProperty (document : Document) (name property : String) : Prop :=
  ∃ a d, document.Effective name a d ∧ d.name = property

section Effective

variable {document : Document} (hnames : (document.types.map (·.name)).Nodup)
  (hkeeps : (Outline.ofTypes document.types).Keeps = document.Inherits)
  (hproperties : (Outline.ofTypes document.types).propertyProblems = [])

include hnames hkeeps hproperties

/-- The entries of a flattened list are the declarations of the class and its ancestors. -/
theorem Document.mem_attributesOf_iff {c : ClassDecl} (hc : c ∈ Outline.classesOf document.types)
    {entry : Attribute} :
    entry ∈ (Outline.ofTypes document.types).attributesOf c.name ↔
      ∃ a d, document.Effective c.name a d
        ∧ entry = Attribute.ofDecl document.types a.name d := by
  constructor
  · intro h
    obtain ⟨a, ha, hreach, d, hd, rfl⟩ := Outline.mem_attributesOf hnames c hc entry h
    rw [Outline.Reaches, hkeeps] at hreach
    exact ⟨a, d, ⟨ha, hreach, hd⟩, rfl⟩
  · rintro ⟨a, d, ⟨ha, hreach, hd⟩, rfl⟩
    rw [← hkeeps] at hreach
    exact Outline.ofDecl_mem_attributesOf hnames hproperties hc ha hreach hd

/-- What is said about the names in a flattened list is said about those declarations. -/
theorem Document.forall_names_attributesOf_iff {c : ClassDecl}
    (hc : c ∈ Outline.classesOf document.types) {P : String → Prop} :
    (∀ entry ∈ (Outline.ofTypes document.types).attributesOf c.name, P entry.name) ↔
      ∀ a d, document.Effective c.name a d → P d.name := by
  constructor
  · intro h a d heffective
    have hentry := (mem_attributesOf_iff hnames hkeeps hproperties hc).mpr ⟨a, d, heffective, rfl⟩
    exact h _ hentry
  · intro h entry hentry
    obtain ⟨a, d, heffective, rfl⟩ :=
      (mem_attributesOf_iff hnames hkeeps hproperties hc).mp hentry
    exact h a d heffective

theorem Document.mem_names_attributesOf_iff {c : ClassDecl}
    (hc : c ∈ Outline.classesOf document.types) {name : String} :
    name ∈ ((Outline.ofTypes document.types).attributesOf c.name).map (·.name) ↔
      document.HasProperty c.name name := by
  rw [List.mem_map]
  constructor
  · rintro ⟨entry, hentry, rfl⟩
    obtain ⟨a, d, heffective, rfl⟩ :=
      (mem_attributesOf_iff hnames hkeeps hproperties hc).mp hentry
    exact ⟨a, d, heffective, rfl⟩
  · rintro ⟨a, d, heffective, rfl⟩
    exact ⟨_, (mem_attributesOf_iff hnames hkeeps hproperties hc).mpr ⟨a, d, heffective, rfl⟩, rfl⟩

end Effective

end WireModel
