import WireModel.Proofs.References
import WireModel.Proofs.Subjects

/-!
# No problem hides another

A document is resolved as a whole. A class whose parents are wrong still has its properties
checked, a property that clashes does not keep the next one from being looked at, and a cycle is
broken rather than followed. This module says it for the problems that every other one could hide:
with a parent, with the type of a property or of an argument, with a literal and with a reference
to a type.

## The architecture

* A pass over a list reports on an item in view of what it has kept before (`mem_sift_report`). So
  what is reported about an item depends on the items before it, and on those only through what is
  kept of them.
* What is kept can be said without the pass. Of parents, the classes (`ClassDecl.mem_link`); of
  literals, `LiteralDecl.kept`; of properties, a name is taken iff the class has declared it before
  or an ancestor declares it (**`Outline.mem_names_attributesOf_iff`**). The last holds of the
  hierarchy that is left when cycles are broken, whatever else is wrong.
* **`Model.problems_reported`** puts the passes together, as `Document.Reported`. That dropping
  repeated lines drops no diagnostic is in `Subjects`.
-/

namespace WireModel

/-! ## Types that stay -/

namespace TypeDecl

/-- Types whose capital names differ all stay, and each is asked about its literals. -/
theorem sift_declare_of_nodup {kept types : List TypeDecl}
    (h : ((kept ++ types).map fun d => Name.capital d.name).Nodup) :
    (sift declare kept types).1 = kept ++ types.map (·.declareBody.1)
      ∧ ∀ d ∈ types, d.declareBody.2 ⊆ (sift declare kept types).2 := by
  induction types generalizing kept with
  | nil => simp
  | cons d rest ih =>
    have hnew : (kept.find? fun k => Name.capital k.name == Name.capital d.name) = none := by
      rw [find?_key_eq_none_iff]
      rw [List.map_append, List.map_cons, List.nodup_append] at h
      exact fun hmem => h.2.2 _ hmem _ List.mem_cons_self rfl
    have hrest :
        (((kept ++ [d.declareBody.1]) ++ rest).map fun d => Name.capital d.name).Nodup := by
      simpa using h
    obtain ⟨hresult, hreports⟩ := ih hrest
    rw [sift_cons, declare_of_find?_eq_none hnew]
    refine ⟨hresult.trans (by simp), fun e he p hp => ?_⟩
    rcases List.mem_cons.mp he with rfl | he
    · exact List.mem_append_left _ (List.mem_append_right _ hp)
    · exact List.mem_append_right _ (hreports e he hp)

end TypeDecl

/-- The texts and names of a document whose types all stay are those of its outline. -/
structure Document.Stays (document : Document) : Prop where
  types : document.outline.types = document.types.map (·.declareBody.1)
  classes : document.outline.classes = Outline.classesOf document.types
  names : document.outline.types.map (·.name) = document.types.map (·.name)
  literals : ∀ d ∈ document.types, d.declareBody.2 ⊆ (TypeDecl.declareAll document.types).2

theorem Document.stays_of_nodup {document : Document}
    (h : (document.types.map fun d => Name.capital d.name).Nodup) : document.Stays := by
  have hstart : (([] ++ document.types).map fun d : TypeDecl => Name.capital d.name).Nodup := h
  obtain ⟨hkept, hliterals⟩ := TypeDecl.sift_declare_of_nodup hstart
  have htypes : document.outline.types = document.types.map (·.declareBody.1) := hkept
  refine ⟨htypes, ?_, ?_, hliterals⟩
  · rw [Outline.classes, htypes, Outline.classesOf, Outline.classesOf, List.filterMap_map]
    refine List.filterMap_congr fun d _ => ?_
    cases d <;> rfl
  · rw [htypes, List.map_map]
    exact List.map_congr_left fun d _ => d.name_declareBody

/-! ## Literals -/

/-- A literal cannot stay beside another with the same capital name or the same value. -/
def LiteralDecl.Clashes (k l : LiteralDecl) : Prop :=
  Name.capital k.name = Name.capital l.name ∨ k.value = l.value

instance (k l : LiteralDecl) : Decidable (k.Clashes l) := inferInstanceAs (Decidable (_ ∨ _))

/-- What is kept of literals: each that does not clash with one that is kept before it. -/
def LiteralDecl.kept (literals : List LiteralDecl) : List LiteralDecl :=
  literals.foldl (fun kept l => if ∃ k ∈ kept, k.Clashes l then kept else kept ++ [l]) []

namespace LiteralDecl

theorem declare_of_apart {owner : String} {kept : List LiteralDecl} {l : LiteralDecl}
    (h : ∀ k ∈ kept, ¬k.Clashes l) : declare owner kept l = (some l, []) := by
  have hname : ¬(kept.any fun k => Name.capital k.name == Name.capital l.name) = true := by
    rw [List.any_eq_true]
    rintro ⟨k, hk, heq⟩
    exact h k hk (.inl (eq_of_beq heq))
  have hvalue : ¬(kept.any fun k => k.value == l.value) = true := by
    rw [List.any_eq_true]
    rintro ⟨k, hk, heq⟩
    exact h k hk (.inr (eq_of_beq heq))
  rw [declare, if_neg hname, if_neg hvalue]

theorem declare_of_clash (owner : String) {kept : List LiteralDecl} {k l : LiteralDecl}
    (hk : k ∈ kept) (hclash : k.Clashes l) :
    ∃ p, declare owner kept l = (none, [p])
      ∧ ∃ message, p.diagnostic = ⟨.duplicateName, owner ++ "." ++ l.name, message⟩ := by
  rw [declare]
  split
  · exact ⟨_, rfl, _, rfl⟩
  · next hname =>
    have hvalue : (kept.any fun k => k.value == l.value) = true := by
      refine List.any_eq_true.mpr ⟨k, hk, ?_⟩
      rcases hclash with heq | heq
      · exact absurd (List.any_eq_true.mpr ⟨k, hk, by simp [heq]⟩) hname
      · simp [heq]
    rw [if_pos hvalue]
    exact ⟨_, rfl, _, rfl⟩

theorem kept_concat (literals : List LiteralDecl) (l : LiteralDecl) :
    kept (literals ++ [l])
      = if ∃ k ∈ kept literals, k.Clashes l then kept literals else kept literals ++ [l] := by
  rw [kept, List.foldl_append]
  rfl

theorem sift_declare (owner : String) (literals : List LiteralDecl) :
    (sift (declare owner) [] literals).1 = kept literals := by
  induction literals using List.reverseRecOn with
  | nil => rfl
  | append_singleton literals l ih =>
    rw [sift_append, sift_cons, ih, kept_concat]
    split
    · next hclash =>
      obtain ⟨k, hk, hkl⟩ := hclash
      obtain ⟨q, hdeclare, -⟩ := declare_of_clash owner hk hkl
      rw [hdeclare]
      exact List.append_nil _
    · next hapart =>
      rw [declare_of_apart fun k hk hkl => hapart ⟨k, hk, hkl⟩]
      rfl

end LiteralDecl

/-! ## Names of properties, whatever is wrong -/

namespace Attribute

variable {types : List TypeDecl}

theorem mem_names_inherit {attributes more : List Attribute} {name : String} :
    name ∈ (inherit attributes more).map (·.name) ↔
      name ∈ attributes.map (·.name) ∨ name ∈ more.map (·.name) := by
  rw [inherit, List.map_append, List.mem_append]
  constructor
  · exact Or.imp_right fun h => (List.filter_sublist.map _).subset h
  · rintro (h | h)
    · exact .inl h
    · by_cases hname : name ∈ attributes.map (·.name)
      · exact .inl hname
      · obtain ⟨a, ha, rfl⟩ := List.mem_map.mp h
        exact .inr (List.mem_map_of_mem (List.mem_filter.mpr ⟨ha, isNone_find?_iff.mpr hname⟩))

theorem mem_names_inheritAll {lists : List (List Attribute)} {name : String} :
    name ∈ (inheritAll lists).map (·.name) ↔ ∃ list ∈ lists, name ∈ list.map (·.name) := by
  induction lists using List.reverseRecOn with
  | nil => simp [inheritAll]
  | append_singleton lists list ih =>
    rw [inheritAll_concat, mem_names_inherit, ih]
    simp only [List.mem_append, List.mem_singleton]
    constructor
    · rintro (⟨l, hl, hname⟩ | hname)
      · exact ⟨l, .inl hl, hname⟩
      · exact ⟨list, .inr rfl, hname⟩
    · rintro ⟨l, hl | rfl, hname⟩
      · exact .inl ⟨l, hl, hname⟩
      · exact .inr hname

/-- A declaration whose name is free is kept, and asked about its type. -/
theorem declare_of_free {owner : String} {inherited kept : List Attribute} {d : PropertyDecl}
    (h : find? (inherited ++ kept) d.name = none) :
    (declare types owner inherited kept d).1 = some (ofDecl types owner d)
      ∧ (FieldType.resolve types (.member owner d.name) d.type).2
        ⊆ (declare types owner inherited kept d).2 := by
  rw [declare, h]
  exact ⟨rfl, List.subset_append_right _ _⟩

/-- A declaration whose name is taken is dropped, and that is reported. -/
theorem declare_of_taken {owner : String} {inherited kept : List Attribute} {d : PropertyDecl}
    (h : find? (inherited ++ kept) d.name ≠ none) :
    ∃ q ∈ (declare types owner inherited kept d).2, ∃ message,
      q.diagnostic = ⟨.duplicateName, owner ++ "." ++ d.name, message⟩ := by
  obtain ⟨other, hother⟩ := Option.ne_none_iff_exists'.mp h
  rw [declare, hother]
  refine ⟨_, List.mem_singleton.mpr rfl, ?_⟩
  split <;> exact ⟨_, rfl⟩

/-- A name that is declared is taken afterwards, by the declaration or by what dropped it. -/
theorem mem_names_own {c : ClassDecl} {inherited : List Attribute} {name : String} :
    name ∈ (inherited ++ (own types c inherited).1).map (·.name) ↔
      name ∈ inherited.map (·.name) ∨ name ∈ c.properties.map (·.name) := by
  rw [List.map_append, List.mem_append]
  constructor
  · refine Or.imp_right fun h => ?_
    obtain ⟨a, ha, rfl⟩ := List.mem_map.mp h
    obtain ⟨d, hd, rfl⟩ := mem_own ha
    exact List.mem_map.mpr ⟨d, hd, rfl⟩
  · rintro (h | h)
    · exact .inl h
    · obtain ⟨d, hd, rfl⟩ := List.mem_map.mp h
      obtain ⟨before, after, hsplit⟩ := List.append_of_mem hd
      rw [own, hsplit]
      cases hfind : find? (inherited
        ++ (sift (declare types c.name inherited) [] before).1) d.name with
      | none =>
        exact .inr (List.mem_map.mpr
          ⟨_, mem_sift_result_of_step (declare_of_free hfind).1, rfl⟩)
      | some other =>
        -- what has the name already stays
        have hname : other.name = d.name := by simpa using List.find?_some hfind
        rw [← hname, sift_append]
        rcases List.mem_append.mp (List.mem_of_find?_eq_some hfind) with hother | hother
        · exact .inl (List.mem_map_of_mem hother)
        · exact .inr (List.mem_map_of_mem (subset_sift_result _ _ hother))

end Attribute

namespace Outline

variable {types : List TypeDecl} (hnames : (types.map (·.name)).Nodup)

include hnames

theorem mem_names_inheritedFrom_iff {c : ClassDecl} {name : String} :
    name ∈ ((ofTypes types).inheritedFrom ((ofTypes types).parentsOf c.name)).map (·.name) ↔
      ∃ p ∈ classesOf types, (ofTypes types).Keeps c.name p.name
        ∧ name ∈ ((ofTypes types).attributesOf p.name).map (·.name) := by
  rw [inheritedFrom_eq hnames fun p hp => parentsOf_known hnames hp,
    Attribute.mem_names_inheritAll]
  constructor
  · rintro ⟨list, hlist, hname⟩
    obtain ⟨parent, hparent, rfl⟩ := List.mem_map.mp hlist
    obtain ⟨p, hp, rfl⟩ := exists_parent hnames hparent
    exact ⟨p, hp, hparent, hname⟩
  · rintro ⟨p, hp, hparent, hname⟩
    exact ⟨_, List.mem_map_of_mem hparent, hname⟩

/-- **A class has a property of each name that it or an ancestor declares**, and of no other. -/
theorem mem_names_attributesOf_iff : ∀ c ∈ classesOf types, ∀ name,
    name ∈ ((ofTypes types).attributesOf c.name).map (·.name) ↔
      ∃ a ∈ classesOf types, (ofTypes types).Reaches c.name a.name
        ∧ name ∈ a.properties.map (·.name) := by
  -- from parents to children, along what is left when cycles are broken
  refine class_induction hnames fun c hc ih name => ?_
  rw [attributesOf_eq_append hnames hc, Attribute.mem_names_own,
    mem_names_inheritedFrom_iff hnames]
  constructor
  · rintro (⟨p, hp, hparent, hname⟩ | hname)
    · obtain ⟨a, ha, hreach, hname⟩ := (ih p hp hparent name).mp hname
      exact ⟨a, ha, .head hparent hreach, hname⟩
    · exact ⟨c, hc, .refl, hname⟩
  · rintro ⟨a, ha, hreach, hname⟩
    rcases hreach.cases_head with heq | ⟨parent, hparent, hreach⟩
    · obtain rfl := class_eq_of_name_eq hnames hc ha heq
      exact .inr hname
    · obtain ⟨p, hp, rfl⟩ := exists_parent hnames hparent
      exact .inl ⟨p, hp, hparent, (ih p hp hparent name).mpr ⟨a, ha, hreach, hname⟩⟩

/-- What is inherited has the names that ancestors declare. -/
theorem mem_names_inherited_iff {c : ClassDecl} {name : String} :
    name ∈ ((ofTypes types).inheritedFrom ((ofTypes types).parentsOf c.name)).map (·.name) ↔
      ∃ a ∈ classesOf types, Relation.TransGen (ofTypes types).Keeps c.name a.name
        ∧ name ∈ a.properties.map (·.name) := by
  rw [mem_names_inheritedFrom_iff hnames]
  constructor
  · rintro ⟨p, hp, hparent, hname⟩
    obtain ⟨a, ha, hreach, hname⟩ := (mem_names_attributesOf_iff hnames p hp name).mp hname
    exact ⟨a, ha, .head' hparent hreach, hname⟩
  · rintro ⟨a, ha, hdescends, hname⟩
    obtain ⟨parent, hparent, hreach⟩ := Relation.TransGen.head'_iff.mp hdescends
    obtain ⟨p, hp, rfl⟩ := exists_parent hnames hparent
    exact ⟨p, hp, hparent, (mem_names_attributesOf_iff hnames p hp name).mpr ⟨a, ha, hreach, hname⟩⟩

/-- Every class is asked about its own properties. -/
theorem own_subset_propertyProblems {c : ClassDecl} (hc : c ∈ classesOf types) :
    (Attribute.own types c ((ofTypes types).inheritedFrom ((ofTypes types).parentsOf c.name))).2
      ⊆ (ofTypes types).propertyProblems := by
  intro p hp
  -- the walk finishes every class, whatever cycles it meets
  obtain ⟨n, hn, hname, hparents⟩ := exists_node hnames hc
  refine List.mem_flatMap.mpr ⟨.finish n, Hierarchy.finish_mem_trace_iff.mpr hn, ?_⟩
  rw [propertyProblemsAt, hparents, hname, show (ofTypes types).class? c.name = some c from
    (classOf?_eq_some_iff hnames).mpr ⟨hc, rfl⟩]
  exact hp

end Outline

/-! ## What must be reported -/

/-- The diagnostics for a text that is not the type of a field: it cannot be read, or what it
names is not declared. -/
inductive FieldType.Misspells (names : List String) (subject text : String) :
    Diagnostic → Prop where
  | malformed {e : FieldTypeError} (h : FieldType.parse text = .error e) :
      Misspells names subject text ⟨.invalidFieldType, subject,
        "Invalid type annotation \"" ++ text ++ "\": " ++ e.message⟩
  | unknown {type : FieldType Atom} {name : String} (h : FieldType.parse text = .ok type)
      (hitem : type.item = .named name) (hname : name ∉ names) :
      Misspells names subject text ⟨.unknownType, subject, "Unknown type \"" ++ name ++ "\""⟩

/-- What is said of a parent that a class cannot have, after the parents `before`. -/
inductive Document.BadParent (document : Document) (before : List String) (p : String) :
    String → Prop where
  | unknown (h : p ∉ document.types.map (·.name)) :
      BadParent document before p ("Unknown parent \"" ++ p ++ "\"")
  | notClass {d : TypeDecl} (hd : d ∈ document.types) (hname : d.name = p)
      (hclass : d.class? = none) :
      BadParent document before p ("Parent \"" ++ p ++ "\" is not a class")
  | repeated (hclass : p ∈ (Outline.classesOf document.types).map (·.name)) (h : p ∈ before) :
      BadParent document before p ("Parent \"" ++ p ++ "\" is listed more than once")

/-- A declaration of the class `c` is kept, after the declarations `before`: neither one of them
nor an ancestor has a property of that name. -/
def Document.KeepsProperty (document : Document) (c : ClassDecl) (before : List PropertyDecl)
    (d : PropertyDecl) : Prop :=
  d.name ∉ before.map (·.name)
    ∧ ∀ a ∈ Outline.classesOf document.types,
      Relation.TransGen document.outline.Keeps c.name a.name → d.name ∉ a.properties.map (·.name)

/-- The description of a type as the document has it. -/
def TypeDecl.description : TypeDecl → Option String
  | .enumeration d => d.description
  | .constrained d => d.description
  | .classType d => d.description

/-- A reference of the text to a type that is not declared is reported on the element `subject`. -/
def Document.ReportsReferences (document : Document) (reported : List Diagnostic)
    (subject : String) (prose : Option String) : Prop :=
  ∀ s, prose = some s → ∀ name, ⟨.type, name⟩ ∈ Description.mentions s →
    name ∉ document.types.map (·.name) →
    ⟨.unresolvedReference, subject, "Unresolved reference " ++ (Mention.mk .type name).text⟩
      ∈ reported

/-- What must be reported about a document, whatever else is wrong with it. -/
structure Document.Reported (document : Document) (reported : List Diagnostic) : Prop where
  parents : ∀ c ∈ Outline.classesOf document.types, ∀ before p after,
    c.parents = before ++ p :: after → ∀ message, document.BadParent before p message →
      ⟨.invalidParent, c.name, message⟩ ∈ reported
  properties : ∀ c ∈ Outline.classesOf document.types, ∀ before d after,
    c.properties = before ++ d :: after → document.KeepsProperty c before d → ∀ diagnostic,
      FieldType.Misspells (document.types.map (·.name)) (c.name ++ "." ++ d.name) d.type
        diagnostic → diagnostic ∈ reported
  /-- A property that is not kept is reported as a duplicate. -/
  dropped : ∀ c ∈ Outline.classesOf document.types, ∀ before d after,
    c.properties = before ++ d :: after → ¬document.KeepsProperty c before d →
      ∃ message, ⟨.duplicateName, c.name ++ "." ++ d.name, message⟩ ∈ reported
  arguments : ∀ c ∈ Outline.classesOf document.types, ∀ before d after,
    c.arguments = some (before ++ d :: after) → d.name ∉ before.map (·.name) → ∀ diagnostic,
      FieldType.Misspells (document.types.map (·.name)) (c.name ++ "(" ++ d.name ++ ")") d.type
        diagnostic → diagnostic ∈ reported
  literals : ∀ e, .enumeration e ∈ document.types → ∀ before l after,
    e.literals = before ++ l :: after → (∃ k ∈ LiteralDecl.kept before, k.Clashes l) →
      ∃ message, ⟨.duplicateName, e.name ++ "." ++ l.name, message⟩ ∈ reported
  types_described : ∀ d ∈ document.types, document.ReportsReferences reported d.name d.description
  properties_described : ∀ c ∈ Outline.classesOf document.types, ∀ before d after,
    c.properties = before ++ d :: after → document.KeepsProperty c before d →
      document.ReportsReferences reported (c.name ++ "." ++ d.name) d.description
  described : document.ReportsReferences reported document.name document.description

/-! ## Pass by pass -/

/-- The properties that the parents of a class pass on to it. -/
def Document.inheritedBy (document : Document) (c : ClassDecl) : List Attribute :=
  document.outline.inheritedFrom (document.outline.parentsOf c.name)

/-- The properties that a class has of its own when it has declared `before`. -/
def Document.ownAfter (document : Document) (c : ClassDecl) (before : List PropertyDecl) :
    List Attribute :=
  (Attribute.own document.outline.types { c with properties := before }
    (document.inheritedBy c)).1

theorem Description.mem_unresolved {lookup : Lookup} {s : String} {r : Mention}
    (hr : r ∈ mentions s) (h : lookup r = none) : r ∈ unresolved lookup s := by
  obtain ⟨piece, hpiece, heq⟩ := List.mem_filterMap.mp hr
  cases piece with
  | text => cases heq
  | mention r' =>
    obtain rfl := Option.some.inj heq
    exact List.mem_filterMap.mpr ⟨_, hpiece, by simp [Piece.unresolved?, h]⟩

theorem Argument.name_of_declare {types : List TypeDecl} {owner : String} (kept : List Argument)
    (d : ArgumentDecl) (a : Argument) (h : (declare types owner kept d).1 = some a) :
    a.name = d.name := by
  rw [declare] at h
  split at h
  · cases h
  · rw [← Option.some.inj h]

theorem FieldType.Misspells.exists_problem {types : List TypeDecl} (subject : Subject)
    {text : String} {diagnostic : Diagnostic}
    (h : Misspells (types.map (·.name)) subject.text text diagnostic) :
    ∃ q ∈ (resolve types subject text).2, q.diagnostic = diagnostic := by
  cases h with
  | malformed h =>
    rw [resolve, h]
    exact ⟨_, List.mem_singleton.mpr rfl, rfl⟩
  | @unknown type name h hitem hname =>
    have hunknown : type.item.unknown? types = some name := by
      rw [hitem, Atom.unknown?, if_neg]
      rw [List.any_eq_true]
      rintro ⟨d, hd, heq⟩
      exact hname (List.mem_map.mpr ⟨d, hd, eq_of_beq heq⟩)
    rw [resolve, h]
    simp only [hunknown]
    exact ⟨_, List.mem_singleton.mpr rfl, rfl⟩

namespace Document.Stays

variable {document : Document} (hs : document.Stays)

include hs

theorem mem_classes {c : ClassDecl} :
    c ∈ document.outline.classes ↔ c ∈ Outline.classesOf document.types := by
  rw [hs.classes]

theorem find?_name {d : TypeDecl} (hd : d ∈ document.types) :
    document.outline.types.find? (fun t => t.name == d.name) = some d.declareBody.1 := by
  have hmem : d.declareBody.1 ∈ document.outline.types := hs.types ▸ List.mem_map_of_mem hd
  exact (find?_key_eq_some_iff (TypeDecl.names_declareAll_nodup document.types)).mpr
    ⟨hmem, d.name_declareBody⟩

theorem class?_name {c : ClassDecl} (hc : c ∈ Outline.classesOf document.types) :
    document.outline.class? c.name = some c :=
  (Outline.classOf?_eq_some_iff (TypeDecl.names_declareAll_nodup document.types)).mpr
    ⟨hs.mem_classes.mpr hc, rfl⟩

/-- What is wrong with a parent is said, whatever stands before and after it. -/
theorem parent_reported {c : ClassDecl} (hc : c ∈ Outline.classesOf document.types)
    {before after : List String} {p message : String} (hsplit : c.parents = before ++ p :: after)
    (h : document.BadParent before p message) :
    ∃ q ∈ document.outline.parentProblems,
      q.diagnostic = ⟨.invalidParent, c.name, message⟩ := by
  -- the parents before this one are linked as if there were no others
  have hreport : ∀ q, q ∈ (ClassDecl.linkParent document.outline.types c.name
      (ClassDecl.link document.outline.types { c with parents := before }).1 p).2 →
      q ∈ document.outline.parentProblems := by
    intro q hq
    refine List.mem_flatMap.mpr ⟨c, hs.mem_classes.mpr hc, ?_⟩
    rw [ClassDecl.link, hsplit]
    exact mem_sift_report hq
  cases h with
  | unknown h =>
    have hfind : document.outline.types.find? (fun d => d.name == p) = none :=
      find?_key_eq_none_iff.mpr (hs.names ▸ h)
    refine ⟨.unknownParent c.name p, hreport _ ?_, rfl⟩
    rw [ClassDecl.linkParent, hfind]
    exact List.mem_singleton.mpr rfl
  | @notClass d hd hname hclass =>
    subst hname
    refine ⟨.parentNotClass c.name d.name, hreport _ ?_, rfl⟩
    rw [ClassDecl.linkParent, hs.find?_name hd]
    cases d with
    | classType => cases hclass
    | enumeration | constrained => exact List.mem_singleton.mpr rfl
  | repeated hclass h =>
    obtain ⟨x, hx, rfl⟩ := List.mem_map.mp hclass
    have hfind : document.outline.types.find? (fun d => d.name == x.name) = some (.classType x) :=
      hs.find?_name (Outline.mem_classesOf.mp hx)
    have hkept : x.name ∈ (ClassDecl.link document.outline.types { c with parents := before }).1 :=
      (ClassDecl.mem_link (TypeDecl.names_declareAll_nodup document.types)).mpr
        ⟨h, List.mem_map_of_mem (hs.mem_classes.mpr hx)⟩
    refine ⟨.repeatedParent c.name x.name, hreport _ ?_, rfl⟩
    rw [ClassDecl.linkParent, hfind]
    simp only [List.contains_iff_mem.mpr hkept, if_true, List.mem_singleton]

/-! ### Properties -/

/-- A name is free for a declaration iff the declaration is kept. -/
theorem isFree_iff {c : ClassDecl} {before : List PropertyDecl} {d : PropertyDecl} :
    Attribute.find? (document.inheritedBy c ++ document.ownAfter c before) d.name = none ↔
      document.KeepsProperty c before d := by
  have hinherited : d.name ∈ (document.inheritedBy c).map (·.name) ↔
      ∃ a ∈ Outline.classesOf document.types,
        Relation.TransGen document.outline.Keeps c.name a.name
          ∧ d.name ∈ a.properties.map (·.name) := by
    rw [← hs.classes]
    exact Outline.mem_names_inherited_iff (TypeDecl.names_declareAll_nodup document.types)
  rw [Attribute.find?, find?_key_eq_none_iff, ownAfter, Attribute.mem_names_own, hinherited,
    KeepsProperty]
  simp only [not_or, not_exists, not_and]
  exact and_comm

section Properties

variable {c : ClassDecl} (hc : c ∈ Outline.classesOf document.types)
  {before after : List PropertyDecl} {d : PropertyDecl}
  (hsplit : c.properties = before ++ d :: after)

include hc hsplit

theorem declare_subset_propertyProblems :
    (Attribute.declare document.outline.types c.name (document.inheritedBy c)
      (document.ownAfter c before) d).2 ⊆ document.outline.propertyProblems := by
  intro q hq
  refine Outline.own_subset_propertyProblems (TypeDecl.names_declareAll_nodup document.types)
    (hs.mem_classes.mpr hc) ?_
  rw [Attribute.own, hsplit]
  exact mem_sift_report hq

theorem property_reported (hkept : document.KeepsProperty c before d) {diagnostic : Diagnostic}
    (h : FieldType.Misspells (document.types.map (·.name)) (c.name ++ "." ++ d.name) d.type
      diagnostic) :
    ∃ q ∈ document.outline.propertyProblems, q.diagnostic = diagnostic := by
  rw [← hs.names] at h
  obtain ⟨q, hq, hdiagnostic⟩ :=
    FieldType.Misspells.exists_problem (.member c.name d.name) h
  refine ⟨q, hs.declare_subset_propertyProblems hc hsplit ?_, hdiagnostic⟩
  exact (Attribute.declare_of_free (hs.isFree_iff.mpr hkept)).2 hq

theorem dropped_reported (hdropped : ¬document.KeepsProperty c before d) :
    ∃ q ∈ document.outline.propertyProblems, ∃ message,
      q.diagnostic = ⟨.duplicateName, c.name ++ "." ++ d.name, message⟩ := by
  obtain ⟨q, hq, hdiagnostic⟩ := Attribute.declare_of_taken (mt hs.isFree_iff.mp hdropped)
  exact ⟨q, hs.declare_subset_propertyProblems hc hsplit hq, hdiagnostic⟩

/-- A declaration that is kept is an own property of its class. -/
theorem ofDecl_mem_ownAttributes (hkept : document.KeepsProperty c before d) :
    Attribute.ofDecl document.outline.types c.name d ∈ document.outline.ownAttributes c.name := by
  have hnames := TypeDecl.names_declareAll_nodup document.types
  refine List.mem_filter.mpr ⟨?_, by simp [Attribute.ofDecl]⟩
  have hown : Attribute.ofDecl document.outline.types c.name d
      ∈ (Attribute.own document.outline.types c (document.inheritedBy c)).1 := by
    rw [Attribute.own, hsplit]
    exact mem_sift_result_of_step (Attribute.declare_of_free (hs.isFree_iff.mpr hkept)).1
  show _ ∈ (Outline.ofTypes _).attributesOf c.name
  rw [Outline.attributesOf_eq_append hnames (hs.mem_classes.mpr hc)]
  exact List.mem_append_right _ hown

end Properties

/-! ### Arguments and literals -/

theorem argument_reported {c : ClassDecl} (hc : c ∈ Outline.classesOf document.types)
    {before after : List ArgumentDecl} {d : ArgumentDecl}
    (hsplit : c.arguments = some (before ++ d :: after)) (hfirst : d.name ∉ before.map (·.name))
    {diagnostic : Diagnostic}
    (h : FieldType.Misspells (document.types.map (·.name)) (c.name ++ "(" ++ d.name ++ ")") d.type
      diagnostic) :
    ∃ q ∈ document.outline.constructorProblems, q.diagnostic = diagnostic := by
  rw [← hs.names] at h
  obtain ⟨q, hq, hdiagnostic⟩ :=
    FieldType.Misspells.exists_problem (.argument c.name d.name) h
  refine ⟨q, List.mem_flatMap.mpr ⟨c, hs.mem_classes.mpr hc, ?_⟩, hdiagnostic⟩
  rw [Argument.ofClass, hsplit]
  refine List.mem_append_left _ (mem_sift_report ?_)
  -- what is kept has names that stand before
  have hfree : ¬((sift (Argument.declare document.outline.types c.name) [] before).1.any
      fun a => a.name == d.name) = true := by
    rw [List.any_eq_true]
    rintro ⟨a, ha, heq⟩
    obtain ⟨e, he, hname⟩ := sift_result_of_mem Argument.name_of_declare ha
    exact hfirst (List.mem_map.mpr ⟨e, he, hname.symm.trans (eq_of_beq heq)⟩)
  rw [Argument.declare, if_neg hfree]
  exact List.mem_append_left _ hq

theorem literal_reported {e : EnumerationDecl} (he : .enumeration e ∈ document.types)
    {before after : List LiteralDecl} {l : LiteralDecl}
    (hsplit : e.literals = before ++ l :: after)
    (hclash : ∃ k ∈ LiteralDecl.kept before, k.Clashes l) :
    ∃ q ∈ (TypeDecl.declareAll document.types).2, ∃ message,
      q.diagnostic = ⟨.duplicateName, e.name ++ "." ++ l.name, message⟩ := by
  obtain ⟨k, hk, hclash⟩ := hclash
  obtain ⟨q, hdeclare, hdiagnostic⟩ := LiteralDecl.declare_of_clash e.name hk hclash
  refine ⟨q, hs.literals _ he ?_, hdiagnostic⟩
  show q ∈ (sift (LiteralDecl.declare e.name) [] e.literals).2
  rw [hsplit]
  refine mem_sift_report ?_
  rw [LiteralDecl.sift_declare, hdeclare]
  exact List.mem_singleton.mpr rfl

/-! ### Descriptions -/

/-- What does not resolve is reported wherever the description is read. -/
theorem reportsReferences {reported : List Diagnostic}
    (hreported : ∀ q ∈ document.outline.referenceProblems document, q.diagnostic ∈ reported)
    {within prose : Option String} {subject : Subject}
    (hread : document.outline.unresolvedIn within subject prose
      ⊆ document.outline.referenceProblems document) :
    document.ReportsReferences reported subject.text prose := by
  rintro s rfl name hmention hname
  have hlookup : document.outline.lookup within ⟨.type, name⟩ = none := by
    refine if_neg ?_
    rw [List.any_eq_true]
    rintro ⟨d, hd, heq⟩
    exact hname (hs.names ▸ List.mem_map.mpr ⟨d, hd, eq_of_beq heq⟩)
  refine hreported (.unresolvedReference subject ⟨.type, name⟩) (hread ?_)
  exact List.mem_map_of_mem (Description.mem_unresolved hmention hlookup)

/-- The description of a type is read. -/
theorem exists_read_type {d : TypeDecl} (hd : d ∈ document.types) :
    ∃ within, document.outline.unresolvedIn within (.type d.name) d.description
      ⊆ document.outline.referenceProblems document := by
  have hpart : document.outline.referenceProblemsOf d
      ⊆ document.outline.referenceProblems document :=
    fun q hq => List.mem_append_left _ (List.mem_flatMap.mpr ⟨d, hd, hq⟩)
  cases d with
  | enumeration e =>
    have hfind : document.outline.types.find? (fun d => d.name == e.name)
        = some (.enumeration { e with literals := _ }) := hs.find?_name hd
    refine ⟨none, List.Subset.trans ?_ hpart⟩
    rw [Outline.referenceProblemsOf, Outline.enumeration?, hfind]
    exact List.subset_append_left _ _
  | constrained c =>
    have hfind : document.outline.types.find? (fun d => d.name == c.name)
        = some (.constrained c) := hs.find?_name hd
    refine ⟨none, List.Subset.trans ?_ hpart⟩
    rw [Outline.referenceProblemsOf, Outline.constrained?, hfind]
    exact List.Subset.refl _
  | classType c =>
    refine ⟨some c.name, List.Subset.trans ?_ hpart⟩
    rw [Outline.referenceProblemsOf, hs.class?_name (Outline.mem_classesOf.mpr hd)]
    exact List.subset_append_left _ _

/-- The description of a property that is kept is read. -/
theorem read_property {c : ClassDecl} (hc : c ∈ Outline.classesOf document.types)
    {before after : List PropertyDecl} {d : PropertyDecl}
    (hsplit : c.properties = before ++ d :: after) (hkept : document.KeepsProperty c before d) :
    document.outline.unresolvedIn (some c.name) (.member c.name d.name) d.description
      ⊆ document.outline.referenceProblems document := by
  intro q hq
  refine List.mem_append_left _ (List.mem_flatMap.mpr ⟨_, Outline.mem_classesOf.mp hc, ?_⟩)
  rw [Outline.referenceProblemsOf, hs.class?_name hc]
  refine List.mem_append_right _ (List.mem_flatMap.mpr
    ⟨_, hs.ofDecl_mem_ownAttributes hc hsplit hkept, ?_⟩)
  -- the first declaration of the name is this one
  have hfirst : c.properties.find? (fun raw => raw.name == d.name) = some d := by
    rw [hsplit, List.find?_append, find?_key_eq_none_iff.mpr hkept.1]
    simp
  rw [show (Attribute.ofDecl document.outline.types c.name d).name = d.name from rfl, hfirst]
  exact hq

end Document.Stays

/-! ## What is reported -/

/-- **No problem hides another.** Whatever else is wrong with a document whose types all have
their own capital name: every parent that a class cannot have is reported on the class, every type
that cannot be read or is not declared on the property or the argument, every literal that clashes
with one that is kept, and every reference to a type that is not declared. -/
theorem Model.problems_reported (key : String) {value : Json}
    (h : Document.conforms value = true) :
    ∃ document, Document.decode? value = some document
      ∧ ((document.types.map fun d => Name.capital d.name).Nodup →
        document.Reported (Model.diagnostics key value)) := by
  obtain ⟨document, hd, hid⟩ := Document.decode?_of_conforms h
  refine ⟨document, hd, fun hcapitals => ?_⟩
  have hs := Document.stays_of_nodup hcapitals
  have hmem : ∀ q ∈ document.problems key, q.diagnostic ∈ Model.diagnostics key value :=
    fun q hq => (Model.mem_diagnostics_iff h hd hid).mpr ⟨q, hq, rfl⟩
  -- nothing is said here about cycles, interfaces and wire names
  simp only [Document.problems, List.mem_append, or_imp, forall_and] at hmem
  obtain ⟨⟨⟨⟨⟨⟨⟨hdeclared, hparents⟩, -⟩, hproperties⟩, hconstructors⟩, -⟩, -⟩, hreferences⟩ := hmem
  constructor
  case parents =>
    intro c hc before p after hsplit message hbad
    obtain ⟨q, hq, hdiagnostic⟩ := hs.parent_reported hc hsplit hbad
    exact hdiagnostic ▸ hparents q hq
  case properties =>
    intro c hc before d after hsplit hkept diagnostic hmisspelled
    obtain ⟨q, hq, hdiagnostic⟩ := hs.property_reported hc hsplit hkept hmisspelled
    exact hdiagnostic ▸ hproperties q hq
  case dropped =>
    intro c hc before d after hsplit hdropped
    obtain ⟨q, hq, message, hdiagnostic⟩ := hs.dropped_reported hc hsplit hdropped
    exact ⟨message, hdiagnostic ▸ hproperties q hq⟩
  case arguments =>
    intro c hc before d after hsplit hfirst diagnostic hmisspelled
    obtain ⟨q, hq, hdiagnostic⟩ := hs.argument_reported hc hsplit hfirst hmisspelled
    exact hdiagnostic ▸ hconstructors q hq
  case literals =>
    intro e he before l after hsplit hclash
    obtain ⟨q, hq, message, hdiagnostic⟩ := hs.literal_reported he hsplit hclash
    exact ⟨message, hdiagnostic ▸ hdeclared q hq⟩
  case types_described =>
    intro d hmem
    obtain ⟨within, hread⟩ := hs.exists_read_type hmem
    exact hs.reportsReferences hreferences hread
  case properties_described =>
    intro c hc before d after hsplit hkept
    exact hs.reportsReferences hreferences (hs.read_property hc hsplit hkept)
  case described =>
    exact hs.reportsReferences hreferences (List.subset_append_right _ _)

/-- Two classes that are parents of each other, with a wrong parent of every kind, properties and
arguments of no type, literals that clash, and references to types that are not there. -/
def wreck : Json :=
  .object [("name", .text "wreck"), ("description", .text "See :class:`Nowhere`."),
    ("types", .array [
      .object [("kind", .text "enumeration"), ("name", .text "tone"), ("literals", .array [
        .object [("name", .text "dark"), ("value", .text "d")],
        .object [("name", .text "Dark"), ("value", .text "e")],
        .object [("name", .text "deep"), ("value", .text "d")],
        .object [("name", .text "even"), ("value", .text "e")]])],
      .object [("kind", .text "concreteClass"), ("name", .text "hull"),
        ("inheritances", Json.texts ["ghost", "mast", "tone", "mast"]),
        ("description", .text "Below a :class:`Deck`."),
        ("properties", .array [
          .object [("name", .text "plank"), ("type", .text "List[Wood]")],
          .object [("name", .text "keel"), ("type", .text "List["),
            ("description", .text "A :class:`Tree` once.")],
          .object [("name", .text "keel"), ("type", .text "str")]]),
        ("constructorArguments", .array [
          .object [("name", .text "keel"), ("type", .text "Iron")],
          .object [("name", .text "keel"), ("type", .text "int")]])],
      .object [("kind", .text "abstractClass"), ("name", .text "mast"),
        ("inheritances", Json.texts ["hull"]),
        ("properties", .array [.object [("name", .text "plank"), ("type", .text "Sail")]])]])]

theorem wreck_reported : Document.conforms wreck = true
    ∧ ∃ document, Document.decode? wreck = some document
      ∧ (document.types.map fun d => Name.capital d.name).Nodup
      ∧ document.Reported (Model.diagnostics "modelType" wreck) := by
  have hconforms : Document.conforms wreck = true := by decide +kernel
  have hcapitals : ∀ document ∈ Document.decode? wreck,
      (document.types.map fun d => Name.capital d.name).Nodup := by decide +kernel
  obtain ⟨document, hd, hreported⟩ := Model.problems_reported "modelType" hconforms
  exact ⟨hconforms, document, hd, hcapitals document hd, hreported (hcapitals document hd)⟩

end WireModel
