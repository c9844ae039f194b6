import WireModel.Proofs.Cycles
import WireModel.Proofs.Properties

/-!
# What problems are about

Every problem is about an element of the document, and every element is spelled with identifiers.
That is what makes a line of the report readable: the subject of a diagnostic ends at the first
colon, so a line says which element it is about, and which problem it has.

## The architecture

* **`Problem.subject`** reads the element off a problem, and **`Problem.diagnostic_subject`** says
  that it is the one that the diagnostic names.
* **`Document.subject_identified`**: pass by pass, the elements of a document whose names are
  identifiers. The passes over the outline need to know that its properties are declared ones
  (`Outline.Identified`).
* **`Model.mem_diagnostics_iff`**: hence dropping repeated lines loses no diagnostic, and what is
  reported about a value are the problems of its document, all of them and nothing else.
-/

namespace WireModel

/-! ## Subjects -/

/-- The names of the element are identifiers. -/
def Subject.Identified : Subject → Prop
  | .type name => Name.isIdentifier name = true
  | .member owner name => Name.isIdentifier owner = true ∧ Name.isIdentifier name = true
  | .argument owner name => Name.isIdentifier owner = true ∧ Name.isIdentifier name = true

theorem Subject.Identified.colon_not_mem {s : Subject} (h : s.Identified) :
    ':' ∉ s.text.toList := by
  have hcolon : ∀ name, Name.isIdentifier name = true → ':' ∉ name.toList :=
    fun name hname => Name.not_mem_of_isIdentifier hname (by decide)
  cases s with
  | type name => exact hcolon name h
  | member owner name => simp [text, hcolon owner h.1, hcolon name h.2]
  | argument owner name => simp [text, hcolon owner h.1, hcolon name h.2]

/-- The element that a problem is about. -/
def Problem.subject : Problem → Subject
  | .repeatedType name | .clashingType name _ | .reservedType name => .type name
  | .unknownParent child _ | .parentNotClass child _ | .repeatedParent child _ => .type child
  | .cycle first _ => .type first
  | .constructorMismatch owner _ _ => .type owner
  | .noImplementers name | .interfaceClash name _ => .type name
  | .repeatedLiteral owner name | .repeatedValue owner name _ => .member owner name
  | .inheritedTwice owner property _ _ | .repeatedProperty owner property
  | .alreadyDefined owner property _ | .reservedProperty owner property => .member owner property
  | .discriminatorClash owner property _ | .wireNameClash owner property _ _ =>
    .member owner property
  | .repeatedArgument owner name => .argument owner name
  | .malformedType subject _ _ | .unknownType subject _ => subject
  | .nullDefault subject | .listDefault subject | .notLiteral subject _ _
  | .unfitDefault subject _ => subject
  | .unresolvedReference subject _ => subject

/-- A diagnostic names the element that its problem is about. -/
theorem Problem.diagnostic_subject (p : Problem) : p.diagnostic.subject = p.subject.text := by
  cases p <;> rfl

/-- **A line says which problem it reports**, where subjects are identifiers. -/
theorem Problem.diagnostic_eq_of_line_eq {p q : Problem} (hp : p.subject.Identified)
    (hq : q.subject.Identified) (h : p.diagnostic.line = q.diagnostic.line) :
    p.diagnostic = q.diagnostic := by
  have hcolon := hp.colon_not_mem
  have hcolon' := hq.colon_not_mem
  rw [← diagnostic_subject] at hcolon hcolon'
  exact Diagnostic.eq_of_line_eq hcolon hcolon' h

/-! ## Pass by pass -/

section Passes

variable {p : Problem}

theorem FieldType.subject_of_mem_resolve {types : List TypeDecl} {subject : Subject}
    {text : String} (h : p ∈ (resolve types subject text).2) : p.subject = subject := by
  rw [resolve] at h
  split at h
  · rw [List.mem_singleton.mp h]; rfl
  · split at h
    · rw [List.mem_singleton.mp h]; rfl
    · cases h

theorem Default.subject_of_mem_resolve {types : List TypeDecl} {subject : Subject}
    {type : FieldType Atom} {value : Constant} (h : p ∈ (resolve types subject type value).2) :
    p.subject = subject := by
  unfold resolve at h
  split at h
  · split at h
    · cases h
    · rw [List.mem_singleton.mp h]; rfl
  split at h
  · rw [List.mem_singleton.mp h]; rfl
  split at h
  · split at h
    · cases h
    · rw [List.mem_singleton.mp h]; rfl
  · split at h
    · cases h
    · rw [List.mem_singleton.mp h]; rfl

theorem TypeDecl.subject_identified_declareBody {d : TypeDecl} (hd : d.Identified)
    (h : p ∈ d.declareBody.2) : p.subject.Identified := by
  cases d with
  | constrained | classType => cases h
  | enumeration e =>
    obtain ⟨kept, l, hl, h⟩ := sift_report_of_mem h
    have hmember : (Subject.member e.name l.name).Identified := ⟨hd.1, hd.2 l hl⟩
    rw [LiteralDecl.declare] at h
    split at h
    · rw [List.mem_singleton.mp h]; exact hmember
    · split at h
      · rw [List.mem_singleton.mp h]; exact hmember
      · cases h

theorem TypeDecl.subject_identified_declareAll {types : List TypeDecl}
    (htypes : ∀ d ∈ types, d.Identified) (h : p ∈ (declareAll types).2) :
    p.subject.Identified := by
  obtain ⟨kept, d, hd, h⟩ := sift_report_of_mem h
  have hname : (Subject.type d.name).Identified := (htypes d hd).name
  cases hf : kept.find? fun k => Name.capital k.name == Name.capital d.name with
  | some other =>
    rw [declare, hf] at h
    rw [List.mem_singleton.mp h]
    split <;> exact hname
  | none =>
    rw [declare_of_find?_eq_none hf] at h
    rcases List.mem_append.mp h with h | h
    · split at h
      · rw [List.mem_singleton.mp h]; exact hname
      · cases h
    · exact subject_identified_declareBody (htypes d hd) h

theorem ClassDecl.subject_of_mem_link {types : List TypeDecl} {c : ClassDecl}
    (h : p ∈ (c.link types).2) : p.subject = .type c.name := by
  obtain ⟨kept, parent, -, h⟩ := sift_report_of_mem h
  rw [linkParent] at h
  split at h
  · rw [List.mem_singleton.mp h]; rfl
  · split at h
    · rw [List.mem_singleton.mp h]; rfl
    · cases h
  · rw [List.mem_singleton.mp h]; rfl

theorem Attribute.subject_of_mem_conflicts {owner : String} {attributes more : List Attribute}
    (h : p ∈ conflicts owner attributes more) : ∃ a ∈ more, p.subject = .member owner a.name := by
  obtain ⟨a, ha, h⟩ := List.mem_filterMap.mp h
  refine ⟨a, ha, ?_⟩
  split at h
  · split at h
    · cases h
    · rw [← Option.some.inj h]; rfl
  · cases h

theorem Attribute.subject_of_mem_own {types : List TypeDecl} {c : ClassDecl}
    {inherited : List Attribute} (h : p ∈ (own types c inherited).2) :
    ∃ d ∈ c.properties, p.subject = .member c.name d.name := by
  obtain ⟨kept, d, hd, h⟩ := sift_report_of_mem h
  refine ⟨d, hd, ?_⟩
  rw [declare] at h
  split at h
  · rw [List.mem_singleton.mp h]
    split <;> rfl
  · rcases List.mem_append.mp h with h | h
    · split at h
      · rw [List.mem_singleton.mp h]; rfl
      · cases h
    · exact FieldType.subject_of_mem_resolve h

theorem Argument.subject_of_mem_ofClass {types : List TypeDecl} {c : ClassDecl}
    {attributes : List Attribute} (h : p ∈ (ofClass types c attributes).2) :
    p.subject = .type c.name
      ∨ ∃ decls, c.arguments = some decls ∧ ∃ d ∈ decls, p.subject = .argument c.name d.name := by
  rw [ofClass] at h
  split at h
  · cases h
  · next decls hdecls =>
    rcases List.mem_append.mp h with h | h
    · obtain ⟨kept, d, hd, h⟩ := sift_report_of_mem h
      refine .inr ⟨decls, hdecls, d, hd, ?_⟩
      rw [declare] at h
      split at h
      · rw [List.mem_singleton.mp h]; rfl
      · rcases List.mem_append.mp h with h | h
        · exact FieldType.subject_of_mem_resolve h
        · split at h
          · exact Default.subject_of_mem_resolve h
          · cases h
    · refine .inl ?_
      rw [mismatch] at h
      split at h
      · cases h
      · rw [List.mem_singleton.mp h]; rfl

end Passes

/-! ## The outline -/

/-- The names of an outline are identifiers, also those of its properties. -/
structure Outline.Identified (o : Outline) : Prop where
  types : ∀ d ∈ o.types, d.Identified
  attributes : ∀ c ∈ o.classes, ∀ a ∈ o.attributesOf c.name,
    Name.isIdentifier a.name = true ∧ Name.isIdentifier a.declaredBy = true

theorem TypeDecl.identified_declareBody {d : TypeDecl} (h : d.Identified) :
    d.declareBody.1.Identified := by
  cases d with
  | constrained | classType => exact h
  | enumeration e =>
    refine ⟨h.1, fun l hl => ?_⟩
    have hkeep : ∀ kept (a b : LiteralDecl), (LiteralDecl.declare e.name kept a).1 = some b →
        b = a := by
      intro kept a b hstep
      rw [LiteralDecl.declare] at hstep
      split at hstep
      · cases hstep
      · split at hstep
        · cases hstep
        · exact (Option.some.inj hstep).symm
    obtain ⟨results, heq, hsub⟩ := sift_result_sublist hkeep [] e.literals
    exact h.2 l (hsub.subset (by simpa [heq] using hl))

theorem Document.Identified.outline {document : Document} (h : document.Identified) :
    document.outline.Identified := by
  have htypes : ∀ d ∈ (TypeDecl.declareAll document.types).1, d.Identified := by
    intro d hd
    obtain ⟨t, ht, rfl⟩ := TypeDecl.exists_of_mem_declareAll hd
    exact TypeDecl.identified_declareBody (h.2 t ht)
  refine ⟨htypes, fun c hc a ha => ?_⟩
  obtain ⟨x, hx, -, d, hd, rfl⟩ :=
    Outline.mem_attributesOf (TypeDecl.names_declareAll_nodup document.types) c hc a ha
  have hclass : x.Identified := htypes _ (Outline.mem_classesOf.mp hx)
  exact ⟨hclass.properties d hd, hclass.name⟩

namespace Outline

variable {types : List TypeDecl} {p : Problem} (hnames : (types.map (·.name)).Nodup)
  (h : (ofTypes types).Identified)

include h

theorem Identified.class {c : ClassDecl} (hc : c ∈ classesOf types) : c.Identified :=
  h.types _ (mem_classesOf.mp hc)

theorem subject_identified_interfaceProblems (hp : p ∈ (ofTypes types).interfaceProblems) :
    p.subject.Identified := by
  obtain ⟨c, hc, hp⟩ := List.mem_flatMap.mp hp
  rcases List.mem_append.mp hp with hp | hp
  · split at hp
    · rw [List.mem_singleton.mp hp]; exact (h.class hc).name
    · cases hp
  · split at hp
    · cases hp
    split at hp
    · next clash hclash =>
      obtain ⟨d, hd, rfl⟩ := Option.map_eq_some_iff.mp hclash
      rw [List.mem_singleton.mp hp]
      exact (h.types d (List.mem_of_find?_eq_some hd)).name
    · cases hp

theorem subject_identified_wireNameProblems {key : String}
    (hp : p ∈ (ofTypes types).wireNameProblems key) : p.subject.Identified := by
  obtain ⟨c, hc, hp⟩ := List.mem_flatMap.mp hp
  obtain ⟨kept, a, ha, hp⟩ := sift_report_of_mem hp
  obtain ⟨hname, hby⟩ := h.attributes c hc a ha
  rw [takeWireName] at hp
  split at hp
  · rw [List.mem_singleton.mp hp]; exact ⟨hby, hname⟩
  split at hp
  · rw [List.mem_singleton.mp hp]; exact ⟨(h.class hc).name, hname⟩
  · cases hp

theorem subject_identified_constructorProblems (hp : p ∈ (ofTypes types).constructorProblems) :
    p.subject.Identified := by
  obtain ⟨c, hc, hp⟩ := List.mem_flatMap.mp hp
  rcases Argument.subject_of_mem_ofClass hp with hsubject | ⟨decls, hdecls, d, hd, hsubject⟩
  · rw [hsubject]
    exact (h.class hc).name
  · rw [hsubject]
    exact ⟨(h.class hc).name, (h.class hc).arguments decls hdecls d hd⟩

include hnames

theorem subject_identified_cycleProblems (hp : p ∈ (ofTypes types).cycleProblems) :
    p.subject.Identified := by
  obtain ⟨first, path, rfl, hevent⟩ := mem_cycleProblems hp
  obtain ⟨mid, rfl, -, hclosed⟩ := closed_of_cycle hnames hevent
  obtain ⟨parent, c, hc, rfl, -⟩ := lists_of_mem_closed hclosed first List.mem_cons_self
  exact (h.class hc).name

theorem subject_identified_propertyProblems (hp : p ∈ (ofTypes types).propertyProblems) :
    p.subject.Identified := by
  obtain ⟨event, hevent, hp⟩ := List.mem_flatMap.mp hp
  cases event with
  | cycle => cases hp
  | inherit child earlier parent =>
    obtain ⟨n, hn, rfl, hbegin⟩ :=
      (Hierarchy.inherit_mem_trace_iff (wellLinked_nodesOf hnames)).mp hevent
    obtain ⟨c, hc, hname⟩ := List.mem_map.mp (mem_classNames_of_mem_order hnames hn)
    obtain ⟨a, ha, hsubject⟩ := Attribute.subject_of_mem_conflicts hp
    -- a parent that is kept is a class
    have hparent : parent ∈ (ofTypes types).parentsOf n.name := by
      rw [parentsOf_of_mem_order hnames hn]
      exact hbegin.subset (by simp)
    obtain ⟨q, hq, rfl⟩ := exists_parent hnames hparent
    rw [hsubject, ← hname]
    exact ⟨(h.class hc).name, (h.attributes q hq a ha).1⟩
  | finish node =>
    rw [propertyProblemsAt] at hp
    split at hp
    · next c hc =>
      obtain ⟨d, hd, hsubject⟩ := Attribute.subject_of_mem_own hp
      have hclass := h.class ((classOf?_eq_some_iff hnames).mp hc).1
      rw [hsubject]
      exact ⟨hclass.name, hclass.properties d hd⟩
    · cases hp

end Outline

/-! ## References -/

theorem Outline.subject_of_mem_unresolvedIn {o : Outline} {p : Problem} {within : Option String}
    {subject : Subject} {prose : Option String} (hp : p ∈ o.unresolvedIn within subject prose) :
    p.subject = subject := by
  unfold unresolvedIn at hp
  split at hp
  · obtain ⟨r, -, rfl⟩ := List.mem_map.mp hp
    rfl
  · cases hp

theorem Outline.subject_identified_referenceProblems {document : Document} {p : Problem}
    (h : document.Identified) (ho : document.outline.Identified)
    (hp : p ∈ document.outline.referenceProblems document) : p.subject.Identified := by
  rcases List.mem_append.mp hp with hp | hp
  · obtain ⟨d, hd, hp⟩ := List.mem_flatMap.mp hp
    have hid := h.2 d hd
    cases d with
    | enumeration e =>
      rw [referenceProblemsOf] at hp
      split at hp
      · next kept hkept =>
        rcases List.mem_append.mp hp with hp | hp
        · rw [subject_of_mem_unresolvedIn hp]; exact hid.name
        · obtain ⟨l, hl, hp⟩ := List.mem_flatMap.mp hp
          rw [subject_of_mem_unresolvedIn hp]
          -- the literals are those that stay
          rw [enumeration?] at hkept
          split at hkept
          · next found hfind =>
            obtain rfl := Option.some.inj hkept
            have hfound : EnumerationDecl.Identified found :=
              ho.types _ (List.mem_of_find?_eq_some hfind)
            exact ⟨hid.1, hfound.2 l hl⟩
          · cases hkept
      · cases hp
    | constrained c =>
      rw [referenceProblemsOf] at hp
      split at hp
      · rw [subject_of_mem_unresolvedIn hp]; exact hid.name
      · cases hp
    | classType c =>
      rw [referenceProblemsOf] at hp
      split at hp
      · next found hfind =>
        have hnames := TypeDecl.names_declareAll_nodup document.types
        obtain ⟨hfound, hname⟩ := (classOf?_eq_some_iff hnames).mp hfind
        rcases List.mem_append.mp hp with hp | hp
        · rw [subject_of_mem_unresolvedIn hp]; exact hid.name
        · obtain ⟨a, ha, hp⟩ := List.mem_flatMap.mp hp
          rw [subject_of_mem_unresolvedIn hp]
          rw [← hname] at ha
          exact ⟨hid.name, (ho.attributes found hfound a (List.mem_of_mem_filter ha)).1⟩
      · cases hp
  · rw [subject_of_mem_unresolvedIn hp]; exact h.1

/-! ## What is reported -/

/-- **Every problem of a document is about an element that is spelled with identifiers.** -/
theorem Document.subject_identified {document : Document} {key : String} {p : Problem}
    (h : document.Identified) (hp : p ∈ document.problems key) : p.subject.Identified := by
  have hnames := TypeDecl.names_declareAll_nodup document.types
  have ho := h.outline
  have hparents : ∀ q ∈ document.outline.parentProblems, q.subject.Identified := by
    intro q hq
    obtain ⟨c, hc, hq⟩ := List.mem_flatMap.mp hq
    rw [ClassDecl.subject_of_mem_link hq]
    exact (ho.class hc).name
  simp only [problems, List.mem_append] at hp
  rcases hp with ((((((hp | hp) | hp) | hp) | hp) | hp) | hp) | hp
  · exact TypeDecl.subject_identified_declareAll h.2 hp
  · exact hparents p hp
  · exact Outline.subject_identified_cycleProblems hnames ho hp
  · exact Outline.subject_identified_propertyProblems hnames ho hp
  · exact Outline.subject_identified_constructorProblems ho hp
  · exact Outline.subject_identified_interfaceProblems ho hp
  · exact Outline.subject_identified_wireNameProblems ho hp
  · exact Outline.subject_identified_referenceProblems h ho hp

/-- **What is reported about a value are the problems of its document**, all of them: a line that
is dropped repeats the diagnostic of another problem. -/
theorem Model.mem_diagnostics_iff {value : Json} {document : Document} {key : String}
    (h : Document.conforms value = true) (hd : Document.decode? value = some document)
    (hid : document.Identified) {d : Diagnostic} :
    d ∈ Model.diagnostics key value ↔ ∃ p ∈ document.problems key, p.diagnostic = d := by
  rw [diagnostics_of_conforms key h hd, Diagnostic.distinct, ← List.mem_map]
  constructor
  · exact fun hmem => (distinctBy_sublist _ _).subset hmem
  · intro hmem
    obtain ⟨e, he, hline⟩ := exists_mem_distinctBy Diagnostic.line hmem
    obtain ⟨p, hp, rfl⟩ := List.mem_map.mp hmem
    obtain ⟨q, hq, rfl⟩ := List.mem_map.mp ((distinctBy_sublist _ _).subset he)
    rwa [← Problem.diagnostic_eq_of_line_eq (Document.subject_identified hid hq)
      (Document.subject_identified hid hp) hline]

end WireModel
