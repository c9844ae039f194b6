import WireModel.Proofs.Loading
import WireModel.Proofs.Separated

/-!
# Cycles are broken and reported

Nothing keeps a document from listing parents in a circle. The walk drops the edges that close a
cycle, and the rest of the resolution works on what is kept. This module ties the walk to the
diagnostics that a user sees.

## The architecture

* **`Document.filter_isCycle_problems`**: of all passes only the walk reports cycles. Each pass
  has its lemma, so that a new kind of problem concerns one of them.
* **`Outline.Lists`**, **`Outline.Keeps`**, **`Outline.Drops`**: the declared relation, what is
  left of it, and the difference, as edges of the walk (`lists_eq`, `keeps_eq`, `drops_iff`).
* **`Outline.cycle_lines_nodup`**: a cycle can be read back from the line that reports it, so
  dropping repeated lines drops no cycle.
* **`Model.cycles_broken`**: all of it together, as `Outline.CyclesBroken`.
-/

namespace WireModel

/-! ## Only the walk reports cycles -/

namespace Problem

/-- Whether a problem is reported as a cycle. -/
def isCycle (p : Problem) : Bool := p.diagnostic.code == .inheritanceCycle

end Problem

theorem FieldType.not_isCycle_of_mem_resolve {types : List TypeDecl} {subject : Subject}
    {text : String} {p : Problem} (h : p ∈ (resolve types subject text).2) :
    p.isCycle = false := by
  rw [resolve] at h
  split at h
  · rw [List.mem_singleton.mp h]; rfl
  · split at h
    · rw [List.mem_singleton.mp h]; rfl
    · cases h

theorem LiteralDecl.not_isCycle_of_mem_declare {owner : String} {kept : List LiteralDecl}
    {l : LiteralDecl} {p : Problem} (h : p ∈ (declare owner kept l).2) : p.isCycle = false := by
  rw [declare] at h
  split at h
  · rw [List.mem_singleton.mp h]; rfl
  · split at h
    · rw [List.mem_singleton.mp h]; rfl
    · cases h

theorem TypeDecl.not_isCycle_of_mem_declareAll {types : List TypeDecl} {p : Problem}
    (h : p ∈ (declareAll types).2) : p.isCycle = false := by
  obtain ⟨kept, d, -, h⟩ := sift_report_of_mem h
  cases hf : kept.find? fun k => Name.capital k.name == Name.capital d.name with
  | some other =>
    rw [declare, hf] at h
    rw [List.mem_singleton.mp h]
    split <;> rfl
  | none =>
    rw [declare_of_find?_eq_none hf] at h
    rcases List.mem_append.mp h with h | h
    · split at h
      · rw [List.mem_singleton.mp h]; rfl
      · cases h
    · cases d with
      | enumeration d =>
        obtain ⟨_, l, -, h⟩ := sift_report_of_mem h
        exact LiteralDecl.not_isCycle_of_mem_declare h
      | constrained | classType => cases h

theorem ClassDecl.not_isCycle_of_mem_link {types : List TypeDecl} {c : ClassDecl} {p : Problem}
    (h : p ∈ (c.link types).2) : p.isCycle = false := by
  obtain ⟨kept, parent, -, h⟩ := sift_report_of_mem h
  rw [linkParent] at h
  split at h
  · rw [List.mem_singleton.mp h]; rfl
  · split at h
    · rw [List.mem_singleton.mp h]; rfl
    · cases h
  · rw [List.mem_singleton.mp h]; rfl

theorem Attribute.not_isCycle_of_mem_conflicts {owner : String} {attributes more : List Attribute}
    {p : Problem} (h : p ∈ conflicts owner attributes more) : p.isCycle = false := by
  obtain ⟨a, -, h⟩ := List.mem_filterMap.mp h
  split at h
  · split at h
    · cases h
    · rw [← Option.some.inj h]; rfl
  · cases h

theorem Attribute.not_isCycle_of_mem_own {types : List TypeDecl} {c : ClassDecl}
    {inherited : List Attribute} {p : Problem} (h : p ∈ (own types c inherited).2) :
    p.isCycle = false := by
  obtain ⟨kept, d, -, h⟩ := sift_report_of_mem h
  rw [declare] at h
  split at h
  · rw [List.mem_singleton.mp h]
    split <;> rfl
  · rcases List.mem_append.mp h with h | h
    · split at h
      · rw [List.mem_singleton.mp h]; rfl
      · cases h
    · exact FieldType.not_isCycle_of_mem_resolve h

theorem Default.not_isCycle_of_mem_resolve {types : List TypeDecl} {subject : Subject}
    {type : FieldType Atom} {value : Constant} {p : Problem}
    (h : p ∈ (resolve types subject type value).2) : p.isCycle = false := by
  unfold resolve at h
  split at h
  · split at h
    · cases h
    · rw [List.mem_singleton.mp h]; rfl
  split at h
  · rw [List.mem_singleton.mp h]; rfl
  split at h
  · split at h
    · cases h
    · rw [List.mem_singleton.mp h]; rfl
  · split at h
    · cases h
    · rw [List.mem_singleton.mp h]; rfl

theorem Argument.not_isCycle_of_mem_ofClass {types : List TypeDecl} {c : ClassDecl}
    {attributes : List Attribute} {p : Problem} (h : p ∈ (ofClass types c attributes).2) :
    p.isCycle = false := by
  rw [ofClass] at h
  split at h
  · cases h
  · rcases List.mem_append.mp h with h | h
    · obtain ⟨kept, d, -, h⟩ := sift_report_of_mem h
      rw [declare] at h
      split at h
      · rw [List.mem_singleton.mp h]; rfl
      · rcases List.mem_append.mp h with h | h
        · exact FieldType.not_isCycle_of_mem_resolve h
        · split at h
          · exact Default.not_isCycle_of_mem_resolve h
          · cases h
    · rw [mismatch] at h
      split at h
      · cases h
      · rw [List.mem_singleton.mp h]; rfl

namespace Outline

variable {o : Outline} {p : Problem}

theorem not_isCycle_of_mem_propertyProblems (h : p ∈ o.propertyProblems) : p.isCycle = false := by
  obtain ⟨event, -, h⟩ := List.mem_flatMap.mp h
  cases event with
  | cycle => cases h
  | inherit => exact Attribute.not_isCycle_of_mem_conflicts h
  | finish node =>
    rw [propertyProblemsAt] at h
    split at h
    · exact Attribute.not_isCycle_of_mem_own h
    · cases h

theorem not_isCycle_of_mem_interfaceProblems (h : p ∈ o.interfaceProblems) :
    p.isCycle = false := by
  obtain ⟨c, -, h⟩ := List.mem_flatMap.mp h
  rcases List.mem_append.mp h with h | h
  · split at h
    · rw [List.mem_singleton.mp h]; rfl
    · cases h
  · split at h
    · cases h
    split at h
    · rw [List.mem_singleton.mp h]; rfl
    · cases h

theorem not_isCycle_of_mem_wireNameProblems {key : String} (h : p ∈ o.wireNameProblems key) :
    p.isCycle = false := by
  obtain ⟨c, -, h⟩ := List.mem_flatMap.mp h
  obtain ⟨kept, a, -, h⟩ := sift_report_of_mem h
  rw [takeWireName] at h
  split at h
  · rw [List.mem_singleton.mp h]; rfl
  split at h
  · rw [List.mem_singleton.mp h]; rfl
  · cases h

theorem not_isCycle_of_mem_unresolvedIn {within : Option String} {subject : Subject}
    {prose : Option String} (h : p ∈ o.unresolvedIn within subject prose) :
    p.isCycle = false := by
  unfold unresolvedIn at h
  split at h
  · obtain ⟨r, -, rfl⟩ := List.mem_map.mp h
    rfl
  · cases h

theorem not_isCycle_of_mem_referenceProblems {document : Document}
    (h : p ∈ o.referenceProblems document) : p.isCycle = false := by
  rcases List.mem_append.mp h with h | h
  · obtain ⟨d, -, h⟩ := List.mem_flatMap.mp h
    cases d with
    | enumeration d =>
      rw [referenceProblemsOf] at h
      split at h
      · rcases List.mem_append.mp h with h | h
        · exact not_isCycle_of_mem_unresolvedIn h
        · obtain ⟨l, -, h⟩ := List.mem_flatMap.mp h
          exact not_isCycle_of_mem_unresolvedIn h
      · cases h
    | constrained d =>
      rw [referenceProblemsOf] at h
      split at h
      · exact not_isCycle_of_mem_unresolvedIn h
      · cases h
    | classType d =>
      rw [referenceProblemsOf] at h
      split at h
      · rcases List.mem_append.mp h with h | h
        · exact not_isCycle_of_mem_unresolvedIn h
        · obtain ⟨a, -, h⟩ := List.mem_flatMap.mp h
          exact not_isCycle_of_mem_unresolvedIn h
      · cases h
  · exact not_isCycle_of_mem_unresolvedIn h

theorem mem_cycleProblems {o : Outline} {p : Problem} (h : p ∈ o.cycleProblems) :
    ∃ first path, p = .cycle first path ∧ Hierarchy.Event.cycle first path ∈ o.trace := by
  obtain ⟨event, hevent, heq⟩ := List.mem_filterMap.mp h
  cases event with
  | cycle first path => exact ⟨first, path, (Option.some.inj heq).symm, hevent⟩
  | inherit | finish => cases heq

theorem isCycle_of_mem_cycleProblems (h : p ∈ o.cycleProblems) : p.isCycle = true := by
  obtain ⟨first, path, rfl, -⟩ := mem_cycleProblems h
  rfl

end Outline

/-- The cycles among the problems of a document are those of the walk. -/
theorem Document.filter_isCycle_problems (key : String) (document : Document) :
    (document.problems key).filter Problem.isCycle = document.outline.cycleProblems := by
  have hnone : ∀ ps : List Problem, (∀ p ∈ ps, p.isCycle = false) →
      ps.filter Problem.isCycle = [] := by
    intro ps hps
    rw [List.filter_eq_nil_iff]
    intro p hp
    simp [hps p hp]
  have hparents : ∀ p ∈ document.outline.parentProblems, p.isCycle = false := by
    intro p hp
    obtain ⟨c, -, hp⟩ := List.mem_flatMap.mp hp
    exact ClassDecl.not_isCycle_of_mem_link hp
  have hconstructors : ∀ p ∈ document.outline.constructorProblems, p.isCycle = false := by
    intro p hp
    obtain ⟨c, -, hp⟩ := List.mem_flatMap.mp hp
    exact Argument.not_isCycle_of_mem_ofClass hp
  show ((TypeDecl.declareAll document.types).2 ++ document.outline.parentProblems
    ++ document.outline.cycleProblems ++ document.outline.propertyProblems
    ++ document.outline.constructorProblems ++ document.outline.interfaceProblems
    ++ document.outline.wireNameProblems key
    ++ document.outline.referenceProblems document).filter Problem.isCycle = _
  simp only [List.filter_append]
  rw [hnone _ fun p hp => TypeDecl.not_isCycle_of_mem_declareAll hp, hnone _ hparents,
    hnone _ fun p hp => Outline.not_isCycle_of_mem_propertyProblems hp, hnone _ hconstructors,
    hnone _ fun p hp => Outline.not_isCycle_of_mem_interfaceProblems hp,
    hnone _ fun p hp => Outline.not_isCycle_of_mem_wireNameProblems hp,
    hnone _ fun p hp => Outline.not_isCycle_of_mem_referenceProblems hp,
    List.filter_eq_self.mpr fun p hp => Outline.isCycle_of_mem_cycleProblems hp]
  simp

/-! ## The declared relation and what is left of it -/

/-- The class `child` lists the class `parent` among its parents. -/
def Outline.Lists (o : Outline) (child parent : String) : Prop :=
  ∃ c ∈ o.classes, c.name = child ∧ parent ∈ c.parents ∧ parent ∈ o.classes.map (·.name)

/-- The class `child` lists the class `parent`, and does not keep it. -/
def Outline.Drops (o : Outline) (child parent : String) : Prop :=
  o.Lists child parent ∧ ¬o.Keeps child parent

theorem ClassDecl.mem_link {types : List TypeDecl} (hnames : (types.map (·.name)).Nodup)
    {c : ClassDecl} {p : String} :
    p ∈ (c.link types).1 ↔ p ∈ c.parents ∧ p ∈ (Outline.classesOf types).map (·.name) := by
  refine ⟨mem_of_mem_link, fun ⟨hp, hclass⟩ => ?_⟩
  have hkeep : ∀ kept q, q ∈ (Outline.classesOf types).map (·.name) → q ∉ kept →
      (linkParent types c.name kept q).1 = some q := by
    intro kept q hq hnew
    have hsieve := link_sieve hnames c.name
    refine hsieve.keeps kept q ((hsieve.silent kept q).mpr ⟨hq, ?_⟩)
    rintro k hk rfl
    exact hnew hk
  exact mem_sift_result hkeep (.inr hp) hclass

theorem ClassDecl.link_sublist (types : List TypeDecl) (c : ClassDecl) :
    (c.link types).1.Sublist c.parents := by
  have hkeep : ∀ kept q b, (linkParent types c.name kept q).1 = some b → b = q :=
    fun _ _ _ h => (linkParent_eq_some h).2.1
  obtain ⟨results, heq, hsub⟩ := sift_result_sublist hkeep [] c.parents
  rw [link, heq]
  exact hsub

namespace Outline

variable {types : List TypeDecl}

/-- Classes keep parents in the order in which they list them. -/
theorem parentsOf_sublist (hnames : (types.map (·.name)).Nodup) {c : ClassDecl}
    (hc : c ∈ classesOf types) : ((ofTypes types).parentsOf c.name).Sublist c.parents := by
  obtain ⟨n, hn, hname, heq⟩ := exists_node hnames hc
  have hnode : (⟨c.name, (c.link types).1⟩ : Hierarchy.Node) ∈ nodesOf types :=
    List.mem_map.mpr ⟨c, hc, rfl⟩
  have hsub := (Hierarchy.parents_of_mem_order (wellLinked_nodesOf hnames) hn hnode hname).1
  rw [← heq]
  exact hsub.trans (c.link_sublist types)

theorem lists_iff (hnames : (types.map (·.name)).Nodup) {child parent : String} :
    (ofTypes types).Lists child parent ↔ Hierarchy.Edge (nodesOf types) child parent := by
  constructor
  · rintro ⟨c, hc, rfl, hp, hclass⟩
    exact ⟨_, List.mem_map.mpr ⟨c, hc, rfl⟩, rfl, (ClassDecl.mem_link hnames).mpr ⟨hp, hclass⟩⟩
  · rintro ⟨n, hn, rfl, hp⟩
    obtain ⟨c, hc, rfl⟩ := List.mem_map.mp hn
    obtain ⟨hp, hclass⟩ := (ClassDecl.mem_link hnames).mp hp
    exact ⟨c, hc, rfl, hp, hclass⟩

theorem lists_eq (hnames : (types.map (·.name)).Nodup) :
    (ofTypes types).Lists = Hierarchy.Edge (nodesOf types) := by
  funext child parent
  exact propext (lists_iff hnames)

theorem drops_iff (hnames : (types.map (·.name)).Nodup) {child parent : String} :
    (ofTypes types).Drops child parent ↔
      (child, parent) ∈ Hierarchy.dropped (ofTypes types).trace := by
  have hwl := wellLinked_nodesOf hnames
  rw [Drops, lists_eq hnames, keeps_eq hnames,
    show (ofTypes types).order = Hierarchy.order (Hierarchy.trace (nodesOf types)) from rfl,
    Hierarchy.edge_order_iff hwl]
  constructor
  · rintro ⟨hedge, hnot⟩
    by_contra hkept
    exact hnot ⟨hedge, hkept⟩
  · exact fun h => ⟨Hierarchy.edge_of_mem_dropped hwl h, fun hkept => hkept.2 h⟩

/-- **Cycles are found iff there are some.** -/
theorem cycleProblems_ne_nil_iff (hnames : (types.map (·.name)).Nodup) :
    (ofTypes types).cycleProblems ≠ [] ↔
      ∃ name, Relation.TransGen (ofTypes types).Lists name name := by
  rw [Ne, cycleProblems_eq_nil_iff, lists_eq hnames,
    show (ofTypes types).trace = Hierarchy.trace (nodesOf types) from rfl,
    Hierarchy.dropped_eq_nil_iff (wellLinked_nodesOf hnames)]
  simp only [not_forall, not_not]

/-- A cycle is a simple path along listed parents that leads back to its beginning. -/
theorem closed_of_cycle (hnames : (types.map (·.name)).Nodup) {first : String}
    {path : List String} (h : Hierarchy.Event.cycle first path ∈ (ofTypes types).trace) :
    ∃ mid, path = mid ++ [first] ∧ (first :: mid).Nodup
      ∧ (first :: (mid ++ [first])).IsChain (ofTypes types).Lists := by
  have hwl := wellLinked_nodesOf hnames
  obtain ⟨mid, rfl, hnodup, hchain, hdropped⟩ := Hierarchy.cycle_of_mem_trace hwl h
  refine ⟨mid, rfl, hnodup, ?_⟩
  rw [lists_eq hnames, ← List.cons_append, List.isChain_append]
  refine ⟨hchain.imp fun _ _ hedge => ((Hierarchy.edge_order_iff hwl).mp hedge).1, by simp, ?_⟩
  -- the last step is the edge that was dropped
  intro last hlast back hback
  obtain rfl : first = back := by simpa using hback
  obtain rfl : mid.getLastD first = last := by
    simpa [List.getLast?_cons, List.getLastD_eq_getLast?] using hlast
  exact Hierarchy.edge_of_mem_dropped hwl hdropped

/-! ## One line for each cycle

A line is reported once, however often it comes up. Cycles lose nothing by that: their names are
identifiers, so that a line can be read back, and the path on it tells which edge was dropped. -/

theorem lists_of_mem_closed {R : String → String → Prop} {first last : String}
    {path : List String} (h : (first :: (path ++ [last])).IsChain R) :
    ∀ name ∈ first :: path, ∃ parent, R name parent := by
  induction path generalizing first with
  | nil =>
    intro name hname
    rw [List.mem_singleton.mp hname]
    exact ⟨last, by simpa using h⟩
  | cons next path ih =>
    rw [List.cons_append, List.isChain_cons_cons] at h
    intro name hname
    rcases List.mem_cons.mp hname with rfl | hname
    · exact ⟨next, h.1⟩
    · exact ih h.2 name hname

/-- The line of a cycle tells its path. -/
theorem cycle_line_inj {first first' : String} {path path' : List String}
    (hpath : ∀ name ∈ first :: path, Name.isIdentifier name = true)
    (hpath' : ∀ name ∈ first' :: path', Name.isIdentifier name = true)
    (h : (Problem.cycle first path).diagnostic.line
      = (Problem.cycle first' path').diagnostic.line) :
    first = first' ∧ path = path' := by
  have hrest := (Diagnostic.line_inj h).2
  simp only [Problem.diagnostic] at hrest
  have hcolon : ∀ name, Name.isIdentifier name = true → ':' ∉ name.toList :=
    fun name hname => Name.not_mem_of_isIdentifier hname (by decide)
  have hspace : ∀ name, Name.isIdentifier name = true → ' ' ∉ name.toList :=
    fun name hname => Name.not_mem_of_isIdentifier hname (by decide)
  rw [show (": " : String) = String.ofList [':', ' '] from rfl] at hrest
  -- the subject ends at the first colon, and the names of the path at the first spaces
  obtain ⟨-, hmessage⟩ := append_sep_inj (hcolon _ (hpath _ List.mem_cons_self))
    (hcolon _ (hpath' _ List.mem_cons_self)) hrest
  have hjoined := (String.append_right_inj _).mp hmessage
  rw [show (" -> " : String) = String.ofList (' ' :: ['-', '>', ' ']) from rfl] at hjoined
  exact List.cons.inj (intercalate_inj (fun s hs => hspace s (hpath s hs))
    (fun s hs => hspace s (hpath' s hs)) hjoined)

/-- No two cycles are reported by the same line. -/
theorem cycle_lines_nodup (hnames : (types.map (·.name)).Nodup)
    (hident : ∀ d ∈ types, Name.isIdentifier d.name = true) :
    (((ofTypes types).cycleProblems.map Problem.diagnostic).map Diagnostic.line).Nodup := by
  have hpath : ∀ first path, Hierarchy.Event.cycle first path ∈ (ofTypes types).trace →
      ∀ name ∈ first :: path, Name.isIdentifier name = true := by
    intro first path hevent name hname
    -- every name on the path lists a parent, so it is the name of a class
    obtain ⟨mid, rfl, -, hclosed⟩ := closed_of_cycle hnames hevent
    have hmem : name ∈ first :: mid := by
      rcases List.mem_cons.mp hname with rfl | hname
      · exact List.mem_cons_self
      · rcases List.mem_append.mp hname with hname | hname
        · exact List.mem_cons_of_mem _ hname
        · rw [List.mem_singleton.mp hname]
          exact List.mem_cons_self
    obtain ⟨parent, c, hc, rfl, -⟩ := lists_of_mem_closed hclosed name hmem
    exact hident _ (mem_classesOf.mp hc)
  have hnodup := (Hierarchy.inv_trace (wellLinked_nodesOf hnames)).dropped_nodup
  rw [Hierarchy.dropped, List.Nodup, List.pairwise_filterMap] at hnodup
  rw [List.map_map, List.Nodup, List.pairwise_map, cycleProblems, List.pairwise_filterMap]
  -- two cycles with the same line have the same path, and would drop the same edge
  refine hnodup.imp_of_mem fun {e e'} he he' hapart p hp p' hp' hline => ?_
  cases e with
  | inherit | finish => cases hp
  | cycle first path =>
    cases e' with
    | inherit | finish => cases hp'
    | cycle first' path' =>
      obtain rfl := Option.some.inj hp
      obtain rfl := Option.some.inj hp'
      obtain ⟨rfl, rfl⟩ := cycle_line_inj (hpath _ _ he) (hpath _ _ he') hline
      exact hapart _ rfl _ rfl rfl

end Outline

/-- **What is reported about cycles are the cycles of the walk**, one diagnostic for each. -/
theorem Model.filter_cycle_diagnostics {value : Json} {document : Document} (key : String)
    (h : Document.conforms value = true) (hd : Document.decode? value = some document)
    (hident : document.Identified) :
    (Model.diagnostics key value).filter (fun d => d.code == .inheritanceCycle)
      = document.outline.cycleProblems.map Problem.diagnostic := by
  have hlines : ∀ d e : Diagnostic, d.line = e.line →
      (d.code == .inheritanceCycle) = (e.code == .inheritanceCycle) := by
    intro d e hline
    rw [(Diagnostic.line_inj hline).1]
  have hkept : ∀ d ∈ (TypeDecl.declareAll document.types).1, Name.isIdentifier d.name = true := by
    intro d hmem
    obtain ⟨t, ht, rfl⟩ := TypeDecl.exists_of_mem_declareAll hmem
    rw [TypeDecl.name_declareBody]
    exact (hident.2 t ht).name
  -- the line decides the code, so cycles can be picked before repeated lines are dropped
  rw [diagnostics_of_conforms key h hd, Diagnostic.distinct, filter_distinctBy hlines,
    List.filter_map, show ((fun d : Diagnostic => d.code == .inheritanceCycle)
      ∘ Problem.diagnostic) = Problem.isCycle from rfl, Document.filter_isCycle_problems]
  exact distinctBy_eq_self
    (Outline.cycle_lines_nodup (TypeDecl.names_declareAll_nodup document.types) hkept)

/-! ## Breaking cycles -/

/-- What it means to break the cycles of an outline and to report them: what the classes keep is
well founded, so that properties and ancestors are recursions over it; the diagnostics about
cycles are, one to one, about the edges that are dropped; each shows a simple cycle of listed
parents; and an edge is dropped only if what is kept already leads back along it. -/
structure Outline.CyclesBroken (o : Outline) (reported : List Diagnostic) : Prop where
  kept : ∀ c ∈ o.classes, (o.parentsOf c.name).Sublist c.parents
  wellFounded : WellFounded fun parent child => o.Keeps child parent
  ancestors : ∀ c ∈ o.classes, ∀ a,
    a ∈ (o.ancestors.lookup c.name).getD [] ↔ Relation.TransGen o.Keeps c.name a
  properties : ∀ c ∈ o.classes, o.attributesOf c.name
    = Attribute.effective o.types c ((o.parentsOf c.name).map o.attributesOf)
  reported_iff : (∃ d ∈ reported, d.code = .inheritanceCycle) ↔
    ∃ name, Relation.TransGen o.Lists name name
  counted : ∃ edges : List (String × String), edges.Nodup
    ∧ (∀ child parent, (child, parent) ∈ edges ↔ o.Drops child parent)
    ∧ (reported.filter fun d => d.code == .inheritanceCycle).length = edges.length
  path : ∀ d ∈ reported, d.code = .inheritanceCycle → ∃ mid, (d.subject :: mid).Nodup
    ∧ (d.subject :: (mid ++ [d.subject])).IsChain o.Lists
    ∧ d.message = "Inheritance cycle: " ++ " -> ".intercalate (d.subject :: (mid ++ [d.subject]))
  back : ∀ child parent, o.Drops child parent → Relation.ReflTransGen o.Keeps parent child

/-- **Cycles are broken and reported in every document.** -/
theorem Model.cycles_broken (key : String) (value : Json)
    (h : Document.conforms value = true) :
    ∃ document, Document.decode? value = some document
      ∧ document.outline.CyclesBroken (Model.diagnostics key value) := by
  obtain ⟨document, hd, hident⟩ := Document.decode?_of_conforms h
  have hnames := TypeDecl.names_declareAll_nodup document.types
  have hwl := Outline.wellLinked_nodesOf hnames
  have hordered := Hierarchy.parentsFirst_trace hwl
  have hcycles := Model.filter_cycle_diagnostics key h hd hident
  have hmem : ∀ d, d ∈ Model.diagnostics key value ∧ d.code = .inheritanceCycle ↔
      d ∈ document.outline.cycleProblems.map Problem.diagnostic := by
    intro d
    rw [← hcycles, List.mem_filter, beq_iff_eq]
  refine ⟨document, hd, ?_⟩
  rw [Document.outline] at *
  constructor
  case kept => exact fun c hc => Outline.parentsOf_sublist hnames hc
  case wellFounded =>
    rw [Outline.keeps_eq hnames]
    exact hordered.wellFounded_edge
  case ancestors =>
    intro c hc a
    obtain ⟨n, hn, hname, -⟩ := Outline.exists_node hnames hc
    rw [Outline.keeps_eq hnames, ← hname]
    exact Hierarchy.mem_ancestors_iff hordered n hn a
  case properties => exact fun c hc => Outline.attributesOf_eq hnames hc
  case reported_iff =>
    rw [← Outline.cycleProblems_ne_nil_iff hnames]
    constructor
    · rintro ⟨d, hreported⟩ hnil
      have hproblem := (hmem d).mp hreported
      rw [hnil] at hproblem
      cases hproblem
    · intro hne
      obtain ⟨p, hp⟩ := List.exists_mem_of_ne_nil _ hne
      exact ⟨p.diagnostic, (hmem p.diagnostic).mpr (List.mem_map_of_mem hp)⟩
  case counted =>
    refine ⟨Hierarchy.dropped _, (Hierarchy.inv_trace hwl).dropped_nodup,
      fun child parent => (Outline.drops_iff hnames).symm, ?_⟩
    rw [hcycles, List.length_map, Outline.length_cycleProblems]
    rfl
  case path =>
    intro d hd hcode
    obtain ⟨p, hp, rfl⟩ := List.mem_map.mp ((hmem d).mp ⟨hd, hcode⟩)
    obtain ⟨first, path, rfl, hevent⟩ := Outline.mem_cycleProblems hp
    obtain ⟨mid, rfl, hnodup, hclosed⟩ := Outline.closed_of_cycle hnames hevent
    exact ⟨mid, hnodup, hclosed, rfl⟩
  case back =>
    intro child parent hdrop
    rw [Outline.keeps_eq hnames]
    exact Hierarchy.reflTransGen_of_mem_dropped hwl ((Outline.drops_iff hnames).mp hdrop)

/-- Three classes whose parents form overlapping cycles, one of them through a class alone. -/
def knot : Json :=
  .object [("name", .text "knot"), ("types", .array [
    .object [("kind", .text "concreteClass"), ("name", .text "a"),
      ("inheritances", Json.texts ["b", "a", "c"])],
    .object [("kind", .text "concreteClass"), ("name", .text "b"),
      ("inheritances", Json.texts ["c", "a"])],
    .object [("kind", .text "concreteClass"), ("name", .text "c"),
      ("inheritances", Json.texts ["a"])]])]

theorem knot_broken : Document.conforms knot = true
    ∧ ∃ document, Document.decode? knot = some document
      ∧ document.outline.CyclesBroken (Model.diagnostics "modelType" knot) :=
  ⟨by decide, Model.cycles_broken "modelType" knot (by decide)⟩

end WireModel
