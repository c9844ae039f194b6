import WireModel.Proofs.CommandLine.Writing
import WireModel.Proofs.Subjects

/-!
# What is reported about snippets

The code of a handwritten class comes from snippets, three for the modules of types and codec and
one for the schema. Each emitter comes to a class at several places and goes on when a snippet is
not there.

A log is read off the plan type by type (`flatMap_log`): whatever an emitter does with the other
types, it asks for a snippet once for each handwritten class, and the logs of the passes follow
each other. So **`Model.snippets_reported`** says exactly what a run reports, that it gives out
files iff it reports nothing, and that it reports no line twice.
-/

namespace WireModel

open TypeScript Codec

/-! ## What is asked of snippets -/

/-- The classes whose code comes from snippets, in the order of the model. -/
def Table.handwritten (t : Table) : List String :=
  (t.concreteClasses.filter Class.isHandwritten).map (·.name)

namespace Snippets

/-- The diagnostic for a class that has no snippet under its key. -/
def missing? (snippets : Snippets) (key : String → String) (name : String) : Option Diagnostic :=
  if (snippets.lookup (key name)).isNone then some (.missingSnippet (key name) name) else none

/-- The diagnostic for a class whose definition in the schema has no snippet, or one that, up to
the white space at its end, is not JSON or another value than an object. -/
def unfit? (snippets : Snippets) (name : String) : Option Diagnostic :=
  let key := SnippetKey.schemaDefinition name
  match snippets.lookup key with
  | none => some (.missingSnippet key name)
  | some text =>
    match Json.parse? (Text.trimEnd text) with
    | none => some (.malformedSnippet key name)
    | some (.object _) => none
    | some _ => some (.snippetNotObject key name)

end Snippets

/-- What a target finds wrong with the snippets of classes. -/
def Target.snippetProblems (snippets : Snippets) (names : List String) :
    Target → List Diagnostic
  | .typescript =>
    names.filterMap (snippets.missing? SnippetKey.declaration)
      ++ names.filterMap (snippets.missing? SnippetKey.parse)
      ++ names.filterMap (snippets.missing? SnippetKey.transform)
  | .jsonschema => names.filterMap snippets.unfit?
  | .markdown | .html => []

/-- What is wrong with a table and the snippets for it. -/
def Table.problems (t : Table) (target : Target) (snippets : Snippets) : List Diagnostic :=
  t.constructorDiagnostics ++ target.snippetProblems snippets t.handwritten

/-! ## Handwritten types of a plan -/

/-- The name of a type, if its code comes from snippets. -/
def NamedType.handwritten? : NamedType → Option String
  | .classType c => if c.isHandwritten then some c.name else none
  | _ => none

@[inherit_doc NamedType.handwritten?]
def Codec.TypePlan.handwritten? : TypePlan → Option String
  | .classType c => if c.type.isHandwritten then some c.name else none
  | _ => none

theorem ClassKind.isConcrete_of_isHandwritten {kind : ClassKind} (h : kind.isHandwritten = true) :
    kind.isConcrete = true := by
  cases kind with
  | abstract => cases h
  | concrete => rfl

theorem Table.handwritten_eq (t : Table) : t.handwritten = t.types.filterMap (·.handwritten?) := by
  have hboth : ∀ c : Class, (c.isHandwritten && c.isConcrete) = c.isHandwritten := by
    intro c
    cases hhand : c.isHandwritten with
    | false => rfl
    | true => rw [Class.isConcrete, ClassKind.isConcrete_of_isHandwritten hhand]; rfl
  rw [handwritten, concreteClasses, classes, List.filter_filter]
  simp only [hboth, List.filter_filterMap, List.map_filterMap]
  refine List.filterMap_congr fun s _ => ?_
  cases s with
  | enumeration e => rfl
  | constrained c => rfl
  | classType c =>
    cases hhand : c.isHandwritten <;> simp [NamedType.class?, NamedType.handwritten?, hhand]

theorem Codec.TypePlan.Plans.handwritten?_eq {t : Table} {s : NamedType} {p : TypePlan}
    (h : p.Plans t s) : p.handwritten? = s.handwritten? := by
  cases h with
  | enumeration e => rfl
  | constrained c => rfl
  | classType hp =>
    obtain rfl := hp.type_eq
    rfl

theorem Codec.Plan.Plans.handwritten_eq {t : Table} {plan : Plan} (h : plan.Plans t) :
    plan.types.filterMap (·.handwritten?) = t.handwritten := by
  rw [t.handwritten_eq, List.filterMap_eq_flatMap_toList, List.filterMap_eq_flatMap_toList]
  exact flatMap_eq_of_forall₂ h.types fun s p hp => by rw [hp.handwritten?_eq]

/-! ## Logs -/

/-- A log that is silent about all types but the handwritten ones, and reports `problem` for each
of these. -/
structure Asks (log : TypePlan → Log) (problem : String → Option Diagnostic) : Prop where
  enumeration : ∀ e, log (.enumeration e) = []
  constrained : ∀ c, log (.constrained c) = []
  generated : ∀ c : ClassPlan, c.type.isHandwritten = false → log (.classType c) = []
  handwritten : ∀ c : ClassPlan, c.type.isHandwritten = true →
    log (.classType c) = (problem c.name).toList

/-- **What such a log reports of a plan** is what is wrong with the handwritten classes, in the
order of the model. -/
theorem Asks.flatMap_eq {log : TypePlan → Log} {problem : String → Option Diagnostic}
    (h : Asks log problem) {plan : Plan} {t : Table} (hplans : plan.Plans t) :
    plan.types.flatMap log = t.handwritten.filterMap problem := by
  rw [← hplans.handwritten_eq, List.filterMap_filterMap, List.filterMap_eq_flatMap_toList]
  refine List.flatMap_congr fun p _ => ?_
  cases p with
  | enumeration e => exact h.enumeration e
  | constrained c => exact h.constrained c
  | classType c =>
    cases hhand : c.type.isHandwritten with
    | false => rw [h.generated c hhand, TypePlan.handwritten?, if_neg (by simp [hhand])]; rfl
    | true => rw [h.handwritten c hhand, TypePlan.handwritten?, if_pos hhand]; rfl

/-- What asking for a snippet adds to a log. -/
theorem Snippets.log_require (snippets : Snippets) (key : String → String) (name : String)
    (found : String → Block) :
    (match snippets.require (key name) name with
      | .ok text => (found text, [])
      | .error d => ([], [d]) : Block × Log).2 = (snippets.missing? key name).toList := by
  unfold require missing?
  cases snippets.lookup (key name) <;> rfl

section Passes

variable (t : Table) (snippets : Snippets) (key : String)

theorem log_interfaceOf (c : ClassPlan) : ((Declaration.interfaceOf t c).emit snippets).2 = [] :=
  rfl

/-- The module of types asks for the declarations of classes. -/
theorem asks_declarations :
    Asks (fun p => (Declaration.ofType t p).flatMap fun d => (d.emit snippets).2)
      (snippets.missing? SnippetKey.declaration) where
  enumeration _ := rfl
  constrained _ := rfl
  generated c hhand := by
    have hclass : ((Declaration.classOf t c).emit snippets).2 = [] := by
      rw [Declaration.classOf, if_neg (by simp [hhand])]
      rfl
    rw [Declaration.ofType]
    split
    · split <;> simp [hclass, log_interfaceOf]
    · simp [log_interfaceOf]
  handwritten c hhand := by
    have hconcrete : c.type.isConcrete = true := ClassKind.isConcrete_of_isHandwritten hhand
    have hclass : ((Declaration.classOf t c).emit snippets).2
        = (snippets.missing? SnippetKey.declaration c.name).toList := by
      rw [Declaration.classOf, if_pos hhand]
      exact snippets.log_require SnippetKey.declaration c.name _
    -- the interface of a class is generated, also if the class is not
    rw [Declaration.ofType, if_pos hconcrete]
    split <;> simp [hclass, log_interfaceOf]

/-- The codec of a type reports nothing but what it reports of its class. -/
theorem log_ofType {log : TypeCodec → Log} (henumeration : ∀ e, log (.enumeration e) = [])
    (hinterface : ∀ i, log (.interface i) = [])
    {problem : String → Option Diagnostic}
    (hgenerated : ∀ c, c.isHandwritten = false → log (.classType c) = [])
    (hhandwritten : ∀ c, c.isHandwritten = true → log (.classType c) = (problem c.name).toList) :
    Asks (fun p => (TypeCodec.ofType key p).flatMap log) problem where
  enumeration e := by simp [TypeCodec.ofType, henumeration]
  constrained _ := rfl
  generated c hhand := by
    rw [TypeCodec.ofType, List.flatMap_append]
    cases c.interface <;> split <;> simp [hinterface, hgenerated, ClassCodec.of, hhand]
  handwritten c hhand := by
    have hconcrete : c.type.isConcrete = true := ClassKind.isConcrete_of_isHandwritten hhand
    rw [TypeCodec.ofType, List.flatMap_append, if_pos hconcrete]
    cases c.interface <;> simp [hinterface, hhandwritten, ClassCodec.of, hhand]

/-- The parse routines of the codec module ask for the routines of classes. -/
theorem asks_routines :
    Asks (fun p => (TypeCodec.ofType key p).flatMap fun codec =>
        (codec.emitRoutines snippets).flatMap (·.2))
      (snippets.missing? SnippetKey.parse) := by
  refine log_ofType key (fun _ => rfl) (fun _ => rfl) (fun c hhand => ?_) (fun c hhand => ?_)
  · simp [TypeCodec.emitRoutines, ClassCodec.emitParse, hhand]
  · have hparse : (c.emitParse snippets).2
        = (snippets.missing? SnippetKey.parse c.name).toList := by
      rw [ClassCodec.emitParse, if_pos hhand]
      exact snippets.log_require SnippetKey.parse c.name _
    simp [TypeCodec.emitRoutines, hparse]

/-- The transformer of the codec module asks for the methods of classes. -/
theorem asks_methods :
    Asks (fun p => (TypeCodec.ofType key p).flatMap fun codec =>
        codec.class?.toList.flatMap fun c => (c.emitMethod snippets).2)
      (snippets.missing? SnippetKey.transform) := by
  refine log_ofType key (fun _ => rfl) (fun _ => rfl) (fun c hhand => ?_) (fun c hhand => ?_)
  · simp [TypeCodec.class?, ClassCodec.emitMethod, hhand]
  · have hmethod : (c.emitMethod snippets).2
        = (snippets.missing? SnippetKey.transform c.name).toList := by
      rw [ClassCodec.emitMethod, if_pos hhand]
      exact snippets.log_require SnippetKey.transform c.name _
    simp [TypeCodec.class?, hmethod]

/-- The schema asks for the definitions of classes, and that they are objects. -/
theorem asks_definitions :
    Asks (fun p => (Schema.definitionOf t key snippets p).2) snippets.unfit? where
  enumeration _ := rfl
  constrained _ := rfl
  generated c hhand := by
    rw [Schema.definitionOf]
    split
    · rfl
    · rw [if_neg (by simp [hhand])]
  handwritten c hhand := by
    have hconcrete : c.type.isConcrete = true := ClassKind.isConcrete_of_isHandwritten hhand
    rw [Schema.definitionOf, if_neg (by simp [hconcrete]), if_pos hhand, Schema.ofSnippet,
      Snippets.require, Snippets.unfit?]
    cases snippets.lookup (SnippetKey.schemaDefinition c.name) with
    | none => rfl
    | some text =>
      dsimp only
      cases Json.parse? (Text.trimEnd text) with
      | none => rfl
      | some value => cases value <;> rfl

end Passes

section Targets

variable {t : Table} {plan : Plan} (h : plan.Plans t) (snippets : Snippets)

include h

theorem log_types (banner : List String) :
    ((TypesModule.of plan banner).emit snippets).2
      = t.handwritten.filterMap (snippets.missing? SnippetKey.declaration) := by
  rw [← (asks_declarations plan.table snippets).flatMap_eq h]
  show ((plan.types.flatMap (Declaration.ofType plan.table)).map
    (Declaration.emit snippets)).flatMap (·.2) = _
  rw [List.flatMap_map, List.flatMap_assoc]

theorem log_codec (o : Options) :
    ((CodecModule.of plan o).emit snippets).2
      = t.handwritten.filterMap (snippets.missing? SnippetKey.parse)
        ++ t.handwritten.filterMap (snippets.missing? SnippetKey.transform) := by
  rw [← (asks_routines snippets o.discriminatorKey).flatMap_eq h,
    ← (asks_methods snippets o.discriminatorKey).flatMap_eq h]
  show (((plan.types.flatMap (TypeCodec.ofType o.discriminatorKey)).flatMap
        (TypeCodec.emitRoutines snippets)).flatMap (·.2)
      ++ (((plan.types.flatMap (TypeCodec.ofType o.discriminatorKey)).filterMap
        TypeCodec.class?).map (ClassCodec.emitMethod snippets)).flatMap (·.2)) = _
  congr 1
  · rw [List.flatMap_assoc, List.flatMap_assoc]
  · rw [List.flatMap_map, List.filterMap_eq_flatMap_toList, List.flatMap_assoc, List.flatMap_assoc]

theorem log_schema (key : String) :
    (Schema.build plan key snippets).2 = t.handwritten.filterMap snippets.unfit? := by
  rw [← (asks_definitions plan.table snippets key).flatMap_eq h]
  show (plan.types.map (Schema.definitionOf plan.table key snippets)).flatMap (·.2) = _
  rw [List.flatMap_map]

/-- **The log of a target** is what the target finds wrong with the snippets of the table. -/
theorem Target.log_emit (target : Target) (o : Options) :
    (target.emit plan o snippets).2 = target.snippetProblems snippets t.handwritten := by
  cases target with
  | typescript =>
    show ((TypesModule.of plan o.banner).emit snippets).2
      ++ ((CodecModule.of plan o).emit snippets).2 = _
    rw [log_types h, log_codec h, ← List.append_assoc]
    rfl
  | jsonschema => exact log_schema h snippets o.discriminatorKey
  | markdown => rfl
  | html => rfl

end Targets

/-! ## Lines -/

namespace Snippets

variable {snippets : Snippets} {key : String → String} {name : String} {d : Diagnostic}

theorem eq_of_missing? (h : snippets.missing? key name = some d) :
    d = .missingSnippet (key name) name := by
  unfold missing? at h
  split at h
  · exact (Option.some.inj h).symm
  · cases h

theorem subject_of_unfit? (h : snippets.unfit? name = some d) :
    d.subject = name ∧ d.code ≠ .argumentTypeMismatch := by
  simp only [unfit?] at h
  split at h
  · obtain rfl := Option.some.inj h
    exact ⟨rfl, nofun⟩
  · split at h
    · obtain rfl := Option.some.inj h
      exact ⟨rfl, nofun⟩
    · cases h
    · obtain rfl := Option.some.inj h
      exact ⟨rfl, nofun⟩

/-- The same class is missing snippets under different keys. -/
theorem missingSnippet_ne {key other : String → String} (hne : ∀ name, key name ≠ other name)
    {a b : String} :
    Diagnostic.missingSnippet (key a) a ≠ Diagnostic.missingSnippet (other b) b := by
  intro heq
  obtain rfl : a = b := congrArg Diagnostic.subject heq
  have hmessage := congrArg (fun d => d.message.toList) heq
  refine hne a (String.toList_inj.mp ?_)
  simpa [Diagnostic.missingSnippet] using hmessage

end Snippets

namespace SnippetKey

/-- Keys that begin differently are different. -/
theorem append_ne {lead other : String} (h : lead ≠ other) (name ending : String) :
    lead ++ name ++ ending ≠ other ++ name ++ ending := fun heq =>
  h ((String.append_left_inj name).mp ((String.append_left_inj ending).mp heq))

theorem declaration_ne_parse (name : String) : declaration name ≠ parse name :=
  append_ne (by decide) name ".ts"

theorem declaration_ne_transform (name : String) : declaration name ≠ transform name :=
  append_ne (by decide) name ".ts"

theorem parse_ne_transform (name : String) : parse name ≠ transform name :=
  append_ne (by decide) name ".ts"

end SnippetKey

/-- A check of classes whose diagnostics name the class, and are not about constructors. -/
structure NamesClass (problem : String → Option Diagnostic) : Prop where
  subject_eq : ∀ name d, problem name = some d → d.subject = name
  code_ne : ∀ name d, problem name = some d → d.code ≠ .argumentTypeMismatch

theorem Snippets.namesClass_missing? (snippets : Snippets) (key : String → String) :
    NamesClass (snippets.missing? key) where
  subject_eq name d h := by rw [eq_of_missing? h]; rfl
  code_ne name d h := by rw [eq_of_missing? h]; exact nofun

theorem Snippets.namesClass_unfit? (snippets : Snippets) : NamesClass snippets.unfit? where
  subject_eq _ _ h := (subject_of_unfit? h).1
  code_ne _ _ h := (subject_of_unfit? h).2

/-- Different classes have different diagnostics. -/
theorem NamesClass.nodup {problem : String → Option Diagnostic} (h : NamesClass problem)
    {names : List String} (hnames : names.Nodup) : (names.filterMap problem).Nodup := by
  refine List.pairwise_filterMap.mpr (hnames.imp fun hne d hd e he heq => ?_)
  apply hne
  rw [← h.subject_eq _ d hd, ← h.subject_eq _ e he, heq]

/-- Snippets under different keys are different diagnostics. -/
theorem Snippets.disjoint_missing? (snippets : Snippets) {key other : String → String}
    (hne : ∀ name, key name ≠ other name) (names : List String) :
    (names.filterMap (snippets.missing? key)).Disjoint
      (names.filterMap (snippets.missing? other)) := by
  intro d hd hother
  obtain ⟨a, -, ha⟩ := List.mem_filterMap.mp hd
  obtain ⟨b, -, hb⟩ := List.mem_filterMap.mp hother
  apply missingSnippet_ne hne
  rw [← eq_of_missing? ha, eq_of_missing? hb]

namespace Target

variable (snippets : Snippets) {names : List String} (target : Target)

theorem of_mem_snippetProblems {d : Diagnostic} (h : d ∈ target.snippetProblems snippets names) :
    d.subject ∈ names ∧ d.code ≠ .argumentTypeMismatch := by
  have hcheck : ∀ problem, NamesClass problem → d ∈ names.filterMap problem →
      d.subject ∈ names ∧ d.code ≠ .argumentTypeMismatch := by
    intro problem hproblem hd
    obtain ⟨name, hname, hsome⟩ := List.mem_filterMap.mp hd
    exact ⟨hproblem.subject_eq name d hsome ▸ hname, hproblem.code_ne name d hsome⟩
  cases target with
  | typescript =>
    rcases List.mem_append.mp h with h | h
    · rcases List.mem_append.mp h with h | h
      · exact hcheck _ (snippets.namesClass_missing? _) h
      · exact hcheck _ (snippets.namesClass_missing? _) h
    · exact hcheck _ (snippets.namesClass_missing? _) h
  | jsonschema => exact hcheck _ snippets.namesClass_unfit? h
  | markdown => cases h
  | html => cases h

theorem snippetProblems_nodup (hnames : names.Nodup) :
    (target.snippetProblems snippets names).Nodup := by
  cases target with
  | typescript =>
    have hmissing := fun key => (snippets.namesClass_missing? key).nodup hnames
    refine List.nodup_append'.mpr ⟨List.nodup_append'.mpr ⟨hmissing _, hmissing _, ?_⟩,
      hmissing _, List.disjoint_append_left.mpr ⟨?_, ?_⟩⟩
    · exact snippets.disjoint_missing? SnippetKey.declaration_ne_parse names
    · exact snippets.disjoint_missing? SnippetKey.declaration_ne_transform names
    · exact snippets.disjoint_missing? SnippetKey.parse_ne_transform names
  | jsonschema => exact snippets.namesClass_unfit?.nodup hnames
  | markdown => exact List.nodup_nil
  | html => exact List.nodup_nil

end Target

/-! ## Constructors -/

/-- The subject of a diagnostic about an argument says which argument of which class it is. -/
theorem eq_of_argument_subject {c d a b : String} (hc : Name.isIdentifier c = true)
    (hd : Name.isIdentifier d = true) (h : c ++ "(" ++ a ++ ")" = d ++ "(" ++ b ++ ")") :
    c = d ∧ a = b := by
  have hopen := (String.append_left_inj ")").mp h
  rw [show ("(" : String) = String.ofList ['('] from rfl] at hopen
  exact append_sep_inj (Name.not_mem_of_isIdentifier hc (by decide))
    (Name.not_mem_of_isIdentifier hd (by decide)) hopen

/-- What is reported about an argument. -/
theorem Class.subject_of_reported {c : Class} {a : Argument} {d : Diagnostic}
    (h : (match c.property? a.name with
      | some p => if a.fits p.type then none else some (a.mismatchDiagnostic c.name p.type)
      | none => none) = some d) :
    d.subject = c.name ++ "(" ++ a.name ++ ")" ∧ d.code = .argumentTypeMismatch := by
  split at h
  · split at h
    · cases h
    · obtain rfl := Option.some.inj h
      exact ⟨rfl, rfl⟩
  · cases h

/-- A diagnostic about a constructor says which argument it is about. -/
theorem Table.exists_of_mem_constructorDiagnostics {t : Table} {d : Diagnostic}
    (hd : d ∈ t.constructorDiagnostics) :
    ∃ c ∈ t.classes, ∃ a ∈ c.arguments, d.subject = c.name ++ "(" ++ a.name ++ ")"
      ∧ d.code = .argumentTypeMismatch := by
  obtain ⟨c, hc, hd⟩ := List.mem_flatMap.mp hd
  obtain ⟨a, ha, hd⟩ := List.mem_filterMap.mp hd
  exact ⟨c, hc, a, ha, Class.subject_of_reported hd⟩

namespace Table.Sound

variable {key : String} {t : Table} (h : t.Sound key)

include h

theorem classes_apart : t.classes.Pairwise fun c d => c.name ≠ d.name := by
  have hclass : ∀ {s : NamedType} {c : Class}, s.class? = some c → s.name = c.name := by
    intro s c hs
    cases s <;> cases hs
    rfl
  refine List.pairwise_filterMap.mpr ((List.pairwise_map.mp h.names_nodup).imp ?_)
  intro s r hne c hc d hd
  rw [← hclass hc, ← hclass hd]
  exact hne

theorem handwritten_nodup : t.handwritten.Nodup := by
  rw [Table.handwritten, Table.concreteClasses]
  exact List.pairwise_map.mpr ((h.classes_apart.filter _).filter _)

theorem isIdentifier_of_mem_handwritten {name : String} (hname : name ∈ t.handwritten) :
    Name.isIdentifier name = true := by
  obtain ⟨c, hc, rfl⟩ := List.mem_map.mp hname
  exact h.isIdentifier_of_mem_classes (List.mem_filter.mp (List.mem_filter.mp hc).1).1

theorem constructorDiagnostics_nodup : t.constructorDiagnostics.Nodup := by
  refine List.pairwise_flatMap.mpr ⟨fun c hc => ?_, h.classes_apart.imp_of_mem ?_⟩
  · have hid := h.isIdentifier_of_mem_classes hc
    have hnames := List.pairwise_map.mp (h.classes c hc).arguments_distinct
    refine List.pairwise_filterMap.mpr (hnames.imp fun hne d hd e he heq => hne ?_)
    have hsubject := congrArg Diagnostic.subject heq
    rw [(Class.subject_of_reported hd).1, (Class.subject_of_reported he).1] at hsubject
    exact (eq_of_argument_subject hid hid hsubject).2
  · intro c c' hc hc' hne d hd e he heq
    obtain ⟨a, -, hd⟩ := List.mem_filterMap.mp hd
    obtain ⟨b, -, he⟩ := List.mem_filterMap.mp he
    have hsubject := congrArg Diagnostic.subject heq
    rw [(Class.subject_of_reported hd).1, (Class.subject_of_reported he).1] at hsubject
    exact hne (eq_of_argument_subject (h.isIdentifier_of_mem_classes hc)
      (h.isIdentifier_of_mem_classes hc') hsubject).1

variable (target : Target) (snippets : Snippets)

theorem problems_nodup : (t.problems target snippets).Nodup := by
  refine List.nodup_append'.mpr ⟨h.constructorDiagnostics_nodup,
    target.snippetProblems_nodup snippets h.handwritten_nodup, fun d hd hsnippet => ?_⟩
  obtain ⟨-, -, -, -, -, hcode⟩ := Table.exists_of_mem_constructorDiagnostics hd
  exact (target.of_mem_snippetProblems snippets hsnippet).2 hcode

theorem colon_not_mem_subject {d : Diagnostic} (hd : d ∈ t.problems target snippets) :
    ':' ∉ d.subject.toList := by
  rcases List.mem_append.mp hd with hd | hd
  · obtain ⟨c, hc, a, ha, hsubject, -⟩ := Table.exists_of_mem_constructorDiagnostics hd
    rw [hsubject]
    exact Subject.Identified.colon_not_mem (s := .argument c.name a.name)
      ⟨h.isIdentifier_of_mem_classes hc, (h.classes c hc).isIdentifier_argument ha⟩
  · exact Name.not_mem_of_isIdentifier
      (h.isIdentifier_of_mem_handwritten (target.of_mem_snippetProblems snippets hd).1) (by decide)

/-- **No line is reported twice.** -/
theorem lines_nodup : ((t.problems target snippets).map Diagnostic.line).Nodup := by
  refine (List.nodup_map_iff_inj_on (h.problems_nodup target snippets)).mpr fun d hd e he heq => ?_
  exact Diagnostic.eq_of_line_eq (h.colon_not_mem_subject target snippets hd)
    (h.colon_not_mem_subject target snippets he) heq

end Table.Sound

/-! ## Runs -/

theorem Codec.Plan.generate_eq {t : Table} {plan : Plan} (h : plan.Plans t) (target : Target)
    (o : Options) (snippets : Snippets) :
    plan.generate target o snippets
      = if t.problems target snippets = [] then .ok (target.emit plan o snippets).1
        else .error (t.problems target snippets) := by
  show Log.finish (plan.table.constructorDiagnostics ++ (target.emit plan o snippets).2)
    (target.emit plan o snippets).1 = _
  rw [Target.log_emit h, h.table_eq, Log.finish, ← Table.problems]
  cases t.problems target snippets <;> rfl

/-- **What is wrong with snippets is reported, all of it and once.** For every model that is loaded,
a run of a target reports the constructors whose arguments do not fit, and then what the target
finds wrong with the snippets of the handwritten classes; it gives out the files of the target
iff there is nothing to report, and no line is reported twice. -/
theorem Model.snippets_reported {key : String} {value : Json} {table : Table}
    (h : Model.load key value = .ok table) (target : Target) (o : Options) (snippets : Snippets) :
    (∃ files, files.map File.path = target.outputs
      ∧ generate table target o snippets = .ok
        (if table.problems target snippets = [] then .ok files
          else .error (table.problems target snippets)))
      ∧ ((table.problems target snippets).map Diagnostic.line).Nodup := by
  have hsound := Model.sound_of_load h
  obtain ⟨plan, hplan⟩ := hsound.exists_plan
  refine ⟨⟨(target.emit plan o snippets).1, target.map_path_emit plan o snippets, ?_⟩,
    hsound.lines_nodup target snippets⟩
  rw [generate, hplan]
  exact congrArg _ (Plan.generate_eq (Plan.plans_of_eq_ok hplan) target o snippets)

/-- Two handwritten classes, and a class whose constructor does not fit. -/
def clocks : Json :=
  .object [("name", .text "clocks"), ("types", .array [
    .object [("kind", .text "concreteClass"), ("name", .text "sundial"),
      ("implementationSpecific", .bool true)],
    .object [("kind", .text "concreteClass"), ("name", .text "tower"),
      ("properties", .array [.object [("name", .text "height"), ("type", .text "int")]]),
      ("constructorArguments", .array [
        .object [("name", .text "height"), ("type", .text "Optional[int]")]])],
    .object [("kind", .text "concreteClass"), ("name", .text "clock"),
      ("implementationSpecific", .bool true)]])]

/-- Some of the snippets for the clocks. The definition of `clock` ends with a no-break space. -/
def clockSnippets : Snippets :=
  [("types/clock.ts", "export class Clock \x7b\x7d"),
    ("jsonization/parse/sundial.ts", "return rt.succeed(new types.Sundial());"),
    ("jsonschema/definition/sundial.json", "[]"),
    ("jsonschema/definition/clock.json", "\x7b\x7d\u00a0")]

theorem clocks_reported : ∃ table, Model.load "modelType" clocks = .ok table
    ∧ table.handwritten = ["sundial", "clock"]
    ∧ ((∃ files, files.map File.path = Target.typescript.outputs
      ∧ generate table .typescript {} clockSnippets = .ok
        (if table.problems .typescript clockSnippets = [] then .ok files
          else .error (table.problems .typescript clockSnippets)))
      ∧ ((table.problems .typescript clockSnippets).map Diagnostic.line).Nodup)
    ∧ (table.problems .typescript clockSnippets).map Diagnostic.subject
      = ["tower(height)", "sundial", "clock", "sundial", "clock"]
    ∧ (table.problems .jsonschema clockSnippets).map Diagnostic.subject
      = ["tower(height)", "sundial"] := by
  have hloads : (Model.load "modelType" clocks).toOption.isSome = true := by decide +kernel
  have hfound : (Model.load "modelType" clocks).toOption.map (fun t => (t.handwritten,
      (t.problems .typescript clockSnippets).map Diagnostic.subject,
      (t.problems .jsonschema clockSnippets).map Diagnostic.subject))
      = some (["sundial", "clock"], ["tower(height)", "sundial", "clock", "sundial", "clock"],
        ["tower(height)", "sundial"]) := by
    decide +kernel
  obtain ⟨table, hload⟩ := Model.exists_table hloads
  rw [hload] at hfound
  simp only [Except.toOption, Option.map_some, Option.some.injEq, Prod.mk.injEq] at hfound
  obtain ⟨hhand, htypescript, hschema⟩ := hfound
  exact ⟨table, hload, hhand, Model.snippets_reported hload .typescript {} clockSnippets,
    htypescript, hschema⟩

/-- One handwritten class. -/
def hourglasses : Json :=
  .object [("name", .text "hourglasses"), ("types", .array [
    .object [("kind", .text "concreteClass"), ("name", .text "hourglass"),
      ("implementationSpecific", .bool true)]])]

/-- A definition that ends with a no-break space, which JSON does not count as white space. -/
def hourglassDefinition : String := "\x7b\x7d\u00a0"

/-- A definition that is not JSON is taken if only the white space at its end keeps it from being
JSON. -/
theorem hourglasses_blank_end_taken : Json.parse? hourglassDefinition = none
    ∧ ∃ table files, compile hourglasses {} = .ok table
      ∧ table.handwritten = ["hourglass"]
      ∧ generate table .jsonschema {}
        [("jsonschema/definition/hourglass.json", hourglassDefinition)] = .ok (.ok files) := by
  have hmalformed : Json.parse? hourglassDefinition = none := by decide +kernel
  have hready : ((compile hourglasses {}).toOption.any fun t =>
      (generate t .jsonschema {}
        [("jsonschema/definition/hourglass.json", hourglassDefinition)]).toOption.any
          (·.toOption.isSome)) = true := by
    decide +kernel
  have hhand : (compile hourglasses {}).toOption.map (·.handwritten) = some ["hourglass"] := by
    decide +kernel
  obtain ⟨table, files, hcompile, hfiles⟩ := exists_files hready
  rw [hcompile] at hhand
  exact ⟨hmalformed, table, files, hcompile, Option.some.inj hhand, hfiles⟩

end WireModel
