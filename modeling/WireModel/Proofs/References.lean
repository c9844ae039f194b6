import Mathlib.Data.List.TakeWhile
import WireModel.Proofs.Properties
import WireModel.Proofs.Separated

/-!
# References in descriptions

When every reference of a document resolves. `Document.Resolves` says what a reference may refer
to, by the declared types and the properties of the hierarchy; **`Document.isSome_lookup_iff`**
ties it to the lookup, and **`Document.referenceProblems_eq_nil_iff`** goes through all
descriptions of a document.
-/

namespace WireModel

/-! ## Targets -/

/-- A target is cut at its first point. -/
theorem Outline.splitTarget_spec (target : String) :
    match splitTarget target with
    | some (owner, property) => '.' ∉ owner.toList ∧ target = owner ++ "." ++ property
    | none => '.' ∉ target.toList := by
  have hbefore : '.' ∉ target.toList.takeWhile (· != '.') := by
    intro hmem
    have := List.mem_takeWhile_imp hmem
    simp at this
  have hwhole := List.takeWhile_append_dropWhile (p := (· != '.')) (l := target.toList)
  rw [splitTarget]
  cases hafter : target.toList.dropWhile (· != '.') with
  | nil =>
    rw [hafter, List.append_nil] at hwhole
    rwa [hwhole] at hbefore
  | cons c rest =>
    obtain rfl : c = '.' := by
      have := List.head_dropWhile_not (· != '.') (l := target.toList) (by simp [hafter])
      simpa [hafter] using this
    refine ⟨by simpa using hbefore, ?_⟩
    rw [hafter] at hwhole
    rw [← String.toList_inj]
    simp only [String.toList_append, String.toList_ofList, List.append_assoc]
    exact hwhole.symm

theorem Outline.splitTarget_eq_some_iff {target owner property : String} :
    splitTarget target = some (owner, property) ↔
      '.' ∉ owner.toList ∧ target = owner ++ "." ++ property := by
  have hspec := splitTarget_spec target
  constructor
  · intro h
    rwa [h] at hspec
  · rintro ⟨howner, rfl⟩
    split at hspec
    · next owner' property' heq =>
      -- two ways to cut a text at its first point are the same
      rw [show ("." : String) = String.ofList ['.'] from rfl] at hspec
      obtain ⟨rfl, rfl⟩ := append_sep_inj howner hspec.1 hspec.2
      exact heq
    · exact absurd (by simp) hspec

theorem Outline.splitTarget_eq_none_iff {target : String} :
    splitTarget target = none ↔ '.' ∉ target.toList := by
  have hspec := splitTarget_spec target
  constructor
  · intro h
    rwa [h] at hspec
  · intro hnot
    split at hspec
    · obtain ⟨-, rfl⟩ := hspec
      exact absurd (by simp) hnot
    · next heq => exact heq

/-! ## What a text refers to -/

/-- The references of a text. -/
def Description.mentions (s : String) : List Mention :=
  (paragraphPieces s).flatten.filterMap fun
    | .mention r => some r
    | .text _ => none

theorem Description.unresolved_eq_nil_iff {lookup : Lookup} {s : String} :
    unresolved lookup s = [] ↔ ∀ r ∈ mentions s, (lookup r).isSome = true := by
  rw [unresolved, List.filterMap_eq_nil_iff, mentions]
  constructor
  · intro h r hr
    obtain ⟨piece, hpiece, heq⟩ := List.mem_filterMap.mp hr
    cases piece with
    | text => cases heq
    | mention r' =>
      obtain rfl := Option.some.inj heq
      have hnone := h _ hpiece
      rw [Piece.unresolved?] at hnone
      by_contra hnot
      rw [if_neg hnot] at hnone
      cases hnone
  · intro h piece hpiece
    cases piece with
    | text => rfl
    | mention r =>
      rw [Piece.unresolved?, if_pos (h r (List.mem_filterMap.mpr ⟨_, hpiece, rfl⟩))]

namespace Document

/-- A reference within a class or outside of any refers to something: to a declared type, to a
property as `Class.property`, or within a class to a property of that class. -/
inductive Resolves (document : Document) (within : Option String) : Mention → Prop where
  | type {name : String} (h : name ∈ document.types.map (·.name)) :
      Resolves document within ⟨.type, name⟩
  | property {owner property : String} (howner : '.' ∉ owner.toList)
      (h : document.HasProperty owner property) :
      Resolves document within ⟨.property, owner ++ "." ++ property⟩
  | own {owner property : String} (hproperty : '.' ∉ property.toList)
      (hwithin : within = some owner) (h : document.HasProperty owner property) :
      Resolves document within ⟨.property, property⟩

/-- Every reference of a description refers to something. -/
def Described (document : Document) (within prose : Option String) : Prop :=
  ∀ s, prose = some s → ∀ r ∈ Description.mentions s, document.Resolves within r

/-- Every reference in the descriptions of a type and of its members refers to something. -/
def DescribedType (document : Document) : TypeDecl → Prop
  | .enumeration e =>
    document.Described none e.description ∧ ∀ l ∈ e.literals, document.Described none l.description
  | .constrained d => document.Described none d.description
  | .classType c => document.Described (some c.name) c.description
    ∧ ∀ p ∈ c.properties, document.Described (some c.name) p.description

/-- Only classes have properties. -/
theorem Effective.exists_class {document : Document} {name : String} {a : ClassDecl}
    {d : PropertyDecl} (h : document.Effective name a d) :
    ∃ c, Outline.classOf? document.types name = some c := by
  obtain ⟨ha, hreach, -⟩ := h
  cases hfind : Outline.classOf? document.types name with
  | some c => exact ⟨c, rfl⟩
  | none =>
    have hnot := Outline.classOf?_eq_none_iff.mp hfind
    rcases hreach.cases_head with rfl | ⟨parent, hparent, -⟩
    · exact absurd (List.mem_map_of_mem ha) hnot
    · rw [Inherits, parentsOf, hfind] at hparent
      cases hparent

section

variable {document : Document} (hnames : (document.types.map (·.name)).Nodup)
  (hkeeps : (Outline.ofTypes document.types).Keeps = document.Inherits)
  (hproperties : (Outline.ofTypes document.types).propertyProblems = [])

include hnames hkeeps hproperties

theorem isSome_propertyRef?_iff {owner property : String} :
    ((Outline.ofTypes document.types).propertyRef? owner property).isSome = true ↔
      document.HasProperty owner property := by
  rw [Outline.propertyRef?, show (Outline.ofTypes document.types).class? owner
    = Outline.classOf? document.types owner from rfl]
  cases hfind : Outline.classOf? document.types owner with
  | none =>
    simp only [Option.isNone_none, if_true, Option.isSome_none, Bool.false_eq_true, false_iff]
    rintro ⟨a, d, heffective, -⟩
    obtain ⟨c, hc⟩ := heffective.exists_class
    rw [hfind] at hc
    cases hc
  | some c =>
    obtain ⟨hc, rfl⟩ := (Outline.classOf?_eq_some_iff hnames).mp hfind
    rw [if_neg (by simp), Option.isSome_map,
      ← mem_names_attributesOf_iff hnames hkeeps hproperties hc, ← Option.not_isNone,
      Bool.not_eq_true', ← Bool.not_eq_true, Attribute.isNone_find?_iff, not_not]

/-- **The lookup finds what a reference refers to.** -/
theorem isSome_lookup_iff {within : Option String} {r : Mention} :
    ((Outline.ofTypes document.types).lookup within r).isSome = true ↔
      document.Resolves within r := by
  obtain ⟨role, target⟩ := r
  cases role with
  | type =>
    have hdeclared : (document.types.any fun d => d.name == target) = true ↔
        target ∈ document.types.map (·.name) := by
      simp [List.any_eq_true, List.mem_map]
    show (if document.types.any fun d => d.name == target then some (Inline.typeRef target)
      else none).isSome = true ↔ _
    constructor
    · intro h
      split at h
      · next hany => exact .type (hdeclared.mp hany)
      · cases h
    · intro h
      cases h with
      | type hmem => rw [if_pos (hdeclared.mpr hmem)]; rfl
  | property =>
    rw [Outline.lookup]
    simp only
    cases hsplit : Outline.splitTarget target with
    | some parts =>
      obtain ⟨owner, property⟩ := parts
      obtain ⟨howner, htarget⟩ := Outline.splitTarget_eq_some_iff.mp hsplit
      rw [isSome_propertyRef?_iff hnames hkeeps hproperties]
      constructor
      · intro h
        rw [htarget]
        exact .property howner h
      · intro h
        cases h with
        | @property owner' property' howner' h =>
          rw [Outline.splitTarget_eq_some_iff.mpr ⟨howner', rfl⟩] at hsplit
          cases hsplit
          exact h
        | own hplain => exact absurd (by simp [htarget]) hplain
    | none =>
      have hplain := Outline.splitTarget_eq_none_iff.mp hsplit
      rw [Option.isSome_bind, Option.any_eq_true]
      constructor
      · rintro ⟨owner, hwithin, h⟩
        exact .own hplain hwithin ((isSome_propertyRef?_iff hnames hkeeps hproperties).mp h)
      · intro h
        cases h with
        | property => exact absurd (by simp) hplain
        | own _ hwithin h =>
          exact ⟨_, hwithin, (isSome_propertyRef?_iff hnames hkeeps hproperties).mpr h⟩

theorem unresolvedIn_eq_nil_iff {within prose : Option String} {subject : Subject} :
    (Outline.ofTypes document.types).unresolvedIn within subject prose = [] ↔
      document.Described within prose := by
  unfold Outline.unresolvedIn
  cases prose with
  | none => simp [Described]
  | some s =>
    simp only [List.map_eq_nil_iff, Described, Option.some.injEq, forall_eq']
    rw [Description.unresolved_eq_nil_iff]
    exact forall₂_congr fun r _ => isSome_lookup_iff hnames hkeeps hproperties

/-! ## All descriptions of a document -/

theorem enumeration_references_iff {e : EnumerationDecl} (he : .enumeration e ∈ document.types)
    (hliterals : (e.literals.map fun l => Name.capital l.name).Nodup) :
    (Outline.ofTypes document.types).referenceProblemsOf (.enumeration e) = [] ↔
      document.DescribedType (.enumeration e) := by
  have hkept : (Outline.ofTypes document.types).enumeration? e.name = some e := by
    have hfind : (Outline.ofTypes document.types).types.find? (fun d => d.name == e.name)
        = some (.enumeration e) := (find?_key_eq_some_iff hnames).mpr ⟨he, rfl⟩
    unfold Outline.enumeration?
    rw [hfind]
  have hdistinct : (e.literals.map (·.name)).Nodup := by
    refine List.Nodup.of_map Name.capital ?_
    rw [List.map_map]
    exact hliterals
  rw [Outline.referenceProblemsOf, hkept, DescribedType]
  simp only [List.append_eq_nil_iff, List.flatMap_eq_nil_iff]
  refine and_congr (unresolvedIn_eq_nil_iff hnames hkeeps hproperties)
    (forall₂_congr fun l hl => ?_)
  rw [show e.literals.find? (fun raw => raw.name == l.name) = some l from
    (find?_key_eq_some_iff hdistinct).mpr ⟨hl, rfl⟩]
  exact unresolvedIn_eq_nil_iff hnames hkeeps hproperties

/-- The own properties of a class are those that it declares. -/
theorem mem_ownAttributes_iff {c : ClassDecl} (hc : c ∈ Outline.classesOf document.types)
    {entry : Attribute} :
    entry ∈ (Outline.ofTypes document.types).ownAttributes c.name ↔
      ∃ d ∈ c.properties, entry = Attribute.ofDecl document.types c.name d := by
  rw [Outline.ownAttributes, List.mem_filter, beq_iff_eq,
    mem_attributesOf_iff hnames hkeeps hproperties hc]
  constructor
  · rintro ⟨⟨a, d, ⟨ha, -, hd⟩, rfl⟩, hby⟩
    obtain rfl := Outline.class_eq_of_name_eq hnames ha hc hby
    exact ⟨d, hd, rfl⟩
  · rintro ⟨d, hd, rfl⟩
    exact ⟨⟨c, d, ⟨hc, .refl, hd⟩, rfl⟩, rfl⟩

theorem class_references_iff {c : ClassDecl} (hc : c ∈ Outline.classesOf document.types) :
    (Outline.ofTypes document.types).referenceProblemsOf (.classType c) = [] ↔
      document.DescribedType (.classType c) := by
  have hkept : (Outline.ofTypes document.types).class? c.name = some c :=
    (Outline.classOf?_eq_some_iff hnames).mpr ⟨hc, rfl⟩
  have hdistinct : (c.properties.map (·.name)).Nodup :=
    (((Outline.propertyProblems_eq_nil_iff hnames).mp hproperties).1 c hc).1
  have hraw : ∀ d ∈ c.properties, c.properties.find? (fun raw => raw.name == d.name) = some d :=
    fun d hd => (find?_key_eq_some_iff hdistinct).mpr ⟨hd, rfl⟩
  rw [Outline.referenceProblemsOf, hkept, DescribedType]
  simp only [List.append_eq_nil_iff, List.flatMap_eq_nil_iff]
  refine and_congr (unresolvedIn_eq_nil_iff hnames hkeeps hproperties) ?_
  simp only [mem_ownAttributes_iff hnames hkeeps hproperties hc]
  constructor
  · intro h d hd
    have hnone := h _ ⟨d, hd, rfl⟩
    rw [show (Attribute.ofDecl document.types c.name d).name = d.name from rfl, hraw d hd] at hnone
    exact (unresolvedIn_eq_nil_iff hnames hkeeps hproperties).mp hnone
  · rintro h entry ⟨d, hd, rfl⟩
    rw [show (Attribute.ofDecl document.types c.name d).name = d.name from rfl, hraw d hd]
    exact (unresolvedIn_eq_nil_iff hnames hkeeps hproperties).mpr (h d hd)

/-- **There is nothing to say about references** iff all that stand in a description refer to
something. -/
theorem referenceProblems_eq_nil_iff (hliterals : ∀ d ∈ document.types, d.LiteralsDistinct) :
    (Outline.ofTypes document.types).referenceProblems document = [] ↔
      (∀ d ∈ document.types, document.DescribedType d)
        ∧ document.Described none document.description := by
  rw [Outline.referenceProblems, List.append_eq_nil_iff, List.flatMap_eq_nil_iff]
  refine and_congr (forall₂_congr fun d hd => ?_)
    (unresolvedIn_eq_nil_iff hnames hkeeps hproperties)
  cases d with
  | enumeration e =>
    exact enumeration_references_iff hnames hkeeps hproperties hd (hliterals _ hd).1
  | constrained d =>
    have hfind : (Outline.ofTypes document.types).types.find? (fun t => t.name == d.name)
        = some (.constrained d) := (find?_key_eq_some_iff hnames).mpr ⟨hd, rfl⟩
    have hkept : (Outline.ofTypes document.types).constrained? d.name = some d := by
      unfold Outline.constrained?
      rw [hfind]
    rw [Outline.referenceProblemsOf, hkept, DescribedType]
    exact unresolvedIn_eq_nil_iff hnames hkeeps hproperties
  | classType c =>
    exact class_references_iff hnames hkeeps hproperties (Outline.mem_classesOf.mpr hd)

end

end Document

end WireModel
