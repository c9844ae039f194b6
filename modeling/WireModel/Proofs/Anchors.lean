import WireModel.Proofs.Links
import WireModel.Proofs.TypeNames

/-!
# Anchors of the reference

A link leads to an anchor, and to the place that it was made for only if no other place has the same
anchor. The places of a reference are its title, its sections, the types and the properties of the
classes that declare them. All of them are named in words, and an anchor keeps the words in lower
case but not what joins them: a hyphen stands for an underscore, and also between a class and its
property.

* **`Name.anchor_eq_iff`**: names share an anchor iff they are the same in lower case.
* **`Name.anchor_pair`**: a property shares its anchor with the name that an underscore joins.
* **`Reference.anchors_perm`**: apart from places, only the parts of a class have headings. They are
  behind two hyphens, where no place can be (`Reference.sectionAnchor_ne`).

Loading compares other forms of names, and of types only. **`Model.anchors_nodup_iff`** says that
the anchors are different iff the names of the places are, whatever the case of their letters.
-/

namespace WireModel

namespace Name

/-! ## Anchors of identifiers -/

/-- Words of letters and digits that are joined by single underscores. -/
inductive Snake : List Char → Prop where
  | single {c : Char} (h : Text.isAlphanumeric c = true) : Snake [c]
  | cons {c : Char} {rest : List Char} (h : Text.isAlphanumeric c = true) (hrest : Snake rest) :
      Snake (c :: rest)
  | underscore {c : Char} {rest : List Char} (h : Text.isAlphanumeric c = true)
      (hrest : Snake rest) : Snake (c :: '_' :: rest)

namespace Snake

theorem append {cs ds : List Char} (h : Snake cs) (hd : Snake ds) : Snake (cs ++ '_' :: ds) := by
  induction h with
  | single hc => exact .underscore hc hd
  | cons hc _ ih => exact .cons hc ih
  | underscore hc _ ih => exact .underscore hc ih

theorem of_word {cs : List Char} (hne : cs ≠ []) (h : ∀ c ∈ cs, Text.isAlphanumeric c = true) :
    Snake cs := by
  induction cs with
  | nil => exact absurd rfl hne
  | cons c cs ih =>
    obtain ⟨hc, hcs⟩ := List.forall_mem_cons.mp h
    cases cs with
    | nil => exact .single hc
    | cons d cs => exact .cons hc (ih (List.cons_ne_nil d cs) hcs)

theorem of_words {parts : List (List Char)} (hne : parts ≠ [])
    (h : ∀ part ∈ parts, part ≠ [] ∧ ∀ c ∈ part, Text.isAlphanumeric c = true) :
    Snake (['_'].intercalate parts) := by
  induction parts with
  | nil => exact absurd rfl hne
  | cons part parts ih =>
    obtain ⟨hpart, hparts⟩ := List.forall_mem_cons.mp h
    have hword := of_word hpart.1 hpart.2
    cases parts with
    | nil => rwa [List.intercalate_singleton]
    | cons other parts =>
      rw [List.intercalate_cons_cons, List.append_assoc]
      exact hword.append (ih (List.cons_ne_nil other parts) hparts)

theorem of_isIdentifier {name : String} (h : isIdentifier name = true) : Snake name.toList := by
  simp only [isIdentifier, Bool.and_eq_true, List.all_eq_true, Bool.not_eq_true',
    List.isEmpty_eq_false_iff] at h
  have hsnake := of_words (List.splitOn_ne_nil '_' name.toList) h.2
  rwa [List.intercalate_splitOn] at hsnake

end Snake

theorem of_forall_plain {P : Char → Prop}
    (h : ∀ n : Fin 128, Text.isAlphanumeric (Char.ofNat n) = true → P (Char.ofNat n))
    (hmark : P '_') {c : Char} (hc : isPlainChar c = true) : P c := by
  rw [isPlainChar, Bool.or_eq_true, beq_iff_eq] at hc
  rcases hc with hc | rfl
  · exact Text.of_forall_ascii h hc
  · exact hmark

/-- The character of an anchor for a character of an identifier. -/
def slugChar (c : Char) : Char := if c = '_' then '-' else Text.lowerChar c

/-- Takes a hyphen of an anchor back to the underscore that it comes from. -/
def unslugChar (c : Char) : Char := if c = '-' then '_' else c

theorem slugChar_of_isAlphanumeric {c : Char} (h : Text.isAlphanumeric c = true) :
    slugChar c = Text.lowerChar c :=
  Text.of_forall_ascii (P := fun c => slugChar c = Text.lowerChar c) (by decide) h

theorem isAnchorChar_lowerChar {c : Char} (h : Text.isAlphanumeric c = true) :
    isAnchorChar (Text.lowerChar c) = true :=
  Text.of_forall_ascii (P := fun c => isAnchorChar (Text.lowerChar c) = true) (by decide) h

theorem slugChar_ne_hyphen {c : Char} (h : Text.isAlphanumeric c = true) : slugChar c ≠ '-' :=
  Text.of_forall_ascii (P := fun c => slugChar c ≠ '-') (by decide) h

namespace Snake

variable {cs : List Char} (h : Snake cs)

include h

/-- Single underscores become hyphens one by one. -/
theorem hyphenate_append (inRun : Bool) (rest : List Char) :
    hyphenate inRun (cs.map Text.lowerChar ++ rest) = cs.map slugChar ++ hyphenate false rest := by
  have hmark : isAnchorChar (Text.lowerChar '_') = false := by decide
  have hslug : slugChar '_' = '-' := rfl
  induction h generalizing inRun with
  | single hc => simp [hyphenate, isAnchorChar_lowerChar hc, slugChar_of_isAlphanumeric hc]
  | cons hc _ ih => simp [hyphenate, isAnchorChar_lowerChar hc, slugChar_of_isAlphanumeric hc, ih]
  | underscore hc _ ih =>
    simp [hyphenate, isAnchorChar_lowerChar hc, slugChar_of_isAlphanumeric hc, hmark, hslug, ih]

theorem head?_slug : (cs.map slugChar).head? ≠ some '-' := by
  cases h with
  | single hc | cons hc _ | underscore hc _ => simpa using slugChar_ne_hyphen hc

theorem getLast?_slug : (cs.map slugChar).getLast? ≠ some '-' := by
  induction h with
  | single hc => simpa using slugChar_ne_hyphen hc
  | cons hc hrest ih | underscore hc hrest ih => cases hrest <;> simpa using ih

/-- No two hyphens follow each other. -/
theorem slug_ne (before after : List Char) :
    cs.map slugChar ≠ before ++ '-' :: '-' :: after := by
  induction h generalizing before with
  | single hc =>
    intro heq
    have hlength := congrArg List.length heq
    simp only [List.map_cons, List.map_nil, List.length_append, List.length_cons,
      List.length_nil] at hlength
    omega
  | cons hc hrest ih =>
    intro heq
    cases before with
    | nil => exact slugChar_ne_hyphen hc (List.cons.inj heq).1
    | cons d before => exact ih before (List.cons.inj heq).2
  | underscore hc hrest ih =>
    intro heq
    cases before with
    | nil => exact slugChar_ne_hyphen hc (List.cons.inj heq).1
    | cons d before =>
      have htail := (List.cons.inj heq).2
      -- behind the hyphen of an underscore another word begins
      cases before with
      | nil => exact hrest.head?_slug (by rw [(List.cons.inj htail).2]; rfl)
      | cons e before => exact ih before (List.cons.inj htail).2

theorem plain : ∀ c ∈ cs, isPlainChar c = true := by
  have hmark : isPlainChar '_' = true := rfl
  induction h with
  | single hc => simp [isPlainChar, hc]
  | cons hc _ ih => exact List.forall_mem_cons.mpr ⟨by simp [isPlainChar, hc], ih⟩
  | underscore hc _ ih =>
    simp only [List.forall_mem_cons]
    exact ⟨by simp [isPlainChar, hc], hmark, ih⟩

/-- What is said in lower case can be read off the slug. -/
theorem map_unslugChar : (cs.map slugChar).map unslugChar = cs.map Text.lowerChar := by
  rw [List.map_map]
  exact List.map_congr_left fun c hc =>
    of_forall_plain (P := fun c => unslugChar (slugChar c) = Text.lowerChar c) (by decide) rfl
      (h.plain c hc)

/-- The slug does not depend on the case. -/
theorem map_slugChar_lowerChar : (cs.map Text.lowerChar).map slugChar = cs.map slugChar := by
  rw [List.map_map]
  exact List.map_congr_left fun c hc =>
    of_forall_plain (P := fun c => slugChar (Text.lowerChar c) = slugChar c) (by decide) rfl
      (h.plain c hc)

end Snake

theorem dropWhile_eq_self {cs : List Char} (h : cs.head? ≠ some '-') :
    cs.dropWhile (· == '-') = cs := by
  cases cs with
  | nil => rfl
  | cons c cs => exact List.dropWhile_cons_of_neg (by simpa using h)

theorem stripHyphens_eq_self {cs : List Char} (hfirst : cs.head? ≠ some '-')
    (hlast : cs.getLast? ≠ some '-') : stripHyphens cs = cs := by
  rw [stripHyphens, dropWhile_eq_self hfirst, dropWhile_eq_self (by rwa [List.head?_reverse]),
    List.reverse_reverse]

section Slugs

variable {name other : String} (h : Snake name.toList)

include h

theorem toList_lower : (Text.lower name).toList = name.toList.map Text.lowerChar := by
  rw [Text.lower, String.toList_ofList, List.map_eq_flatMap]
  exact List.flatMap_congr fun c hc =>
    of_forall_plain (P := fun c => Text.lowerChars c = [Text.lowerChar c]) (by decide) rfl
      (h.plain c hc)

/-- The anchor of an identifier is the identifier in lower case, with hyphens. -/
theorem toList_anchor : (anchor [name]).toList = name.toList.map slugChar := by
  have hslug := h.hyphenate_append false []
  rw [hyphenate, List.append_nil, List.append_nil] at hslug
  rw [anchor, String.intercalate_singleton, String.toList_ofList, toList_lower h, hslug,
    stripHyphens_eq_self h.head?_slug h.getLast?_slug]

variable (hother : Snake other.toList)

include hother

/-- **Anchors tell identifiers apart that differ in lower case, and no others.** -/
theorem anchor_eq_iff : anchor [name] = anchor [other] ↔ Text.lower name = Text.lower other := by
  rw [← String.toList_inj, ← String.toList_inj, toList_anchor h, toList_anchor hother,
    toList_lower h, toList_lower hother]
  constructor
  · intro heq
    have hback := congrArg (List.map unslugChar) heq
    rwa [h.map_unslugChar, hother.map_unslugChar] at hback
  · intro heq
    have hslugs := congrArg (List.map slugChar) heq
    rwa [h.map_slugChar_lowerChar, hother.map_slugChar_lowerChar] at hslugs

/-- A property shares its anchor with the name that an underscore joins. -/
theorem anchor_pair : anchor [name, other] = anchor [name ++ "_" ++ other] := by
  have hjoined : (name ++ "_" ++ other).toList = name.toList ++ '_' :: other.toList := by simp
  have hsnake : Snake (name ++ "_" ++ other).toList := hjoined ▸ h.append hother
  have hlower : (Text.lower ("-".intercalate [name, other])).toList
      = name.toList.map Text.lowerChar ++ '-' :: other.toList.map Text.lowerChar := by
    have hmark : Text.lowerChars '-' = ['-'] := by decide
    rw [← toList_lower h, ← toList_lower hother]
    simp [Text.lower, hmark]
  have hhyphen : isAnchorChar '-' = true := by decide
  have hrest := hother.hyphenate_append false []
  rw [hyphenate, List.append_nil, List.append_nil] at hrest
  have hslug : hyphenate false (Text.lower ("-".intercalate [name, other])).toList
      = (name ++ "_" ++ other).toList.map slugChar := by
    rw [hlower, h.hyphenate_append, hyphenate, if_pos hhyphen, hrest, hjoined, List.map_append]
    rfl
  rw [← String.toList_inj, toList_anchor hsnake, anchor, String.toList_ofList, hslug,
    stripHyphens_eq_self hsnake.head?_slug hsnake.getLast?_slug]

end Slugs

example : anchor ["point", "x"] = anchor ["Point_X"] := by decide +kernel

end Name

/-! ## Places of a reference -/

/-- The properties that a class declares itself. -/
def Class.ownProperties (c : Class) : List Property :=
  c.properties.filter fun p => p.declaredBy = c.name

/-- The names of the places of a type: its own, and those of the properties that it declares, each
behind its own. -/
def NamedType.places : NamedType → List String
  | .classType c => c.name :: c.ownProperties.map fun p => c.name ++ "_" ++ p.name
  | s => [s.name]

theorem NamedType.name_mem_places (s : NamedType) : s.name ∈ s.places := by
  cases s <;> exact List.mem_cons_self

/-- The parts of a class that have headings of their own. -/
def Class.parts (c : Class) : List String :=
  (if c.properties.isEmpty then [] else ["properties"])
    ++ if c.arguments.isEmpty then [] else ["constructor"]

def NamedType.parts : NamedType → List String
  | .classType c => c.parts
  | _ => []

theorem NamedType.parts_sublist (s : NamedType) :
    s.parts.Sublist ["properties", "constructor"] := by
  cases s with
  | enumeration | constrained => exact List.nil_sublist _
  | classType c =>
    show c.parts.Sublist _
    rw [Class.parts]
    cases c.properties.isEmpty <;> cases c.arguments.isEmpty <;> decide

/-- The name of the section that a type stands in. -/
def NamedType.sectionName : NamedType → String
  | .enumeration _ => "enumerations"
  | .constrained _ => "constrained_primitives"
  | .classType _ => "classes"

namespace Table

/-- The names of the sections that have content. -/
def sections (t : Table) : List String :=
  ["enumerations", "constrained_primitives", "classes"].filter fun title =>
    t.types.any fun s => s.sectionName == title

/-- The names of all places: the title, the sections, the types and the properties. -/
def places (t : Table) : List String := t.name :: t.sections ++ t.types.flatMap NamedType.places

end Table

namespace Reference

/-! ## Anchors that blocks set -/

/-- The anchors of the targets in running text. -/
def targets (spans : Spans) : List String := spans.filterMap Span.target?

@[simp] theorem targets_nil : targets [] = [] := rfl

@[simp] theorem targets_text (text : String) (spans : Spans) :
    targets (.text text :: spans) = targets spans := rfl

@[simp] theorem targets_code (text : String) (spans : Spans) :
    targets (.code text :: spans) = targets spans := rfl

@[simp] theorem targets_link (text anchor : String) (isCode : Bool) (spans : Spans) :
    targets (.link text anchor isCode :: spans) = targets spans := rfl

@[simp] theorem targets_target (anchor : String) (spans : Spans) :
    targets (.target anchor :: spans) = anchor :: targets spans := rfl

@[simp] theorem targets_append (spans rest : Spans) :
    targets (spans ++ rest) = targets spans ++ targets rest :=
  List.filterMap_append

@[simp] theorem targets_typeLinks (names : List String) : targets (typeLinks names) = [] := by
  refine List.filterMap_eq_nil_iff.mpr fun s hs => ?_
  rcases mem_of_mem_intersperse hs with rfl | hs
  · rfl
  · obtain ⟨name, -, rfl⟩ := List.mem_map.mp hs
    rfl

@[simp] theorem targets_ofInline (paragraph : Paragraph) :
    targets (paragraph.map ofInline) = [] := by
  refine List.filterMap_eq_nil_iff.mpr (List.forall_mem_map.mpr fun inline _ => ?_)
  cases inline <;> rfl

@[simp] theorem targets_summaryOf (description : Option Description) :
    targets (summaryOf description) = [] := by
  cases description with
  | none => rfl
  | some d => exact targets_ofInline d.summary

@[simp] theorem targets_ofAtom (atom : Atom) (spans : Spans) :
    targets (ofAtom atom :: spans) = targets spans := by
  cases atom <;> rfl

@[simp] theorem targets_ofField (type : FieldType Atom) : targets (ofField type) = [] := by
  unfold ofField
  dsimp only
  split <;> split <;> simp

@[simp] theorem targets_argumentSpans (a : Argument) : targets (argumentSpans a) = [] := by
  unfold argumentSpans
  split
  · next d _ => cases d <;> simp [ofDefault]
  · simp

/-- The anchors of headings and targets. -/
def anchorsOf (blocks : List Block) : List String :=
  blocks.flatMap fun b => b.heading?.toList ++ targets b.spans

@[simp] theorem anchorsOf_nil : anchorsOf [] = [] := rfl

@[simp] theorem anchorsOf_append (blocks rest : List Block) :
    anchorsOf (blocks ++ rest) = anchorsOf blocks ++ anchorsOf rest :=
  List.flatMap_append

theorem anchorsOf_flatMap {α : Type} (items : List α) (f : α → List Block) :
    anchorsOf (items.flatMap f) = items.flatMap fun a => anchorsOf (f a) :=
  List.flatMap_assoc

@[simp] theorem anchorsOf_heading (level : Nat) (text anchor : String) (blocks : List Block) :
    anchorsOf (.heading level text anchor :: blocks) = anchor :: anchorsOf blocks := rfl

@[simp] theorem anchorsOf_titled (level : Nat) (title : String) (blocks : List Block) :
    anchorsOf (heading level title :: blocks) = Name.anchor [title] :: anchorsOf blocks := rfl

@[simp] theorem anchorsOf_paragraph (content : Spans) (blocks : List Block) :
    anchorsOf (.paragraph content :: blocks) = targets content ++ anchorsOf blocks := rfl

@[simp] theorem anchorsOf_list (items : List Spans) (blocks : List Block) :
    anchorsOf (.list items :: blocks) = items.flatMap targets ++ anchorsOf blocks := by
  show List.filterMap Span.target? items.flatten ++ anchorsOf blocks = _
  rw [List.filterMap_flatten]
  rfl

@[simp] theorem anchorsOf_table (header : List String) (rows : List (List Spans))
    (blocks : List Block) :
    anchorsOf (.table header rows :: blocks)
      = (rows.flatMap fun row => row.flatMap targets) ++ anchorsOf blocks := by
  show List.filterMap Span.target? rows.flatten.flatten ++ anchorsOf blocks = _
  rw [List.filterMap_flatten, List.map_flatten, List.flatten_flatten, List.map_map]
  rfl

@[simp] theorem anchorsOf_descriptionBlocks (description : Option Description) :
    anchorsOf (descriptionBlocks description) = [] := by
  cases description with
  | none => rfl
  | some d =>
    rw [descriptionBlocks, anchorsOf, List.flatMap_map]
    exact List.flatMap_eq_nil_iff.mpr fun p _ => targets_ofInline p

@[simp] theorem anchorsOf_relatives (lead : String) (names : List String) :
    anchorsOf (relatives lead names) = [] := by
  unfold relatives
  split <;> simp

@[simp] theorem anchorsOf_discriminatorBlocks (key : String) (c : Codec.ClassPlan) :
    anchorsOf (discriminatorBlocks key c) = [] := by
  unfold discriminatorBlocks
  split <;> simp

@[simp] theorem targets_kindSpans (kind : ClassKind) : targets (kindSpans kind) = [] := by
  unfold kindSpans
  split <;> split <;> rfl

/-! ## Anchors of a type -/

theorem anchorsOf_enumerationBlocks (e : Enumeration) :
    anchorsOf (enumerationBlocks e) = [Name.anchor [e.name]] := by
  simp [enumerationBlocks]

theorem anchorsOf_constrainedBlocks (c : Constrained) :
    anchorsOf (constrainedBlocks c) = [Name.anchor [c.name]] := by
  simp [constrainedBlocks]

theorem anchorsOf_constructorBlocks (c : Class) :
    anchorsOf (constructorBlocks c)
      = (if c.arguments.isEmpty then [] else ["constructor"]).map (sectionAnchor c.name) := by
  unfold constructorBlocks
  split <;> simp

theorem targets_propertyRow (className : String) (m : Codec.Member) :
    (propertyRow className m).flatMap targets
      = if m.property.declaredBy = className then [propertyAnchor className m.property.name]
        else [] := by
  unfold propertyRow
  dsimp only
  split
  · next h => simp [h]
  · simp [typeLink]

theorem flatMap_ownProperties (c : Class) (f : Property → String) :
    (c.properties.flatMap fun p => if p.declaredBy = c.name then [f p] else [])
      = c.ownProperties.map f := by
  unfold Class.ownProperties
  induction c.properties with
  | nil => rfl
  | cons p properties ih => by_cases h : p.declaredBy = c.name <;> simp [h, ih]

theorem anchorsOf_propertyBlocks {t : Table} {c : Class} {p : Codec.ClassPlan}
    (hp : p.Plans t c) :
    anchorsOf (propertyBlocks p)
      = (if c.properties.isEmpty then [] else ["properties"]).map (sectionAnchor c.name)
        ++ c.ownProperties.map fun q => propertyAnchor c.name q.name := by
  have hname : p.name = c.name := by rw [Codec.ClassPlan.name, hp.type_eq]
  have hmembers : p.members.map (·.property) = c.properties := by
    rw [map_eq_of_forall₂ hp.members fun q m hm => hm.property_eq]
    exact List.map_id _
  have hrows : (p.members.flatMap fun m => (propertyRow c.name m).flatMap targets)
      = c.ownProperties.map fun q => propertyAnchor c.name q.name := by
    simp only [targets_propertyRow]
    rw [← flatMap_ownProperties, ← hmembers, List.flatMap_map]
  rw [← hrows, ← hmembers, List.isEmpty_map]
  unfold propertyBlocks
  split
  · next hempty => rw [List.isEmpty_iff.mp hempty]; rfl
  · simp [hname, List.flatMap_map]

theorem anchorsOf_classBlocks_perm {t : Table} {c : Class} {p : Codec.ClassPlan}
    (hp : p.Plans t c) (key : String) :
    (anchorsOf (classBlocks key p)).Perm
      (Name.anchor [c.name] :: (c.ownProperties.map fun q => propertyAnchor c.name q.name)
        ++ c.parts.map (sectionAnchor c.name)) := by
  have hname : p.name = c.name := by rw [Codec.ClassPlan.name, hp.type_eq]
  have hanchors : anchorsOf (classBlocks key p)
      = Name.anchor [c.name]
        :: (anchorsOf (propertyBlocks p) ++ anchorsOf (constructorBlocks c)) := by
    simp [classBlocks, hname, hp.type_eq]
  rw [hanchors, anchorsOf_propertyBlocks hp, anchorsOf_constructorBlocks, List.cons_append,
    Class.parts, List.map_append, List.append_assoc]
  exact .cons _ (List.perm_append_comm_assoc ..)

/-! ## Anchors of the tree -/

theorem anchorsOf_sectionBlocks (title : String) (content : List Block) :
    anchorsOf (sectionBlocks title content)
      = (if content.isEmpty then [] else [Name.anchor [title]]) ++ anchorsOf content := by
  unfold sectionBlocks
  split
  · next hempty => rw [List.isEmpty_iff.mp hempty]; rfl
  · rfl

/-- A section has content iff there are types for it. -/
theorem isEmpty_flatMap {t : Table} {types : List NamedType} {plans : List Codec.TypePlan}
    (hplans : List.Forall₂ (Codec.TypePlan.Plans t) types plans)
    {blocks : Codec.TypePlan → List Block} {kind : NamedType → Bool}
    (h : ∀ s type, type.Plans t s → (blocks type).isEmpty = !kind s) :
    (plans.flatMap blocks).isEmpty = !types.any kind := by
  induction hplans with
  | nil => rfl
  | @cons s type types plans htype _ ih =>
    rw [List.flatMap_cons, List.any_cons, Bool.not_or, ← h s type htype, ← ih]
    cases blocks type <;> rfl

section Build

variable {t : Table} {plan : Codec.Plan} (hplan : plan.Plans t) (key : String)

include hplan

theorem isEmpty_enumerationsOf :
    (enumerationsOf plan).isEmpty = !t.types.any fun s => s.sectionName == "enumerations" := by
  refine isEmpty_flatMap hplan.types fun s type htype => ?_
  cases htype <;> simp [NamedType.sectionName, enumerationBlocks]

theorem isEmpty_constrainedOf :
    (constrainedOf plan).isEmpty
      = !t.types.any fun s => s.sectionName == "constrained_primitives" := by
  refine isEmpty_flatMap hplan.types fun s type htype => ?_
  cases htype <;> simp [NamedType.sectionName, constrainedBlocks]

theorem isEmpty_classesOf :
    (classesOf plan key).isEmpty = !t.types.any fun s => s.sectionName == "classes" := by
  refine isEmpty_flatMap hplan.types fun s type htype => ?_
  cases htype <;> simp [NamedType.sectionName, classBlocks]

omit hplan in
/-- The types of the three sections are all types. -/
theorem anchorsOf_types_perm :
    (anchorsOf (enumerationsOf plan) ++ anchorsOf (constrainedOf plan)
      ++ anchorsOf (classesOf plan key)).Perm
        (plan.types.flatMap fun type => anchorsOf (typeBlocks key type)) := by
  unfold enumerationsOf constrainedOf classesOf
  simp only [anchorsOf_flatMap]
  refine ((List.flatMap_append_perm _ _ _).append_right _).trans
    ((List.flatMap_append_perm _ _ _).trans (.of_eq (List.flatMap_congr fun type _ => ?_)))
  cases type <;> simp [typeBlocks]

theorem anchors_sections :
    t.sections.map (fun name => Name.anchor [name])
      = (if (enumerationsOf plan).isEmpty then [] else [Name.anchor ["Enumerations"]])
        ++ (if (constrainedOf plan).isEmpty then [] else [Name.anchor ["Constrained primitives"]])
        ++ if (classesOf plan key).isEmpty then [] else [Name.anchor ["Classes"]] := by
  have henumerations : Name.anchor ["Enumerations"] = Name.anchor ["enumerations"] := by
    decide +kernel
  have hconstrained : Name.anchor ["Constrained primitives"]
      = Name.anchor ["constrained_primitives"] := by decide +kernel
  have hclasses : Name.anchor ["Classes"] = Name.anchor ["classes"] := by decide +kernel
  rw [isEmpty_enumerationsOf hplan, isEmpty_constrainedOf hplan, isEmpty_classesOf hplan,
    henumerations, hconstrained, hclasses]
  simp only [Table.sections, List.filter_cons, List.filter_nil]
  cases t.types.any fun s => s.sectionName == "enumerations" <;>
  cases t.types.any fun s => s.sectionName == "constrained_primitives" <;>
  cases t.types.any fun s => s.sectionName == "classes" <;> rfl

theorem anchors_build :
    (build plan key none).anchors
      = Name.anchor [t.name] :: (anchorsOf (sectionBlocks "Enumerations" (enumerationsOf plan))
        ++ anchorsOf (sectionBlocks "Constrained primitives" (constrainedOf plan))
        ++ anchorsOf (sectionBlocks "Classes" (classesOf plan key))) := by
  show anchorsOf (build plan key none).blocks = _
  unfold build
  dsimp only
  rw [hplan.table_eq]
  cases t.version <;> simp

theorem anchors_build_perm :
    (build plan key none).anchors.Perm
      (Name.anchor [t.name] :: t.sections.map (fun name => Name.anchor [name])
        ++ plan.types.flatMap fun type => anchorsOf (typeBlocks key type)) := by
  rw [anchors_build hplan, anchorsOf_sectionBlocks, anchorsOf_sectionBlocks,
    anchorsOf_sectionBlocks, anchors_sections hplan key, List.cons_append]
  refine .cons _ (.trans ?_ ((anchorsOf_types_perm key).append_left _))
  -- each heading stands before its own section, or all of them before all sections
  rw [List.perm_iff_count]
  intro anchor
  simp only [List.count_append]
  omega

end Build

/-! ## Anchors and places -/

theorem sectionAnchor_inj {name other part rest : String}
    (hpart : part ∈ ["properties", "constructor"]) (hrest : rest ∈ ["properties", "constructor"])
    (h : sectionAnchor name part = sectionAnchor other rest) :
    Name.anchor [name] = Name.anchor [other] ∧ part = rest := by
  -- the two parts end in different letters
  have hends : ∀ part ∈ ["properties", "constructor"], ∀ rest ∈ ["properties", "constructor"],
      part.toList.getLast? = rest.toList.getLast? → part = rest := by decide
  have hlast : ∀ part ∈ ["properties", "constructor"], ∀ name,
      (sectionAnchor name part).toList.getLast? = part.toList.getLast? := by
    simp [sectionAnchor]
  obtain rfl : part = rest := by
    refine hends part hpart rest hrest ?_
    rw [← hlast part hpart name, h, hlast rest hrest other]
  unfold sectionAnchor at h
  rw [String.append_left_inj, String.append_left_inj] at h
  exact ⟨h, rfl⟩

theorem flatMap_perm_of_forall₂ {α β γ : Type} {R : α → β → Prop} {as : List α} {bs : List β}
    {f : β → List γ} {g k : α → List γ} (h : List.Forall₂ R as bs)
    (hfg : ∀ a ∈ as, ∀ b, R a b → (f b).Perm (g a ++ k a)) :
    (bs.flatMap f).Perm (as.flatMap g ++ as.flatMap k) := by
  induction h with
  | nil => exact .refl _
  | @cons a b as bs hab _ ih =>
    obtain ⟨hhead, hrest⟩ := List.forall_mem_cons.mp hfg
    rw [List.flatMap_cons, List.flatMap_cons, List.flatMap_cons]
    refine ((hhead b hab).append (ih hrest)).trans ?_
    -- the two middle parts change places
    rw [List.append_assoc, List.append_assoc]
    exact (List.perm_append_comm_assoc ..).append_left _

section Sound

variable {key : String} {t : Table} (h : t.Sound key)

include h

theorem snake_of_mem_types {s : NamedType} (hs : s ∈ t.types) : Name.Snake s.name.toList :=
  .of_isIdentifier (h.identified s hs)

theorem snake_of_mem_ownProperties {c : Class} (hc : .classType c ∈ t.types) {p : Property}
    (hp : p ∈ c.ownProperties) : Name.Snake p.name.toList :=
  .of_isIdentifier ((h.classes c (Table.mem_classes.mpr hc)).properties_identified p
    (List.mem_filter.mp hp).1)

theorem snake_of_mem_places (hname : Name.isIdentifier t.name = true) {name : String}
    (hmem : name ∈ t.places) : Name.Snake name.toList := by
  rcases List.mem_append.mp hmem with hmem | hmem
  · rcases List.mem_cons.mp hmem with rfl | hmem
    · exact .of_isIdentifier hname
    · have htitles : ∀ title ∈ ["enumerations", "constrained_primitives", "classes"],
          Name.isIdentifier title = true := by decide
      exact .of_isIdentifier (htitles name (List.mem_filter.mp hmem).1)
  · obtain ⟨s, hs, hmem⟩ := List.mem_flatMap.mp hmem
    have htype := snake_of_mem_types h hs
    cases s with
    | enumeration | constrained =>
      obtain rfl := List.mem_singleton.mp hmem
      exact htype
    | classType c =>
      rcases List.mem_cons.mp hmem with rfl | hmem
      · exact htype
      · obtain ⟨p, hp, rfl⟩ := List.mem_map.mp hmem
        rw [String.toList_append, String.toList_append, List.append_assoc]
        exact htype.append (snake_of_mem_ownProperties h hs hp)

theorem anchorsOf_typeBlocks_perm (discriminator : String) {s : NamedType} (hs : s ∈ t.types)
    {type : Codec.TypePlan} (htype : type.Plans t s) :
    (anchorsOf (typeBlocks discriminator type)).Perm
      (s.places.map (fun name => Name.anchor [name]) ++ s.parts.map (sectionAnchor s.name)) := by
  cases htype with
  | enumeration e =>
    rw [typeBlocks, anchorsOf_enumerationBlocks]
    exact .refl _
  | constrained c =>
    rw [typeBlocks, anchorsOf_constrainedBlocks]
    exact .refl _
  | @classType c p hp =>
    have hproperties : (c.ownProperties.map fun q => propertyAnchor c.name q.name)
        = (c.ownProperties.map fun q => c.name ++ "_" ++ q.name).map fun name =>
          Name.anchor [name] := by
      rw [List.map_map]
      exact List.map_congr_left fun q hq =>
        Name.anchor_pair (snake_of_mem_types h hs) (snake_of_mem_ownProperties h hs hq)
    rw [NamedType.places, List.map_cons, ← hproperties]
    exact anchorsOf_classBlocks_perm hp discriminator

/-- The anchors of a reference are those of its places and of the sections of its classes. -/
theorem anchors_perm {plan : Codec.Plan} (hplan : plan.Plans t) (discriminator : String) :
    (build plan discriminator none).anchors.Perm
      (t.places.map (fun name => Name.anchor [name])
        ++ t.types.flatMap fun s => s.parts.map (sectionAnchor s.name)) := by
  have htypes := flatMap_perm_of_forall₂ hplan.types fun s hs type htype =>
    anchorsOf_typeBlocks_perm h discriminator hs htype
  refine (anchors_build_perm hplan discriminator).trans ?_
  rw [Table.places, List.map_append, List.map_cons, List.map_flatMap, List.append_assoc]
  exact htypes.append_left _

theorem anchors_places_nodup_iff (hname : Name.isIdentifier t.name = true) :
    (t.places.map fun name => Name.anchor [name]).Nodup ↔ (t.places.map Text.lower).Nodup := by
  unfold List.Nodup
  rw [List.pairwise_map, List.pairwise_map]
  exact List.Pairwise.iff_of_mem fun hmem hmem' => not_congr
    (Name.anchor_eq_iff (snake_of_mem_places h hname hmem) (snake_of_mem_places h hname hmem'))

/-- No heading of a section of a class takes the anchor of a place. -/
theorem sectionAnchor_ne (hname : Name.isIdentifier t.name = true) {name : String}
    (hmem : name ∈ t.places) (other part : String) :
    Name.anchor [name] ≠ sectionAnchor other part := by
  intro heq
  have hslugs := congrArg String.toList heq
  have hsection : (sectionAnchor other part).toList
      = (Name.anchor [other]).toList ++ '-' :: '-' :: part.toList := by simp [sectionAnchor]
  have hsnake := snake_of_mem_places h hname hmem
  rw [hsection, Name.toList_anchor hsnake] at hslugs
  exact hsnake.slug_ne _ _ hslugs

/-- Where places have different names, types have. -/
theorem type_eq_of_lower_eq (hplaces : (t.places.map Text.lower).Nodup) {s r : NamedType}
    (hs : s ∈ t.types) (hr : r ∈ t.types) (heq : Text.lower s.name = Text.lower r.name) :
    s = r := by
  rw [Table.places, List.map_append, List.map_flatMap] at hplaces
  have hone := ((nodup_flatMap_iff h.types_nodup).mp (List.nodup_append.mp hplaces).2.1).2
  refine hone s hs r hr (Text.lower s.name) (List.mem_map_of_mem s.name_mem_places) ?_
  rw [heq]
  exact List.mem_map_of_mem r.name_mem_places

theorem sectionAnchors_nodup (hplaces : (t.places.map Text.lower).Nodup) :
    (t.types.flatMap fun s => s.parts.map (sectionAnchor s.name)).Nodup := by
  refine (nodup_flatMap_iff h.types_nodup).mpr ⟨fun s _ => ?_, fun s hs r hr anchor ha ha' => ?_⟩
  · have hparts : s.parts.Nodup := s.parts_sublist.nodup (by decide)
    exact (List.nodup_map_iff_inj_on hparts).mpr fun part hpart other hother heq =>
      (sectionAnchor_inj (s.parts_sublist.subset hpart) (s.parts_sublist.subset hother) heq).2
  · obtain ⟨part, hpart, rfl⟩ := List.mem_map.mp ha
    obtain ⟨other, hother, heq⟩ := List.mem_map.mp ha'
    have hanchors := (sectionAnchor_inj (r.parts_sublist.subset hother)
      (s.parts_sublist.subset hpart) heq).1
    exact type_eq_of_lower_eq h hplaces hs hr ((Name.anchor_eq_iff (snake_of_mem_types h hs)
      (snake_of_mem_types h hr)).mp hanchors.symm)

end Sound

end Reference

/-- **The anchors of a reference are different iff its places have different names**, whatever the
case of their letters. -/
theorem Model.anchors_nodup_iff {key : String} {value : Json} {table : Table}
    (h : Model.load key value = .ok table) :
    ∃ plan, Codec.Plan.of table = .ok plan ∧ ∀ discriminator : String,
      (Reference.build plan discriminator none).anchors.Nodup
        ↔ (table.places.map Text.lower).Nodup := by
  have hsound := Model.sound_of_load h
  obtain ⟨document, -, hclean, hidentified, rfl⟩ := Model.clean_of_load h
  obtain ⟨plan, hplan⟩ := hsound.exists_plan
  have hplans := Codec.Plan.plans_of_eq_ok hplan
  refine ⟨plan, hplan, fun discriminator => ?_⟩
  have hname : Name.isIdentifier document.table.name = true := hidentified.1
  rw [(Reference.anchors_perm hsound hplans discriminator).nodup_iff, List.nodup_append,
    Reference.anchors_places_nodup_iff hsound hname]
  -- where the names of places differ, the parts of classes take care of themselves
  refine ⟨fun hall => hall.1, fun hplaces => ⟨hplaces,
    Reference.sectionAnchors_nodup hsound hplaces, fun anchor hmem other hmem' heq => ?_⟩⟩
  obtain ⟨name, hplace, rfl⟩ := List.mem_map.mp hmem
  obtain ⟨s, -, hmem'⟩ := List.mem_flatMap.mp hmem'
  obtain ⟨part, -, rfl⟩ := List.mem_map.mp hmem'
  exact Reference.sectionAnchor_ne hsound hname hplace s.name part heq

/-- A class that is named like the property of another one. -/
def plots : Json :=
  .object [("name", .text "plots"), ("types", .array [
    .object [("kind", .text "concreteClass"), ("name", .text "point"), ("properties", .array [
      .object [("name", .text "x"), ("type", .text "float")]])],
    .object [("kind", .text "concreteClass"), ("name", .text "point_x")]])]

theorem plots_apart_iff : ∃ table, Model.load "modelType" plots = .ok table
    ∧ ∃ plan, Codec.Plan.of table = .ok plan ∧ ∀ discriminator : String,
      (Reference.build plan discriminator none).anchors.Nodup
        ↔ (table.places.map Text.lower).Nodup := by
  have hloads : (Model.load "modelType" plots).toOption.isSome = true := by decide +kernel
  obtain ⟨table, hload⟩ := Model.exists_table hloads
  exact ⟨table, hload, Model.anchors_nodup_iff hload⟩

theorem plots_anchors_meet : ∃ table plan, Model.load "modelType" plots = .ok table
    ∧ Codec.Plan.of table = .ok plan
    ∧ ¬ (Reference.build plan "modelType" none).anchors.Nodup := by
  have hanchors : (Model.load "modelType" plots).toOption.bind (fun t =>
      (Codec.Plan.of t).toOption.map fun plan =>
        decide (Reference.build plan "modelType" none).anchors.Nodup) = some false := by
    decide +kernel
  obtain ⟨table, plan, hload, hplan, hanchors⟩ := Model.exists_plan_of_eq_some hanchors
  exact ⟨table, plan, hload, hplan, of_decide_eq_false hanchors⟩

end WireModel
