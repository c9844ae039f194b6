import Mathlib.Tactic.MkIffOfInductiveProp
import Mathlib.Tactic.Tauto
import WireModel.Compile
import WireModel.Proofs.Loading
import WireModel.Proofs.TypeLists

/-!
# The form of a document, and the two ways to fail

A check lists what is wrong with a value, with the rules of the format written as data. The same
format is written here as predicates on values, without places and without reports, and the two
are tied together from the inside out:

* **`Check.Tests check P`** says that `check` has nothing to report exactly on the values with `P`.
  There is one lemma for each combinator, and one for each kind of declaration.
* **`Document.conforms_iff`**: a value conforms iff it has the form of a document.
* **`Name.isIdentifier_iff`**: names are identifiers iff they match the pattern of the format.

A value without that form fails with violations and nothing else, and a value with it never has
any. So the code of a failure tells the two apart: **`Model.failures_apart`**.
-/

namespace WireModel

/-! ## Identifiers -/

namespace Name

/-- The text matches `^[A-Za-z][A-Za-z0-9]*(_[A-Za-z0-9]+)*$`. -/
inductive Matches : String → Prop where
  | mk {first : Char} {rest : List Char} {words : List (List Char)}
      (hfirst : Text.isLetter first = true)
      (hrest : ∀ c ∈ rest, Text.isAlphanumeric c = true)
      (hwords : ∀ word ∈ words, word ≠ [] ∧ ∀ c ∈ word, Text.isAlphanumeric c = true) :
      Matches (String.ofList (first :: rest ++ words.flatMap ('_' :: ·)))

theorem intercalate_cons_eq_flatMap (sep : Char) (word : List Char) (words : List (List Char)) :
    [sep].intercalate (word :: words) = word ++ words.flatMap (sep :: ·) := by
  induction words generalizing word with
  | nil => simp
  | cons next words ih =>
    rw [List.intercalate_cons_cons, ih, List.flatMap_cons]
    simp

/-- **Identifiers are the texts that match the pattern.** -/
theorem isIdentifier_iff {name : String} : isIdentifier name = true ↔ Matches name := by
  simp only [isIdentifier, Bool.and_eq_true, List.all_eq_true, Bool.not_eq_true',
    List.isEmpty_eq_false_iff]
  constructor
  · rintro ⟨hfirst, hparts⟩
    obtain ⟨part, words, hsplit⟩ :=
      List.exists_cons_of_ne_nil (List.splitOn_ne_nil '_' name.toList)
    have hname : name.toList = part ++ words.flatMap ('_' :: ·) := by
      rw [← intercalate_cons_eq_flatMap, ← hsplit, List.intercalate_splitOn]
    rw [hsplit] at hparts
    obtain ⟨hne, hpart⟩ := hparts part List.mem_cons_self
    -- the first part is not empty, so it begins with the first character of the name
    obtain ⟨first, rest, rfl⟩ := List.exists_cons_of_ne_nil hne
    rw [hname] at hfirst
    have hmatches : Matches (String.ofList (first :: rest ++ words.flatMap ('_' :: ·))) :=
      .mk hfirst (fun c hc => hpart c (List.mem_cons_of_mem _ hc))
        fun word hword => hparts word (List.mem_cons_of_mem _ hword)
    rwa [← hname, String.ofList_toList] at hmatches
  · rintro ⟨hfirst, hrest, hwords⟩
    rename_i first rest words
    have hplain : ∀ part ∈ (first :: rest) :: words,
        part ≠ [] ∧ ∀ c ∈ part, Text.isAlphanumeric c = true := by
      rw [List.forall_mem_cons]
      refine ⟨⟨List.cons_ne_nil _ _, List.forall_mem_cons.mpr ⟨?_, hrest⟩⟩, hwords⟩
      rw [Text.isAlphanumeric, hfirst, Bool.true_or]
    have hsep : ∀ part ∈ (first :: rest) :: words, '_' ∉ part :=
      fun part hpart hmem => absurd ((hplain part hpart).2 _ hmem) (by decide)
    rw [String.toList_ofList, ← intercalate_cons_eq_flatMap,
      List.splitOn_intercalate '_' hsep (List.cons_ne_nil _ _), intercalate_cons_eq_flatMap]
    exact ⟨hfirst, hplain⟩

end Name

/-! ## Forms of values -/

namespace Json

inductive IsText : Json → Prop where
  | mk (s : String) : IsText (.text s)

inductive IsBoolean : Json → Prop where
  | mk (b : Bool) : IsBoolean (.bool b)

/-- A text that matches the pattern of identifiers. -/
inductive IsIdentifier : Json → Prop where
  | mk {s : String} (h : Name.Matches s) : IsIdentifier (.text s)

/-- A text that is not empty. -/
inductive IsTypeText : Json → Prop where
  | mk {s : String} (h : s ≠ "") : IsTypeText (.text s)

/-- A default: a boolean, a finite number, a text or `null`. -/
inductive IsConstant : Json → Prop where
  | null : IsConstant .null
  | bool (b : Bool) : IsConstant (.bool b)
  | number {x : Binary64} (h : x.isFinite = true) : IsConstant (.number x)
  | text (s : String) : IsConstant (.text s)

inductive IsOneOf (allowed : List String) : Json → Prop where
  | mk {s : String} (h : s ∈ allowed) : IsOneOf allowed (.text s)

inductive IsArrayOf (P : Json → Prop) : Json → Prop where
  | mk {items : List Json} (h : ∀ item ∈ items, P item) : IsArrayOf P (.array items)

inductive IsObject (P : Members → Prop) : Json → Prop where
  | mk {members : Members} (h : P members) : IsObject P (.object members)

namespace Members

/-- A member is there and has the form `P`. -/
def Requires (members : Members) (key : String) (P : Json → Prop) : Prop :=
  ∃ value, members.get? key = some value ∧ P value

/-- A member is left out or has the form `P`. -/
def Permits (members : Members) (key : String) (P : Json → Prop) : Prop :=
  ∀ value, members.get? key = some value → P value

theorem mem_keys_of_get? {members : Members} {key : String} {value : Json}
    (h : members.get? key = some value) : key ∈ members.keys := by
  by_contra hnot
  rw [get?_eq_none_iff.mpr hnot] at h
  cases h

theorem requires_iff {members : Members} {key : String} {P : Json → Prop} :
    members.Requires key P ↔ key ∈ members.keys ∧ members.Permits key P := by
  unfold Requires Permits
  cases hget : members.get? key with
  | none => simp [get?_eq_none_iff.mp hget]
  | some value => simp [mem_keys_of_get? hget]

end Members

end Json

open Json

/-! ## Forms of declarations -/

@[mk_iff]
structure LiteralDecl.Form (members : Json.Members) : Prop where
  keys : members.keys ⊆ ["name", "value", "description"]
  name : members.Requires "name" IsIdentifier
  value : members.Requires "value" IsText
  description : members.Permits "description" IsText

@[mk_iff]
structure PropertyDecl.Form (members : Json.Members) : Prop where
  keys : members.keys ⊆ ["name", "type", "description"]
  name : members.Requires "name" IsIdentifier
  type : members.Requires "type" IsTypeText
  description : members.Permits "description" IsText

@[mk_iff]
structure ArgumentDecl.Form (members : Json.Members) : Prop where
  keys : members.keys ⊆ ["name", "type", "default"]
  name : members.Requires "name" IsIdentifier
  type : members.Requires "type" IsTypeText
  default : members.Permits "default" IsConstant

@[mk_iff]
structure EnumerationDecl.Form (members : Json.Members) : Prop where
  keys : members.keys ⊆ ["kind", "name", "description", "literals"]
  name : members.Requires "name" IsIdentifier
  description : members.Permits "description" IsText
  literals : members.Requires "literals" (IsArrayOf (IsObject LiteralDecl.Form))

@[mk_iff]
structure ConstrainedDecl.Form (members : Json.Members) : Prop where
  keys : members.keys ⊆ ["kind", "name", "description", "constrainee"]
  name : members.Requires "name" IsIdentifier
  description : members.Permits "description" IsText
  constrainee : members.Requires "constrainee"
    (IsOneOf ["bool", "int", "float", "str", "bytearray"])

/-- The keys that both kinds of classes may have. -/
def ClassDecl.formKeys : List String :=
  ["kind", "name", "description", "inheritances", "properties", "constructorArguments"]

/-- What both kinds of classes have in common, apart from the keys that they may have. -/
@[mk_iff]
structure ClassDecl.Form (members : Json.Members) : Prop where
  name : members.Requires "name" IsIdentifier
  description : members.Permits "description" IsText
  parents : members.Permits "inheritances" (IsArrayOf IsIdentifier)
  properties : members.Permits "properties" (IsArrayOf (IsObject PropertyDecl.Form))
  arguments : members.Permits "constructorArguments" (IsArrayOf (IsObject ArgumentDecl.Form))

/-- A type has one of four kinds, and the form of its kind. -/
inductive TypeDecl.Form (members : Json.Members) : Prop where
  | enumeration (kind : members.get? "kind" = some (.text "enumeration"))
      (form : EnumerationDecl.Form members)
  | constrained (kind : members.get? "kind" = some (.text "constrainedPrimitive"))
      (form : ConstrainedDecl.Form members)
  | abstractClass (kind : members.get? "kind" = some (.text "abstractClass"))
      (keys : members.keys ⊆ ClassDecl.formKeys) (form : ClassDecl.Form members)
  | concreteClass (kind : members.get? "kind" = some (.text "concreteClass"))
      (keys : members.keys ⊆ ClassDecl.formKeys ++ ["implementationSpecific"])
      (form : ClassDecl.Form members)
      (handwritten : members.Permits "implementationSpecific" IsBoolean)

@[mk_iff]
structure Document.Form (members : Json.Members) : Prop where
  keys : members.keys ⊆ ["$schema", "name", "version", "description", "types"]
  schema : members.Permits "$schema" IsText
  name : members.Requires "name" IsIdentifier
  version : members.Permits "version" IsText
  description : members.Permits "description" IsText
  types : members.Requires "types" (IsArrayOf (IsObject TypeDecl.Form))

/-- A value that has the form of a document. -/
def Json.IsDocument (value : Json) : Prop := IsObject Document.Form value

/-! ## Checks decide forms -/

namespace Check

/-- The check has nothing to report, wherever the value stands, iff the value has the form `P`. -/
def Tests (check : Check) (P : Json → Prop) : Prop :=
  ∀ place value, check place value = [] ↔ P value

theorem Tests.placeless {check : Check} {P : Json → Prop} (h : Tests check P) : Placeless check :=
  fun place place' value hvalue => (h place' value).mpr ((h place value).mp hvalue)

theorem tests_text : Tests text IsText := by
  intro place value
  cases value with
  | text s => exact ⟨fun _ => .mk s, fun _ => rfl⟩
  | null | bool _ | number _ | array _ | object _ =>
    constructor <;> (intro h; cases h)

theorem tests_boolean : Tests boolean IsBoolean := by
  intro place value
  cases value with
  | bool b => exact ⟨fun _ => .mk b, fun _ => rfl⟩
  | null | text _ | number _ | array _ | object _ =>
    constructor <;> (intro h; cases h)

theorem tests_identifier : Tests identifier IsIdentifier := by
  intro place value
  cases value with
  | text s =>
    have hs : identifier place (.text s) = [] ↔ Name.isIdentifier s = true := by
      simp [identifier]
    rw [hs, Name.isIdentifier_iff]
    exact ⟨.mk, by rintro ⟨h⟩; exact h⟩
  | null | bool _ | number _ | array _ | object _ =>
    constructor <;> (intro h; cases h)

theorem tests_typeText : Tests typeText IsTypeText := by
  intro place value
  cases value with
  | text s =>
    have hs : typeText place (.text s) = [] ↔ s ≠ "" := by
      simp [typeText]
    rw [hs]
    exact ⟨.mk, by rintro ⟨h⟩; exact h⟩
  | null | bool _ | number _ | array _ | object _ =>
    constructor <;> (intro h; cases h)

theorem tests_constant : Tests constant IsConstant := by
  intro place value
  cases value with
  | null => exact ⟨fun _ => .null, fun _ => rfl⟩
  | bool b => exact ⟨fun _ => .bool b, fun _ => rfl⟩
  | text s => exact ⟨fun _ => .text s, fun _ => rfl⟩
  | number x =>
    have hx : constant place (.number x) = [] ↔ x.isFinite = true := by
      simp [constant]
    rw [hx]
    constructor
    · exact .number
    · intro h
      cases h with | number h => exact h
  | array _ | object _ => constructor <;> (intro h; cases h)

theorem tests_oneOf (allowed : List String) : Tests (oneOf allowed) (IsOneOf allowed) := by
  intro place value
  cases value with
  | text s =>
    have hs : oneOf allowed place (.text s) = [] ↔ s ∈ allowed := by
      simp [oneOf]
    rw [hs]
    exact ⟨.mk, by rintro ⟨h⟩; exact h⟩
  | null | bool _ | number _ | array _ | object _ =>
    constructor <;> (intro h; cases h)

theorem tests_anything : Tests anything fun _ => True := fun _ _ => iff_of_true rfl trivial

theorem tests_items {check : Check} {P : Json → Prop} (h : Tests check P) :
    Tests (items check) (IsArrayOf P) := by
  intro place value
  cases value with
  | array values =>
    rw [items, itemsFrom_eq_nil_iff h.placeless, forall₂_congr fun value _ => h "" value]
    exact ⟨.mk, by rintro ⟨h⟩; exact h⟩
  | null | bool _ | number _ | text _ | object _ =>
    constructor <;> (intro h; cases h)

/-- Checks of members ask for the given forms, key by key. -/
def Ask (checks : List (String × Check)) (forms : List (String × (Json → Prop))) : Prop :=
  List.Forall₂ (fun rule form => rule.1 = form.1 ∧ Tests rule.2 form.2) checks forms

section Ask

variable {checks : List (String × Check)} {forms : List (String × (Json → Prop))}

theorem Ask.keys_eq (h : Ask checks forms) : checks.map (·.1) = forms.map (·.1) := by
  rw [← List.forall₂_eq_eq_eq, List.forall₂_map_left_iff, List.forall₂_map_right_iff]
  exact h.imp fun _ _ hrule => hrule.1

theorem Ask.permits_iff (h : Ask checks forms) {place : String} {members : Json.Members} :
    (∀ rule ∈ checks, ∀ member, members.get? rule.1 = some member →
        rule.2 (place ++ "/" ++ rule.1) member = []) ↔
      ∀ form ∈ forms, members.Permits form.1 form.2 := by
  induction h with
  | nil => simp
  | @cons rule form checks forms hrule _ ih =>
    rw [List.forall_mem_cons, List.forall_mem_cons, ih, hrule.1]
    exact and_congr_left' (forall₂_congr fun member _ => hrule.2 _ member)

/-- An object has nothing to report iff its keys are as the rules say, and its members of the
forms that they ask for. -/
theorem record_object_iff {rules : Rules} (h : Ask rules.members forms) {place : String}
    {members : Json.Members} :
    record rules place (.object members) = [] ↔
      rules.required ⊆ members.keys ∧ members.keys ⊆ forms.map (·.1)
        ∧ ∀ form ∈ forms, members.Permits form.1 form.2 := by
  rw [record_eq_nil_iff, h.permits_iff, h.keys_eq]
  exact Iff.rfl

/-- The check of an object decides a form that says the same as its rules. -/
theorem tests_record {rules : Rules} {P : Json.Members → Prop} (h : Ask rules.members forms)
    (hform : ∀ members : Json.Members, P members ↔
      rules.required ⊆ members.keys ∧ members.keys ⊆ forms.map (·.1)
        ∧ ∀ form ∈ forms, members.Permits form.1 form.2) :
    Tests (record rules) (IsObject P) := by
  intro place value
  cases value with
  | object members =>
    rw [record_object_iff h, ← hform]
    exact ⟨.mk, by rintro ⟨h⟩; exact h⟩
  | null | bool _ | number _ | text _ | array _ => constructor <;> (intro h; cases h)

end Ask

end Check

/-! ## The format -/

open Check Document

/-! Each form is that of its rules: what is required is there, and what is there is permitted. -/

theorem LiteralDecl.tests : Tests (record literalRules) (IsObject Form) := by
  have hask : Ask literalRules.members
      [("name", IsIdentifier), ("value", IsText), ("description", IsText)] :=
    .cons ⟨rfl, tests_identifier⟩ (.cons ⟨rfl, tests_text⟩ (.cons ⟨rfl, tests_text⟩ .nil))
  refine tests_record hask fun members => ?_
  simp only [form_iff, Members.requires_iff, literalRules, List.cons_subset, List.nil_subset,
    List.forall_mem_cons, List.map_cons, List.map_nil]
  tauto

theorem PropertyDecl.tests : Tests (record propertyRules) (IsObject Form) := by
  have hask : Ask propertyRules.members
      [("name", IsIdentifier), ("type", IsTypeText), ("description", IsText)] :=
    .cons ⟨rfl, tests_identifier⟩ (.cons ⟨rfl, tests_typeText⟩ (.cons ⟨rfl, tests_text⟩ .nil))
  refine tests_record hask fun members => ?_
  simp only [form_iff, Members.requires_iff, propertyRules, List.cons_subset, List.nil_subset,
    List.forall_mem_cons, List.map_cons, List.map_nil]
  tauto

theorem ArgumentDecl.tests : Tests (record argumentRules) (IsObject Form) := by
  have hask : Ask argumentRules.members
      [("name", IsIdentifier), ("type", IsTypeText), ("default", IsConstant)] :=
    .cons ⟨rfl, tests_identifier⟩
      (.cons ⟨rfl, tests_typeText⟩ (.cons ⟨rfl, tests_constant⟩ .nil))
  refine tests_record hask fun members => ?_
  simp only [form_iff, Members.requires_iff, argumentRules, List.cons_subset, List.nil_subset,
    List.forall_mem_cons, List.map_cons, List.map_nil]
  tauto

namespace TypeDecl

/-- What the rules of every kind of type ask for first. The kind itself selects the rules, so they
say nothing more about it. -/
def headForms : List (String × (Json → Prop)) :=
  [("kind", fun _ => True), ("name", IsIdentifier), ("description", IsText)]

theorem ask_head {checks : List (String × Check)} {forms : List (String × (Json → Prop))}
    (h : Ask checks forms) :
    Ask ([("kind", anything), ("name", identifier), ("description", text)] ++ checks)
      (headForms ++ forms) :=
  .cons ⟨rfl, tests_anything⟩ (.cons ⟨rfl, tests_identifier⟩ (.cons ⟨rfl, tests_text⟩ h))

end TypeDecl

/-- What the rules of both kinds of classes ask for after that. -/
def ClassDecl.bodyForms : List (String × (Json → Prop)) :=
  [("inheritances", IsArrayOf IsIdentifier),
    ("properties", IsArrayOf (IsObject PropertyDecl.Form)),
    ("constructorArguments", IsArrayOf (IsObject ArgumentDecl.Form))]

theorem ClassDecl.ask_body {checks : List (String × Check)}
    {forms : List (String × (Json → Prop))} (h : Ask checks forms) :
    Ask (abstractClassRules.members ++ checks) (TypeDecl.headForms ++ bodyForms ++ forms) :=
  TypeDecl.ask_head (.cons ⟨rfl, tests_items tests_identifier⟩
    (.cons ⟨rfl, tests_items PropertyDecl.tests⟩ (.cons ⟨rfl, tests_items ArgumentDecl.tests⟩ h)))

section Types

variable {place : String} {members : Json.Members} (hkind : "kind" ∈ members.keys)

include hkind

theorem EnumerationDecl.record_iff :
    record enumerationRules place (.object members) = [] ↔ Form members := by
  have hask : Ask enumerationRules.members (TypeDecl.headForms
      ++ [("literals", IsArrayOf (IsObject LiteralDecl.Form))]) :=
    TypeDecl.ask_head (.cons ⟨rfl, tests_items LiteralDecl.tests⟩ .nil)
  rw [record_object_iff hask]
  simp only [form_iff, Members.requires_iff, enumerationRules, TypeDecl.headForms, List.cons_subset,
    List.nil_subset, List.cons_append, List.nil_append, List.forall_mem_cons, List.map_cons,
    List.map_nil]
  tauto

theorem ConstrainedDecl.record_iff :
    record constrainedRules place (.object members) = [] ↔ Form members := by
  have hask : Ask constrainedRules.members (TypeDecl.headForms
      ++ [("constrainee", IsOneOf ["bool", "int", "float", "str", "bytearray"])]) :=
    TypeDecl.ask_head (.cons ⟨rfl, tests_oneOf _⟩ .nil)
  rw [record_object_iff hask]
  simp only [form_iff, Members.requires_iff, constrainedRules, TypeDecl.headForms,
    List.cons_subset, List.nil_subset, List.cons_append, List.nil_append, List.forall_mem_cons,
    List.map_cons, List.map_nil]
  tauto

theorem ClassDecl.abstract_record_iff :
    record abstractClassRules place (.object members) = [] ↔
      members.keys ⊆ formKeys ∧ Form members := by
  have hask : Ask abstractClassRules.members (TypeDecl.headForms ++ bodyForms) := ask_body .nil
  rw [record_object_iff hask]
  simp only [form_iff, Members.requires_iff, abstractClassRules, TypeDecl.headForms, bodyForms,
    formKeys, List.cons_subset, List.nil_subset, List.cons_append, List.nil_append,
    List.forall_mem_cons, List.map_cons, List.map_nil]
  tauto

theorem ClassDecl.concrete_record_iff :
    record concreteClassRules place (.object members) = [] ↔
      members.keys ⊆ formKeys ++ ["implementationSpecific"] ∧ Form members
        ∧ members.Permits "implementationSpecific" IsBoolean := by
  have hask : Ask concreteClassRules.members (TypeDecl.headForms ++ bodyForms
      ++ [("implementationSpecific", IsBoolean)]) := ask_body (.cons ⟨rfl, tests_boolean⟩ .nil)
  rw [record_object_iff hask]
  simp only [form_iff, Members.requires_iff, concreteClassRules, TypeDecl.headForms, bodyForms,
    formKeys, List.cons_subset, List.nil_subset, List.cons_append, List.nil_append,
    List.forall_mem_cons, List.map_cons, List.map_nil]
  tauto

end Types

/-- A type has nothing to report iff its kind selects rules by which it has nothing to report. -/
theorem TypeDecl.typeCheck_iff {place : String} {members : Json.Members} :
    typeCheck place (.object members) = [] ↔
      ∃ entry ∈ kindRules, members.get? "kind" = some (.text entry.1)
        ∧ record entry.2 place (.object members) = [] := by
  rw [typeCheck, List.append_eq_nil_iff, List.append_eq_nil_iff]
  constructor
  · rintro ⟨-, htagged⟩
    rw [taggedCheck] at htagged
    split at htagged
    · next kind hkind =>
      split at htagged
      · next rules hrules =>
        obtain ⟨before, after, heq, -⟩ := List.lookup_eq_some_iff.mp hrules
        exact ⟨(kind, rules), heq ▸ List.mem_append_right _ List.mem_cons_self, hkind, htagged⟩
      · cases htagged
    · cases htagged
  · rintro ⟨entry, hentry, hkind, hrecord⟩
    have hlookup : kindRules.lookup entry.1 = some entry.2 := by
      simp only [kindRules, List.mem_cons, List.not_mem_nil, or_false] at hentry
      rcases hentry with rfl | rfl | rfl | rfl <;> rfl
    refine ⟨⟨?_, ?_⟩, ?_⟩
    · have hhas := Members.has_iff.mpr (Members.mem_keys_of_get? hkind)
      simp [missing, hhas]
    · rw [hkind]
      exact (tests_oneOf _ _ _).mpr (.mk (List.mem_map_of_mem hentry))
    · rw [taggedCheck, hkind]
      simpa only [hlookup] using hrecord

theorem TypeDecl.tests : Tests typeCheck (IsObject Form) := by
  intro place value
  cases value with
  | object members =>
    rw [typeCheck_iff]
    constructor
    · rintro ⟨entry, hentry, hkind, hrecord⟩
      have hkey := Members.mem_keys_of_get? hkind
      simp only [kindRules, List.mem_cons, List.not_mem_nil, or_false] at hentry
      rcases hentry with rfl | rfl | rfl | rfl
      · exact .mk (.enumeration hkind ((EnumerationDecl.record_iff hkey).mp hrecord))
      · exact .mk (.constrained hkind ((ConstrainedDecl.record_iff hkey).mp hrecord))
      · obtain ⟨hkeys, hform⟩ := (ClassDecl.abstract_record_iff hkey).mp hrecord
        exact .mk (.abstractClass hkind hkeys hform)
      · obtain ⟨hkeys, hform, hhand⟩ := (ClassDecl.concrete_record_iff hkey).mp hrecord
        exact .mk (.concreteClass hkind hkeys hform hhand)
    · rintro ⟨hform⟩
      cases hform with
      | enumeration hkind hform =>
        exact ⟨("enumeration", enumerationRules), by simp [kindRules], hkind,
          (EnumerationDecl.record_iff (Members.mem_keys_of_get? hkind)).mpr hform⟩
      | constrained hkind hform =>
        exact ⟨("constrainedPrimitive", constrainedRules), by simp [kindRules], hkind,
          (ConstrainedDecl.record_iff (Members.mem_keys_of_get? hkind)).mpr hform⟩
      | abstractClass hkind hkeys hform =>
        exact ⟨("abstractClass", abstractClassRules), by simp [kindRules], hkind,
          (ClassDecl.abstract_record_iff (Members.mem_keys_of_get? hkind)).mpr ⟨hkeys, hform⟩⟩
      | concreteClass hkind hkeys hform hhand =>
        exact ⟨("concreteClass", concreteClassRules), by simp [kindRules], hkind,
          (ClassDecl.concrete_record_iff (Members.mem_keys_of_get? hkind)).mpr
            ⟨hkeys, hform, hhand⟩⟩
  | null | bool _ | number _ | text _ | array _ => constructor <;> (intro h; cases h)

/-- **A value conforms iff it has the form of a document.** -/
theorem Document.conforms_iff {value : Json} : conforms value = true ↔ value.IsDocument := by
  have hask : Ask rules.members [("$schema", IsText), ("name", IsIdentifier), ("version", IsText),
      ("description", IsText), ("types", IsArrayOf (IsObject TypeDecl.Form))] :=
    .cons ⟨rfl, tests_text⟩ (.cons ⟨rfl, tests_identifier⟩ (.cons ⟨rfl, tests_text⟩
      (.cons ⟨rfl, tests_text⟩ (.cons ⟨rfl, tests_items TypeDecl.tests⟩ .nil))))
  have htests : Tests (record rules) (IsObject Form) := by
    refine tests_record hask fun members => ?_
    simp only [form_iff, Members.requires_iff, rules, List.cons_subset, List.nil_subset,
      List.forall_mem_cons, List.map_cons, List.map_nil]
    tauto
  rw [conforms, List.isEmpty_iff]
  exact htests "" value

/-! ## Names of a document -/

/-- The names that a declaration mentions. -/
def TypeDecl.names : TypeDecl → List String
  | .enumeration d => d.name :: d.literals.map (·.name)
  | .constrained d => [d.name]
  | .classType d =>
    d.name :: (d.parents ++ d.properties.map (·.name)
      ++ (d.arguments.getD []).map (·.name))

/-- All names of a document. -/
def Document.names (d : Document) : List String := d.name :: d.types.flatMap TypeDecl.names

theorem TypeDecl.Identified.forall_names {d : TypeDecl} (h : d.Identified) :
    ∀ name ∈ d.names, Name.isIdentifier name = true := by
  cases d with
  | enumeration d =>
    exact List.forall_mem_cons.mpr ⟨h.1, List.forall_mem_map.mpr h.2⟩
  | constrained d => exact List.forall_mem_singleton.mpr h
  | classType d =>
    have harguments : ∀ a ∈ d.arguments.getD [], Name.isIdentifier a.name = true := by
      cases hargs : d.arguments with
      | none => simp
      | some as => exact h.arguments as hargs
    refine List.forall_mem_cons.mpr ⟨h.name, List.forall_mem_append.mpr
      ⟨List.forall_mem_append.mpr ⟨h.parents, List.forall_mem_map.mpr h.properties⟩,
        List.forall_mem_map.mpr harguments⟩⟩

theorem Document.Identified.forall_names {d : Document} (h : d.Identified) :
    ∀ name ∈ d.names, Name.Matches name := by
  intro name hname
  refine Name.isIdentifier_iff.mp ?_
  rcases List.mem_cons.mp hname with rfl | hname
  · exact h.1
  · obtain ⟨t, ht, hname⟩ := List.mem_flatMap.mp hname
    exact (h.2 t ht).forall_names name hname

/-! ## Two ways to fail -/

theorem Problem.code_ne (p : Problem) : p.diagnostic.code ≠ .modelSchemaViolation := by
  cases p <;> exact nofun

theorem Diagnostic.distinct_ne_nil {ds : List Diagnostic} (h : ds ≠ []) : distinct ds ≠ [] := by
  obtain ⟨d, rest, rfl⟩ := List.exists_cons_of_ne_nil h
  obtain ⟨kept, hkept, -⟩ := exists_mem_distinctBy line (List.mem_cons_self (a := d) (l := rest))
  exact List.ne_nil_of_mem hkept

namespace Model

variable {value : Json}

/-- A value without the form of a document fails with violations and nothing else. -/
theorem load_of_not_isDocument (key : String) (h : ¬value.IsDocument) :
    ∃ ds, load key value = .error ds ∧ ds ≠ [] ∧ (∀ d ∈ ds, d.code = .modelSchemaViolation)
      ∧ (ds.map Diagnostic.line).Nodup := by
  rw [← Document.conforms_iff, Document.conforms] at h
  refine ⟨Diagnostic.distinct ((Document.violations value).map Violation.diagnostic),
    by rw [load, if_neg h], ?_, ?_, keys_distinctBy_nodup _ _⟩
  · refine Diagnostic.distinct_ne_nil ?_
    simpa using h
  · intro d hd
    obtain ⟨v, -, rfl⟩ := List.mem_map.mp ((distinctBy_sublist _ _).subset hd)
    rfl

/-- A value with that form never fails with a violation. -/
theorem errors_of_isDocument {key : String} (h : value.IsDocument) {ds : List Diagnostic}
    (hload : load key value = .error ds) :
    ds ≠ [] ∧ ∀ d ∈ ds, d.code ≠ .modelSchemaViolation := by
  have hconforms := Document.conforms_iff.mpr h
  obtain ⟨document, hd, -⟩ := Document.decode?_of_conforms hconforms
  rw [load_of_decode? key hconforms hd, Document.resolve] at hload
  split at hload
  · cases hload
  · next hproblems =>
    cases hload
    refine ⟨Diagnostic.distinct_ne_nil (by simpa using hproblems), fun d hd => ?_⟩
    obtain ⟨p, -, rfl⟩ := List.mem_map.mp ((distinctBy_sublist _ _).subset hd)
    exact p.code_ne

end Model

theorem compileOrFail_eq_error_iff {value : Json} {o : Options} {f : Failure} :
    compileOrFail value o = .error f ↔
      ∃ ds, Model.load o.discriminatorKey value = .error ds ∧ modelFailure ds = f := by
  rw [compileOrFail, compile]
  cases Model.load o.discriminatorKey value with
  | ok table => exact iff_of_false (nomatch ·) fun ⟨_, h, _⟩ => nomatch h
  | error ds => simp [Except.mapError]

theorem code_modelFailure_of_forall {ds : List Diagnostic}
    (h : ∀ d ∈ ds, d.code = .modelSchemaViolation) :
    (modelFailure ds).code = .invalidModelStructure := by
  have hall : (ds.all fun d => d.code == .modelSchemaViolation) = true := by simpa using h
  rw [modelFailure, hall]
  rfl

theorem code_modelFailure_of_ne {ds : List Diagnostic} (hne : ds ≠ [])
    (h : ∀ d ∈ ds, d.code ≠ .modelSchemaViolation) :
    (modelFailure ds).code = .modelResolutionFailed := by
  obtain ⟨d, rest, rfl⟩ := List.exists_cons_of_ne_nil hne
  have hall : ((d :: rest).all fun d => d.code == .modelSchemaViolation) = false := by
    have hd := h d List.mem_cons_self
    simp [hd]
  rw [modelFailure, hall]
  rfl

/-- **Structural and semantic failures are never mixed.** A value that does not have the form of a
document fails with violations only, each line once. A value that has it is a document whose names
match the pattern, and it has a table or problems, but no violation. So the failure of a value
tells which of the two it is. -/
theorem Model.failures_apart (key : String) (value : Json) :
    (¬value.IsDocument → ∃ ds, load key value = .error ds ∧ ds ≠ []
      ∧ (∀ d ∈ ds, d.code = .modelSchemaViolation) ∧ (ds.map Diagnostic.line).Nodup)
    ∧ (value.IsDocument →
      (∃ document, Document.decode? value = some document
        ∧ ∀ name ∈ document.names, Name.Matches name)
      ∧ ((∃ table, load key value = .ok table) ∨ ∃ ds, load key value = .error ds ∧ ds ≠ []
        ∧ ∀ d ∈ ds, d.code ≠ .modelSchemaViolation))
    ∧ ∀ o : Options, o.discriminatorKey = key →
      ((∃ f, compileOrFail value o = .error f ∧ f.code.text = "E010" ∧ f.exitStatus = 20)
        ↔ ¬value.IsDocument)
      ∧ ((∃ f, compileOrFail value o = .error f ∧ f.code.text = "E011" ∧ f.exitStatus = 21)
        ↔ value.IsDocument ∧ ∀ table, load key value ≠ .ok table) := by
  refine ⟨load_of_not_isDocument key, fun h => ⟨?_, ?_⟩, ?_⟩
  · obtain ⟨document, hd, hid⟩ := Document.decode?_of_conforms (Document.conforms_iff.mpr h)
    exact ⟨document, hd, hid.forall_names⟩
  · cases hload : load key value with
    | ok table => exact .inl ⟨table, rfl⟩
    | error ds => exact .inr ⟨ds, rfl, errors_of_isDocument h hload⟩
  · rintro o rfl
    by_cases h : value.IsDocument
    · cases hload : load o.discriminatorKey value with
      | ok table => simp [compileOrFail_eq_error_iff, hload, h]
      | error ds =>
        obtain ⟨hne, hcodes⟩ := errors_of_isDocument h hload
        have hcode := code_modelFailure_of_ne hne hcodes
        simp [compileOrFail_eq_error_iff, hload, h, Failure.exitStatus, hcode,
          ErrorCode.exitStatus, ErrorCode.text]
    · obtain ⟨ds, hload, -, hcodes, -⟩ := load_of_not_isDocument o.discriminatorKey h
      have hcode := code_modelFailure_of_forall hcodes
      simp [compileOrFail_eq_error_iff, hload, h, Failure.exitStatus, hcode,
        ErrorCode.exitStatus, ErrorCode.text]

/-- The types are not an array, there is a member too many, and the name has no letter at first. -/
def torn : Json :=
  .object [("name", .text "2nd"), ("types", .object []), ("colour", .null)]

/-- The form of a document, with a parent that is not declared. -/
def orphan : Json :=
  .object [("name", .text "orphan"), ("types", .array [
    .object [("kind", .text "concreteClass"), ("name", .text "child"),
      ("inheritances", Json.texts ["parent"])]])]

/-- One value of each sort, and the failures that they end with. -/
theorem torn_orphan_apart :
    (¬torn.IsDocument ∧ ∃ f, compileOrFail torn {} = .error f ∧ f.code.text = "E010"
      ∧ f.exitStatus = 20)
    ∧ orphan.IsDocument ∧ ∃ f, compileOrFail orphan {} = .error f ∧ f.code.text = "E011"
      ∧ f.exitStatus = 21 := by
  have htorn : ¬torn.IsDocument := by
    rw [← Document.conforms_iff]
    decide +kernel
  have horphan : orphan.IsDocument := Document.conforms_iff.mp (by decide +kernel)
  have hloads : (Model.load "modelType" orphan).toOption.isSome = false := by decide +kernel
  have hnone : ∀ table, Model.load "modelType" orphan ≠ .ok table := by
    intro table hload
    rw [hload] at hloads
    cases hloads
  obtain ⟨-, -, hfails⟩ := Model.failures_apart "modelType" torn
  obtain ⟨-, -, hfails'⟩ := Model.failures_apart "modelType" orphan
  exact ⟨⟨htorn, (hfails {} rfl).1.mpr htorn⟩, horphan, (hfails' {} rfl).2.mpr ⟨horphan, hnone⟩⟩

end WireModel
