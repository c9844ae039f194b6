import Mathlib.Data.List.Basic
import WireModel.Document.Conformance
import WireModel.Document.Decode

/-!
# Conforming values decode

A check and a reader go through the same value for different reasons: the check lists what is
wrong, the reader takes what it needs and gives up on anything else. `Check.Reads check read P`
ties the two together: a value without violations is read, and what is read satisfies `P`. It
holds of every check of the document format with its reader, and is put together from the inside
out, so the main statement is about whole documents:

* **`Document.decode?_of_conforms`**: a conforming value is a document, and every name of that
  document is an identifier.
-/

namespace WireModel

/-! ## Names of a document -/

/-- The names of an enumeration are identifiers. -/
def EnumerationDecl.Identified (d : EnumerationDecl) : Prop :=
  Name.isIdentifier d.name = true ∧ ∀ l ∈ d.literals, Name.isIdentifier l.name = true

/-- The names of a class are identifiers, also those of its parents and arguments. -/
structure ClassDecl.Identified (d : ClassDecl) : Prop where
  name : Name.isIdentifier d.name = true
  parents : ∀ p ∈ d.parents, Name.isIdentifier p = true
  properties : ∀ p ∈ d.properties, Name.isIdentifier p.name = true
  arguments : ∀ as ∈ d.arguments, ∀ a ∈ as, Name.isIdentifier a.name = true

def TypeDecl.Identified : TypeDecl → Prop
  | .enumeration d => d.Identified
  | .constrained d => Name.isIdentifier d.name = true
  | .classType d => d.Identified

/-- All names of a document are identifiers. -/
def Document.Identified (d : Document) : Prop :=
  Name.isIdentifier d.name = true ∧ ∀ t ∈ d.types, t.Identified

theorem TypeDecl.Identified.name {d : TypeDecl} (h : d.Identified) :
    Name.isIdentifier d.name = true := by
  cases d with
  | enumeration d => exact h.1
  | constrained d => exact h
  | classType d => exact ClassDecl.Identified.name h

/-! ## Checks and readers -/

namespace Check

/-- A value in which `check` finds no violation is read, as something with the property `P`. -/
def Reads {α : Type} (check : Check) (read : Json → Option α) (P : α → Prop) : Prop :=
  ∀ place value, check place value = [] → ∃ a, read value = some a ∧ P a

theorem reads_text : Reads text Decode.text? fun _ => True := by
  intro place value h
  cases value with
  | text s => exact ⟨s, rfl, trivial⟩
  | null | bool _ | number _ | array _ | object _ => simp [text] at h

theorem reads_boolean : Reads boolean Decode.bool? fun _ => True := by
  intro place value h
  cases value with
  | bool b => exact ⟨b, rfl, trivial⟩
  | null | text _ | number _ | array _ | object _ => simp [boolean] at h

theorem reads_identifier : Reads identifier Decode.text? (Name.isIdentifier · = true) := by
  intro place value h
  cases value with
  | text s => exact ⟨s, rfl, by simpa [identifier] using h⟩
  | null | bool _ | number _ | array _ | object _ => simp [identifier] at h

theorem reads_typeText : Reads typeText Decode.text? fun _ => True := by
  intro place value h
  cases value with
  | text s => exact ⟨s, rfl, trivial⟩
  | null | bool _ | number _ | array _ | object _ => simp [typeText] at h

theorem reads_constant : Reads constant Decode.constant? fun _ => True := by
  intro place value h
  cases value with
  | null => exact ⟨.null, rfl, trivial⟩
  | bool b => exact ⟨.bool b, rfl, trivial⟩
  | number x => exact ⟨.number x, rfl, trivial⟩
  | text s => exact ⟨.text s, rfl, trivial⟩
  | array _ | object _ => simp [constant] at h

/-- The names of the primitives are those that a constrained type may have. -/
theorem reads_primitive :
    Reads (oneOf ["bool", "int", "float", "str", "bytearray"])
      (fun value => (Decode.text? value).bind Primitive.ofName?) fun _ => True := by
  intro place value h
  cases value with
  | text s =>
    have hs : s ∈ ["bool", "int", "float", "str", "bytearray"] := by
      rw [oneOf] at h
      split at h
      · next hs => exact List.contains_iff_mem.mp hs
      · cases h
    simp only [List.mem_cons, List.not_mem_nil, or_false] at hs
    rcases hs with rfl | rfl | rfl | rfl | rfl
    · exact ⟨.bool, rfl, trivial⟩
    · exact ⟨.int, rfl, trivial⟩
    · exact ⟨.float, rfl, trivial⟩
    · exact ⟨.str, rfl, trivial⟩
    · exact ⟨.bytearray, rfl, trivial⟩
  | null | bool _ | number _ | array _ | object _ => simp [oneOf] at h

/-! ### Arrays -/

theorem mapM_of_itemsFrom {α : Type} {check : Check} {read : Json → Option α} {P : α → Prop}
    (hr : Reads check read P) {place : String} {index : Nat} {values : List Json}
    (h : itemsFrom check place index values = []) :
    ∃ as, values.mapM read = some as ∧ ∀ a ∈ as, P a := by
  induction values generalizing index with
  | nil => exact ⟨[], rfl, by simp⟩
  | cons value rest ih =>
    rw [itemsFrom, List.append_eq_nil_iff] at h
    obtain ⟨a, ha, hPa⟩ := hr _ value h.1
    obtain ⟨as, has, hPas⟩ := ih h.2
    refine ⟨a :: as, ?_, ?_⟩
    · simp [List.mapM_cons, ha, has]
    · simpa using ⟨hPa, hPas⟩

theorem reads_items {α : Type} {check : Check} {read : Json → Option α} {P : α → Prop}
    (hr : Reads check read P) : Reads (items check) (Decode.list read) (∀ a ∈ ·, P a) := by
  intro place value h
  cases value with
  | array values =>
    obtain ⟨as, has, hPas⟩ := mapM_of_itemsFrom hr h
    exact ⟨as, has, hPas⟩
  | null | bool _ | number _ | text _ | object _ => simp [items] at h

/-! ### Objects -/

theorem isSome_get?_of_has {members : Json.Members} {key : String} (h : members.has key = true) :
    ∃ value, Json.Members.get? members key = some value := by
  induction members with
  | nil => simp [Json.Members.has] at h
  | cons m rest ih =>
    obtain ⟨k, v⟩ := m
    by_cases hk : key = k
    · subst hk
      exact ⟨v, by simp [Json.Members.get?]⟩
    · have hk' : (key == k) = false := by simpa using hk
      have hrest : Json.Members.has rest key = true := by
        simpa [Json.Members.has, Ne.symm hk] using h
      simpa [Json.Members.get?, List.lookup_cons, hk'] using ih hrest

/-- What the check of an object says about its members. -/
theorem record_eq_nil {rules : Rules} {place : String} {value : Json}
    (h : record rules place value = []) :
    (∀ key ∈ rules.required, ∃ member, value.get? key = some member)
      ∧ ∀ rule ∈ rules.members, ∀ member, value.get? rule.1 = some member →
        rule.2 (place ++ "/" ++ rule.1) member = [] := by
  cases value with
  | object members =>
    rw [record, List.append_eq_nil_iff, List.append_eq_nil_iff] at h
    obtain ⟨⟨hmissing, -⟩, hinside⟩ := h
    refine ⟨fun key hkey => ?_, fun rule hrule member hmember => ?_⟩
    · -- a required member that is not there is a violation
      refine isSome_get?_of_has ?_
      by_contra hnot
      simp only [missing, List.map_eq_nil_iff, List.filter_eq_nil_iff] at hmissing
      exact hmissing key hkey (by simpa using hnot)
    · rw [inside, List.flatMap_eq_nil_iff] at hinside
      have hmember : Json.Members.get? members rule.1 = some member := hmember
      simpa only [hmember] using hinside rule hrule
  | null | bool _ | number _ | text _ | array _ => simp [record] at h

section Record

variable {α : Type} {rules : Rules} {place : String} {value : Json} {key : String}
  {check : Check} {read : Json → Option α} {P : α → Prop}

/-- A required member of an object without violations is read. -/
theorem field_of_record (h : record rules place value = []) (hr : Reads check read P)
    (hkey : key ∈ rules.required) (hrule : (key, check) ∈ rules.members) :
    ∃ a, Decode.field read value key = some a ∧ P a := by
  obtain ⟨hrequired, hmembers⟩ := record_eq_nil h
  obtain ⟨member, hmember⟩ := hrequired key hkey
  obtain ⟨a, ha, hPa⟩ := hr _ member (hmembers _ hrule member hmember)
  exact ⟨a, by rw [Decode.field, hmember]; exact ha, hPa⟩

/-- Another member of an object without violations is read if it is there. -/
theorem optionalField_of_record (h : record rules place value = []) (hr : Reads check read P)
    (hrule : (key, check) ∈ rules.members) :
    ∃ a, Decode.optionalField read value key = some a ∧ ∀ b ∈ a, P b := by
  obtain ⟨-, hmembers⟩ := record_eq_nil h
  cases hmember : value.get? key with
  | none => exact ⟨none, by simp [Decode.optionalField, hmember], by simp⟩
  | some member =>
    obtain ⟨a, ha, hPa⟩ := hr _ member (hmembers _ hrule member hmember)
    exact ⟨some a, by simp [Decode.optionalField, hmember, ha], by simpa using hPa⟩

end Record

end Check

/-! ## Documents -/

open Check Document

theorem LiteralDecl.reads :
    Reads (record literalRules) decode? (Name.isIdentifier ·.name = true) := by
  intro place value h
  obtain ⟨name, hname, hid⟩ := field_of_record h reads_identifier (by decide) (.head _)
  obtain ⟨wire, hwire, -⟩ := field_of_record h reads_text (by decide) (.tail _ (.head _))
  obtain ⟨prose, hprose, -⟩ :=
    optionalField_of_record h reads_text (.tail _ (.tail _ (.head _)))
  exact ⟨⟨name, wire, prose⟩, by simp [decode?, hname, hwire, hprose], hid⟩

theorem PropertyDecl.reads :
    Reads (record propertyRules) decode? (Name.isIdentifier ·.name = true) := by
  intro place value h
  obtain ⟨name, hname, hid⟩ := field_of_record h reads_identifier (by decide) (.head _)
  obtain ⟨type, htype, -⟩ := field_of_record h reads_typeText (by decide) (.tail _ (.head _))
  obtain ⟨prose, hprose, -⟩ :=
    optionalField_of_record h reads_text (.tail _ (.tail _ (.head _)))
  exact ⟨⟨name, type, prose⟩, by simp [decode?, hname, htype, hprose], hid⟩

theorem ArgumentDecl.reads :
    Reads (record argumentRules) decode? (Name.isIdentifier ·.name = true) := by
  intro place value h
  obtain ⟨name, hname, hid⟩ := field_of_record h reads_identifier (by decide) (.head _)
  obtain ⟨type, htype, -⟩ := field_of_record h reads_typeText (by decide) (.tail _ (.head _))
  obtain ⟨constant, hconstant, -⟩ :=
    optionalField_of_record h reads_constant (.tail _ (.tail _ (.head _)))
  exact ⟨⟨name, type, constant⟩, by simp [decode?, hname, htype, hconstant], hid⟩

theorem EnumerationDecl.reads :
    Reads (record enumerationRules) decode? EnumerationDecl.Identified := by
  intro place value h
  obtain ⟨name, hname, hid⟩ :=
    field_of_record h reads_identifier (by decide) (.tail _ (.head _))
  obtain ⟨prose, hprose, -⟩ :=
    optionalField_of_record h reads_text (.tail _ (.tail _ (.head _)))
  obtain ⟨literals, hliterals, hids⟩ := field_of_record h (reads_items LiteralDecl.reads)
    (by decide) (.tail _ (.tail _ (.tail _ (.head _))))
  exact ⟨⟨name, prose, literals⟩, by simp [decode?, hname, hprose, hliterals], hid, hids⟩

theorem ConstrainedDecl.reads :
    Reads (record constrainedRules) decode? (Name.isIdentifier ·.name = true) := by
  intro place value h
  obtain ⟨name, hname, hid⟩ :=
    field_of_record h reads_identifier (by decide) (.tail _ (.head _))
  obtain ⟨prose, hprose, -⟩ :=
    optionalField_of_record h reads_text (.tail _ (.tail _ (.head _)))
  obtain ⟨kind, hkind, -⟩ := field_of_record h reads_primitive (by decide)
    (.tail _ (.tail _ (.tail _ (.head _))))
  -- the reader takes the text first and the primitive from it afterwards
  have hkind : (Decode.field Decode.text? value "constrainee").bind Primitive.ofName?
      = some kind := by
    rw [Decode.field, Option.bind_assoc]
    exact hkind
  exact ⟨⟨name, prose, kind⟩, by simp [decode?, hname, hprose, hkind], hid⟩

/-- Both kinds of classes share the members that `ClassDecl.decode?` reads. -/
theorem ClassDecl.decode?_of_record {rules : Rules} {place : String} {value : Json}
    (hrequired : "name" ∈ rules.required)
    (hmembers : ∀ rule ∈ abstractClassRules.members, rule ∈ rules.members)
    (h : record rules place value = []) (kind : ClassKind) :
    ∃ d, decode? kind value = some d ∧ d.Identified := by
  obtain ⟨name, hname, hid⟩ :=
    field_of_record h reads_identifier hrequired (hmembers _ (.tail _ (.head _)))
  obtain ⟨prose, hprose, -⟩ :=
    optionalField_of_record h reads_text (hmembers _ (.tail _ (.tail _ (.head _))))
  obtain ⟨parents, hparents, hparent⟩ := optionalField_of_record h
    (reads_items reads_identifier) (hmembers _ (.tail _ (.tail _ (.tail _ (.head _)))))
  obtain ⟨properties, hproperties, hproperty⟩ := optionalField_of_record h
    (reads_items PropertyDecl.reads)
    (hmembers _ (.tail _ (.tail _ (.tail _ (.tail _ (.head _))))))
  obtain ⟨arguments, harguments, hargument⟩ := optionalField_of_record h
    (reads_items ArgumentDecl.reads)
    (hmembers _ (.tail _ (.tail _ (.tail _ (.tail _ (.tail _ (.head _)))))))
  refine ⟨⟨name, kind, prose, parents.getD [], properties.getD [], arguments⟩,
    by simp [decode?, hname, hprose, hparents, hproperties, harguments], hid, ?_, ?_, hargument⟩
  · cases parents with
    | none => simp
    | some ps => exact hparent ps rfl
  · cases properties with
    | none => simp
    | some ps => exact hproperty ps rfl

/-- The rules that the tag of a type selects are those of the kind that the reader sees. -/
theorem TypeDecl.reads : Reads typeCheck decode? TypeDecl.Identified := by
  intro place value h
  cases value with
  | object members =>
    rw [typeCheck, List.append_eq_nil_iff] at h
    obtain ⟨-, htagged⟩ := h
    rw [taggedCheck] at htagged
    split at htagged
    · next kind hkind =>
      have hfield : Decode.field Decode.text? (.object members) "kind" = some kind := by
        have hget : Json.get? (.object members) "kind" = some (.text kind) := hkind
        rw [Decode.field, hget]
        rfl
      split at htagged
      · next rules hrules =>
        -- one kind after the other, in the order of the table
        simp only [kindRules, List.lookup_cons, List.lookup_nil] at hrules
        split at hrules
        · next hk =>
          obtain rfl := eq_of_beq hk
          obtain rfl := Option.some.inj hrules
          obtain ⟨d, hd, hid⟩ := EnumerationDecl.reads place _ htagged
          exact ⟨.enumeration d, by simp [decode?, hfield, hd], hid⟩
        split at hrules
        · next hk =>
          obtain rfl := eq_of_beq hk
          obtain rfl := Option.some.inj hrules
          obtain ⟨d, hd, hid⟩ := ConstrainedDecl.reads place _ htagged
          exact ⟨.constrained d, by simp [decode?, hfield, hd], hid⟩
        split at hrules
        · next hk =>
          obtain rfl := eq_of_beq hk
          obtain rfl := Option.some.inj hrules
          obtain ⟨d, hd, hid⟩ :=
            ClassDecl.decode?_of_record (by decide) (fun _ h => h) htagged .abstract
          exact ⟨.classType d, by simp [decode?, hfield, hd], hid⟩
        split at hrules
        · next hk =>
          obtain rfl := eq_of_beq hk
          obtain rfl := Option.some.inj hrules
          obtain ⟨handwritten, hhand, -⟩ := optionalField_of_record htagged reads_boolean
            (List.mem_append_right abstractClassRules.members (List.mem_singleton.mpr rfl))
          obtain ⟨d, hd, hid⟩ := ClassDecl.decode?_of_record (by decide)
            (fun _ h => List.mem_append_left _ h) htagged (.concrete (handwritten.getD false))
          exact ⟨.classType d, by simp [decode?, hfield, hhand, hd], hid⟩
        · cases hrules
      · cases htagged
    · cases htagged
  | null | bool _ | number _ | text _ | array _ => simp [typeCheck] at h

/-- **A conforming value is a document**, and every name of the document is an identifier. -/
theorem Document.decode?_of_conforms {value : Json} (h : conforms value = true) :
    ∃ d, decode? value = some d ∧ d.Identified := by
  have h : record rules "" value = [] := List.isEmpty_iff.mp h
  obtain ⟨name, hname, hid⟩ :=
    field_of_record h reads_identifier (by decide) (.tail _ (.head _))
  obtain ⟨version, hversion, -⟩ :=
    optionalField_of_record h reads_text (.tail _ (.tail _ (.head _)))
  obtain ⟨prose, hprose, -⟩ :=
    optionalField_of_record h reads_text (.tail _ (.tail _ (.tail _ (.head _))))
  obtain ⟨types, htypes, hids⟩ := field_of_record h (reads_items TypeDecl.reads) (by decide)
    (.tail _ (.tail _ (.tail _ (.tail _ (.head _)))))
  exact ⟨⟨name, version, prose, types⟩, by simp [decode?, hname, hversion, hprose, htypes],
    hid, hids⟩

end WireModel
