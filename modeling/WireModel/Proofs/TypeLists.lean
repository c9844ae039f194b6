import Mathlib.Data.List.Forall2
import Mathlib.Data.List.Perm.Basic
import WireModel.Proofs.Decoding
import WireModel.Proofs.Members

/-!
# Values with other types

The types of a document are one member of a value, an array. Two values that differ in nothing but
the items of that array are related by assigning the array of one to the other, and this module
says what the assignment does to the form of a value and to its document.

* A check reports where a violation is, but whether there is one does not depend on the place
  (`Check.Placeless`). So the items of an array may change their places:
  **`Document.conforms_set_types`**.
* Decoding reads the array item by item, and every other member as before:
  **`Document.decode?_set_types`**.
-/

namespace WireModel

/-! ## Reading item by item -/

section Read

variable {α β : Type} {f : α → Option β} {items items' : List α} {results : List β}

theorem mapM_eq_some_iff :
    items.mapM f = some results ↔ List.Forall₂ (fun a b => f a = some b) items results := by
  induction items generalizing results with
  | nil =>
    rw [List.forall₂_nil_left_iff, List.mapM_nil]
    exact Option.some_inj.trans eq_comm
  | cons a items ih =>
    rw [List.forall₂_cons_left_iff, List.mapM_cons]
    simp only [Option.bind_eq_bind, Option.bind_eq_some_iff, Option.pure_def, Option.some.injEq,
      ih, ← exists_and_left, eq_comm (b := results)]

/-- In another order the same is read, in that order. -/
theorem exists_perm_of_mapM (hperm : items.Perm items') (h : items.mapM f = some results) :
    ∃ results', items'.mapM f = some results' ∧ results.Perm results' := by
  obtain ⟨results', hread, hresults⟩ :=
    List.perm_comp_forall₂ hperm.symm (mapM_eq_some_iff.mp h)
  exact ⟨results', mapM_eq_some_iff.mpr hread, hresults.symm⟩

end Read

/-! ## Checks and places -/

namespace Check

/-- Whether a value has violations does not depend on where it stands. -/
def Placeless (check : Check) : Prop :=
  ∀ place place' value, check place value = [] → check place' value = []

theorem placeless_text : Placeless text := by
  intro place place' value h
  cases value with
  | text s => rfl
  | null | bool _ | number _ | array _ | object _ => simp [text] at h

theorem placeless_boolean : Placeless boolean := by
  intro place place' value h
  cases value with
  | bool b => rfl
  | null | text _ | number _ | array _ | object _ => simp [boolean] at h

theorem placeless_identifier : Placeless identifier := by
  intro place place' value h
  cases value with
  | text s => simpa [identifier] using h
  | null | bool _ | number _ | array _ | object _ => simp [identifier] at h

theorem placeless_typeText : Placeless typeText := by
  intro place place' value h
  cases value with
  | text s => simpa [typeText] using h
  | null | bool _ | number _ | array _ | object _ => simp [typeText] at h

theorem placeless_constant : Placeless constant := by
  intro place place' value h
  cases value with
  | null | bool _ | text _ => rfl
  | number x => simpa [constant] using h
  | array _ | object _ => simp [constant] at h

theorem placeless_oneOf (allowed : List String) : Placeless (oneOf allowed) := by
  intro place place' value h
  cases value with
  | text s =>
    simp only [oneOf] at h ⊢
    split at h
    · next hs => rw [if_pos hs]
    · cases h
  | null | bool _ | number _ | array _ | object _ => simp [oneOf] at h

theorem placeless_anything : Placeless anything := fun _ _ _ _ => rfl

/-- An array has no violations iff none of its items has any, wherever they stand. -/
theorem itemsFrom_eq_nil_iff {check : Check} (hcheck : Placeless check) {place : String}
    {index : Nat} {values : List Json} :
    itemsFrom check place index values = [] ↔ ∀ value ∈ values, check "" value = [] := by
  induction values generalizing index with
  | nil => simp [itemsFrom]
  | cons value rest ih =>
    rw [itemsFrom, List.append_eq_nil_iff, ih, List.forall_mem_cons]
    exact and_congr_left' ⟨hcheck _ _ value, hcheck _ _ value⟩

theorem placeless_items {check : Check} (hcheck : Placeless check) : Placeless (items check) := by
  intro place place' value h
  cases value with
  | array values =>
    rw [items, itemsFrom_eq_nil_iff hcheck] at h ⊢
    exact h
  | null | bool _ | number _ | text _ | object _ => simp [items] at h

/-- An object has no violations iff its required members are there, all its members are allowed,
and none of them has violations. -/
theorem record_eq_nil_iff {rules : Rules} {place : String} {members : Json.Members} :
    record rules place (.object members) = [] ↔
      (∀ key ∈ rules.required, key ∈ members.keys)
      ∧ (∀ key ∈ members.keys, key ∈ rules.members.map (·.1))
      ∧ ∀ rule ∈ rules.members, ∀ member, members.get? rule.1 = some member →
        rule.2 (place ++ "/" ++ rule.1) member = [] := by
  rw [record, List.append_eq_nil_iff, List.append_eq_nil_iff, and_assoc]
  refine and_congr ?_ (and_congr ?_ ?_)
  · rw [missing, List.map_eq_nil_iff, List.filter_eq_nil_iff]
    simp only [Bool.not_eq_true', Bool.not_eq_false, Json.Members.has_iff]
  · rw [additional, List.map_eq_nil_iff, List.filter_eq_nil_iff]
    rw [Json.Members.keys, List.forall_mem_map]
    simp only [Bool.not_eq_true', Bool.not_eq_false, List.any_eq_true, beq_iff_eq, List.mem_map]
  · rw [inside, List.flatMap_eq_nil_iff]
    refine forall₂_congr fun rule _ => ?_
    cases members.get? rule.1 with
    | none => simp
    | some member => simp

theorem placeless_record {rules : Rules} (hrules : ∀ rule ∈ rules.members, Placeless rule.2) :
    Placeless (record rules) := by
  intro place place' value h
  cases value with
  | object members =>
    obtain ⟨hrequired, hallowed, hmembers⟩ := record_eq_nil_iff.mp h
    exact record_eq_nil_iff.mpr ⟨hrequired, hallowed, fun rule hrule member hmember =>
      hrules rule hrule _ _ _ (hmembers rule hrule member hmember)⟩
  | null | bool _ | number _ | text _ | array _ => simp [record] at h

end Check

open Check

namespace Document

theorem placeless_kindRules : ∀ entry ∈ kindRules, Placeless (record entry.2) := by
  have hliterals : Placeless (items (record literalRules)) :=
    placeless_items (placeless_record (by
      simp [literalRules, placeless_identifier, placeless_text]))
  have hproperties : Placeless (items (record propertyRules)) :=
    placeless_items (placeless_record (by
      simp [propertyRules, placeless_identifier, placeless_typeText, placeless_text]))
  have harguments : Placeless (items (record argumentRules)) :=
    placeless_items (placeless_record (by
      simp [argumentRules, placeless_identifier, placeless_typeText, placeless_constant]))
  have hparents := placeless_items placeless_identifier
  simp only [kindRules, List.forall_mem_cons, List.not_mem_nil, false_implies, implies_true,
    and_true]
  refine ⟨placeless_record ?_, placeless_record ?_, placeless_record ?_, placeless_record ?_⟩
  · simp [enumerationRules, placeless_anything, placeless_identifier, placeless_text, hliterals]
  · simp [constrainedRules, placeless_anything, placeless_identifier, placeless_text,
      placeless_oneOf]
  · simp [abstractClassRules, placeless_anything, placeless_identifier, placeless_text, hparents,
      hproperties, harguments]
  · simp [concreteClassRules, abstractClassRules, placeless_anything, placeless_identifier,
      placeless_text, placeless_boolean, hparents, hproperties, harguments]

theorem placeless_typeCheck : Placeless typeCheck := by
  intro place place' value h
  cases value with
  | object members =>
    simp only [typeCheck, List.append_eq_nil_iff] at h ⊢
    obtain ⟨⟨hmissing, htag⟩, htagged⟩ := h
    refine ⟨⟨?_, ?_⟩, ?_⟩
    · simpa [missing] using hmissing
    · cases hkind : Json.Members.get? members "kind" with
      | none => rfl
      | some value =>
        rw [hkind] at htag
        exact placeless_oneOf _ _ _ value htag
    · rw [taggedCheck] at htagged ⊢
      split at htagged
      · split at htagged
        · next rules hrules =>
          obtain ⟨before, after, heq, -⟩ := List.lookup_eq_some_iff.mp hrules
          have hmem : (_, rules) ∈ kindRules := heq ▸ List.mem_append_right _ List.mem_cons_self
          exact placeless_kindRules _ hmem _ _ _ htagged
        · cases htagged
      · cases htagged
  | null | bool _ | number _ | text _ | array _ => simp [typeCheck] at h

/-! ## Another list of types -/

variable {members : Json.Members} {items items' : List Json}

section Assign

variable (hitems : members.get? "types" = some (.array items))

include hitems

theorem types_mem_keys : "types" ∈ members.keys := by
  obtain ⟨before, after, rfl, -⟩ := List.lookup_eq_some_iff.mp hitems
  simp [Json.Members.keys]

/-- **A value keeps its form with any selection of its types, in any order.** -/
theorem conforms_set_types (h : conforms (.object members) = true) (hsub : items' ⊆ items) :
    conforms (.object (members.set "types" (.array items'))) = true := by
  have hkey := types_mem_keys hitems
  obtain ⟨hrequired, hallowed, hmembers⟩ := record_eq_nil_iff.mp (List.isEmpty_iff.mp h)
  refine List.isEmpty_iff.mpr (record_eq_nil_iff.mpr ⟨?_, ?_, fun rule hrule member hmember => ?_⟩)
  · rwa [Json.Members.keys_set_of_mem hkey]
  · rwa [Json.Members.keys_set_of_mem hkey]
  · rw [Json.Members.get?_set_of_mem hkey] at hmember
    split at hmember
    · next hname =>
      -- the rule of the types is the one under their key
      obtain rfl : rule = ("types", Check.items typeCheck) := by
        simp only [rules, List.mem_cons, List.not_mem_nil, or_false] at hrule
        rcases hrule with rfl | rfl | rfl | rfl | rfl
        · simp at hname
        · simp at hname
        · simp at hname
        · simp at hname
        · rfl
      obtain rfl := Option.some.inj hmember
      have hall := (itemsFrom_eq_nil_iff placeless_typeCheck).mp (hmembers _ hrule _ hitems)
      exact (itemsFrom_eq_nil_iff placeless_typeCheck).mpr fun item hitem => hall item (hsub hitem)
    · exact hmembers rule hrule member hmember

theorem field_types :
    Decode.field (Decode.list TypeDecl.decode?) (.object members) "types"
      = items.mapM TypeDecl.decode? := by
  rw [Decode.field, show Json.get? (.object members) "types" = some (.array items) from hitems]
  rfl

theorem mapM_types_of_decode? {document : Document}
    (h : decode? (.object members) = some document) :
    items.mapM TypeDecl.decode? = some document.types := by
  simp only [decode?, Option.bind_eq_bind, Option.bind_eq_some_iff, Option.some.injEq] at h
  obtain ⟨name, -, version, -, prose, -, types, htypes, rfl⟩ := h
  exact (field_types hitems).symm.trans htypes

/-- **A document with other types is the same but for them.** -/
theorem decode?_set_types {document : Document} (h : decode? (.object members) = some document) :
    decode? (.object (members.set "types" (.array items')))
      = (items'.mapM TypeDecl.decode?).map fun types => { document with types } := by
  have hkey := types_mem_keys hitems
  have hget : ∀ other, other ≠ "types" →
      Json.get? (.object (members.set "types" (.array items'))) other
        = Json.get? (.object members) other :=
    fun other hne => (Json.Members.get?_set_of_mem hkey _ other).trans (if_neg hne)
  have htypes : (members.set "types" (.array items')).get? "types" = some (.array items') :=
    (Json.Members.get?_set_of_mem hkey _ "types").trans (if_pos rfl)
  simp only [decode?, Option.bind_eq_bind, Option.bind_eq_some_iff, Option.some.injEq] at h
  obtain ⟨name, hname, version, hversion, prose, hprose, types, -, rfl⟩ := h
  rw [Decode.field, ← hget "name" (by decide), ← Decode.field] at hname
  rw [Decode.optionalField, ← hget "version" (by decide), ← Decode.optionalField] at hversion
  rw [Decode.optionalField, ← hget "description" (by decide), ← Decode.optionalField] at hprose
  rw [decode?, hname, hversion, hprose, field_types htypes]
  cases items'.mapM TypeDecl.decode? with
  | none => rfl
  | some types' => rfl

end Assign

end Document
end WireModel
