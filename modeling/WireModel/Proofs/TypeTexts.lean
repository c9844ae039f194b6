import WireModel.Proofs.Closure
import WireModel.Proofs.TypeGrammar

/-!
# Texts of types

Types are compared by their texts, and a text is all that a reader of a model sees of a type. That
is enough because a text can be read back: a type of a table was read from some text, so its item
is one that can be written (`FieldType.parse_eq_ok_iff`), and its own text is the way to write it
that has no spaces.

A model may well have a type that is named `int`, `List` or `Optional`. No field has such a type:
the first name is read as the primitive, and the others only with an argument.

* **`FieldType.parse_text`**: what can be written is read back from its text.
* **`Model.texts_identify`**: so in every table that is loaded the text of a type leads back to the
  type, and two types are written alike iff they are the same type.
-/

namespace WireModel

/-! ## Reading back -/

/-- Without any spaces, tokens follow each other. -/
theorem Term.spaced_flatMap (tokens : List Token) : Spaced tokens (tokens.flatMap Token.chars) := by
  induction tokens with
  | nil => exact .nil 0
  | cons token rest ih => exact .cons 0 token ih

namespace FieldType

theorem toList_text (a : FieldType Atom) : a.text.toList = a.tokens.flatMap Term.Token.chars := by
  obtain ⟨isOptional, isList, item⟩ := a
  cases isOptional <;> cases isList <;> simp [text, tokens, Term.Token.chars]

/-- **What can be written is read back from its text.** -/
theorem parse_text {a : FieldType Atom} (h : a.item.Proper) : parse a.text = .ok a := by
  refine parse_eq_ok_iff.mpr ⟨h, ?_⟩
  rw [toList_text]
  exact Term.spaced_flatMap a.tokens

/-- A type that some text spells is spelled by its own text. -/
theorem Spells.text {types : List TypeDecl} {text : String} {a : FieldType Atom}
    (h : Spells types text a) : Spells types a.text a :=
  ⟨parse_text (parse_eq_ok_iff.mp h.1).1, h.2⟩

end FieldType

/-! ## Types of a table -/

namespace Table

/-- The types of the properties and the arguments of a table. -/
def fieldTypes (t : Table) : List (FieldType Atom) :=
  t.classes.flatMap fun c => c.properties.map (·.type) ++ c.arguments.map (·.type)

/-- Two items are the same primitive, or lead to the same entry. -/
inductive SameItem (t : Table) : Atom → Atom → Prop where
  | primitive (kind : Primitive) : SameItem t (.primitive kind) (.primitive kind)
  | named {name other : String} {s : NamedType} (h : t.find? name = some s)
      (hother : t.find? other = some s) : SameItem t (.named name) (.named other)

/-- Two types have the same structure around the same item. -/
structure SameType (t : Table) (a b : FieldType Atom) : Prop where
  optional_eq : a.isOptional = b.isOptional
  list_eq : a.isList = b.isList
  items : t.SameItem a.item b.item

theorem SameType.eq {t : Table} {a b : FieldType Atom} (h : t.SameType a b) : a = b := by
  obtain ⟨isOptional, isList, item⟩ := a
  obtain ⟨isOptional', isList', item'⟩ := b
  obtain ⟨hoptional, hlist, hitems⟩ := h
  cases hoptional
  cases hlist
  cases hitems with
  | primitive kind => rfl
  | named hfind hfind' =>
    -- both names are that of the entry
    have hname := List.find?_some hfind
    have hname' := List.find?_some hfind'
    rw [beq_iff_eq] at hname hname'
    rw [← hname, ← hname']

theorem SameType.refl {t : Table} {a : FieldType Atom} (h : t.Links a) : t.SameType a a := by
  refine ⟨rfl, rfl, ?_⟩
  cases hitem : a.item with
  | primitive kind => exact .primitive kind
  | named name =>
    obtain ⟨s, hs⟩ := h name (by simp [FieldType.names, hitem, Atom.names])
    exact .named hs hs

end Table

namespace Document.Clean

variable {key : String} {document : Document} (h : document.Clean key)

include h

theorem exists_spells {a : FieldType Atom} (ha : a ∈ document.table.fieldTypes) :
    ∃ text, FieldType.Spells document.types text a := by
  obtain ⟨c, hc, ha⟩ := List.mem_flatMap.mp ha
  rw [h.classes_table] at hc
  obtain ⟨d, hd, rfl⟩ := List.mem_map.mp hc
  rcases List.mem_append.mp ha with ha | ha
  · obtain ⟨p, hp, rfl⟩ := List.mem_map.mp ha
    obtain ⟨-, -, decl, -, -, htype⟩ := h.exists_decl_of_mem_properties hd hp
    exact ⟨decl.type, htype⟩
  · obtain ⟨b, hb, rfl⟩ := List.mem_map.mp ha
    exact h.arguments_spelled hd b hb

end Document.Clean

/-- **The text of a type identifies it** among the types of a table that is loaded: reading the text
gives the type back, resolving it in the same model leads to the same entry, and two types have one
text iff they have the same structure and the same item. -/
theorem Model.texts_identify {key : String} {value : Json} {table : Table}
    (h : Model.load key value = .ok table) :
    ∃ document, Document.decode? value = some document ∧ document.table = table
      ∧ ∀ a ∈ table.fieldTypes,
        FieldType.parse a.text = .ok a
          ∧ (∀ subject, FieldType.resolve document.outline.types subject a.text = (a, []))
          ∧ table.Links a
          ∧ ∀ b ∈ table.fieldTypes, a.agrees b = true ↔ table.SameType a b := by
  obtain ⟨document, hdecode, hclean, -, rfl⟩ := Model.clean_of_load h
  refine ⟨document, hdecode, rfl, fun a ha => ?_⟩
  obtain ⟨text, hspells⟩ := hclean.exists_spells ha
  have htypes : document.outline.types = document.types := by
    rw [hclean.outline_eq]
    rfl
  have hknows := hclean.knows_of_spells hspells
  have hlinks := hclean.links_of_knows hknows
  refine ⟨hspells.text.1, fun subject => ?_, hlinks, fun b hb => ?_⟩
  · rw [htypes]
    exact FieldType.resolve_of_spells hspells.text
  · obtain ⟨_, hspells'⟩ := hclean.exists_spells hb
    have hknows' := hclean.knows_of_spells hspells'
    rw [FieldType.agrees, beq_iff_eq]
    constructor
    · intro htext
      rw [← (Model.sound_of_load h).eq_of_text_eq hknows hknows' htext]
      exact .refl hlinks
    · intro hsame
      rw [hsame.eq]

/-- Types that are named like a primitive and like a list, beside fields that mean the others. -/
def decks : Json :=
  .object [("name", .text "decks"), ("types", .array [
    .object [("kind", .text "enumeration"), ("name", .text "int"), ("literals", .array [
      .object [("name", .text "one"), ("value", .text "1")]])],
    .object [("kind", .text "concreteClass"), ("name", .text "List")],
    .object [("kind", .text "concreteClass"), ("name", .text "card")],
    .object [("kind", .text "concreteClass"), ("name", .text "deck"), ("properties", .array [
      .object [("name", .text "ranks"), ("type", .text "List[ int ]")],
      .object [("name", .text "cards"), ("type", .text " Optional[List [card]]")]])]])]

theorem decks_identify : ∃ table, Model.load "modelType" decks = .ok table
    ∧ (⟨false, true, .primitive .int⟩ : FieldType Atom) ∈ table.fieldTypes
    ∧ ∃ document, Document.decode? decks = some document ∧ document.table = table
      ∧ ∀ a ∈ table.fieldTypes,
        FieldType.parse a.text = .ok a
          ∧ (∀ subject, FieldType.resolve document.outline.types subject a.text = (a, []))
          ∧ table.Links a
          ∧ ∀ b ∈ table.fieldTypes, a.agrees b = true ↔ table.SameType a b := by
  have hloads : (Model.load "modelType" decks).toOption.isSome = true := by decide +kernel
  have hfields : (Model.load "modelType" decks).toOption.map
      (fun t => decide ((⟨false, true, .primitive .int⟩ : FieldType Atom) ∈ t.fieldTypes))
        = some true := by
    decide +kernel
  obtain ⟨table, hload⟩ := Model.exists_table hloads
  rw [hload] at hfields
  exact ⟨table, hload, of_decide_eq_true (Option.some.inj hfields), Model.texts_identify hload⟩

end WireModel
