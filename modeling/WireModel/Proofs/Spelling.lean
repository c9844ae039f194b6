import WireModel.Codec.Constructors
import WireModel.Proofs.Planning
import WireModel.Proofs.Separated

/-!
# Types that are written alike

An argument is compared with its property by the texts of their types. In a sound table a text
belongs to one type (`Table.Sound.eq_of_text_eq`): names of types are identifiers, so they hold no
bracket, and none is that of a primitive. So where nothing is reported about constructors,
**`Table.Sound.type_eq_of_silent`** gives an argument the type of its property, or the optional
version of it and a default.
-/

namespace WireModel

theorem Primitive.ofName?_name (kind : Primitive) : ofName? kind.name = some kind := by
  cases kind <;> decide +kernel

/-- The text of an item says which item it is, if no name is that of a primitive. -/
theorem Atom.eq_of_text_eq {a b : Atom}
    (ha : ∀ name, a = .named name → Primitive.ofName? name = none)
    (hb : ∀ name, b = .named name → Primitive.ofName? name = none) (h : a.text = b.text) :
    a = b := by
  cases a with
  | primitive kind =>
    have hsome := Primitive.ofName?_name kind
    cases b with
    | primitive kind' =>
      rw [show kind.name = kind'.name from h, Primitive.ofName?_name] at hsome
      rw [Option.some.inj hsome]
    | named name =>
      rw [show kind.name = name from h, hb name rfl] at hsome
      cases hsome
  | named name =>
    cases b with
    | primitive kind =>
      have hsome := Primitive.ofName?_name kind
      rw [← show name = kind.name from h, ha name rfl] at hsome
      cases hsome
    | named name' => rw [show name = name' from h]

/-! ## The marks of a text -/

namespace FieldType

variable {a b : FieldType Atom}

theorem text_of_isOptional (h : a.isOptional = true) :
    a.text = "Optional[" ++ (a.required.text ++ "]") := by
  unfold text required
  rw [h, ← String.append_assoc]
  rfl

theorem text_of_isList (h : a.isOptional = false) (hlist : a.isList = true) :
    a.text = "List[" ++ (a.item.text ++ "]") := by
  unfold text
  rw [h, hlist, ← String.append_assoc]
  rfl

theorem text_of_item (h : a.isOptional = false) (hlist : a.isList = false) :
    a.text = a.item.text := by
  unfold text
  rw [h, hlist]
  rfl

theorem ne_of_bracket {text rest : String} (h : '[' ∉ text.toList) :
    text ≠ "Optional[" ++ rest ∧ text ≠ "List[" ++ rest := by
  constructor
  · rintro rfl
    exact h (by simp)
  · rintro rfl
    exact h (by simp)

/-- A type that is not optional does not begin like one. -/
theorem text_ne_optional (hitem : '[' ∉ a.item.text.toList) (h : a.isOptional = false)
    (rest : String) : a.text ≠ "Optional[" ++ rest := by
  cases hlist : a.isList with
  | false =>
    rw [text_of_item h hlist]
    exact (ne_of_bracket hitem).1
  | true =>
    rw [text_of_isList h hlist]
    intro heq
    have hchars := congrArg String.toList heq
    simp at hchars

/-- Types whose items have no brackets are written alike only if they have the same marks. -/
theorem marks_of_text_eq (ha : '[' ∉ a.item.text.toList) (hb : '[' ∉ b.item.text.toList)
    (h : a.text = b.text) :
    a.isOptional = b.isOptional ∧ a.isList = b.isList ∧ a.item.text = b.item.text := by
  -- for types that are not optional, a text is an item or a list
  have hrequired : ∀ {a b : FieldType Atom}, '[' ∉ a.item.text.toList → '[' ∉ b.item.text.toList →
      a.isOptional = false → b.isOptional = false → a.text = b.text →
      a.isList = b.isList ∧ a.item.text = b.item.text := by
    intro a b ha hb hao hbo h
    cases hal : a.isList <;> cases hbl : b.isList
    · rw [text_of_item hao hal, text_of_item hbo hbl] at h
      exact ⟨rfl, h⟩
    · rw [text_of_item hao hal, text_of_isList hbo hbl] at h
      exact absurd h (ne_of_bracket ha).2
    · rw [text_of_isList hao hal, text_of_item hbo hbl] at h
      exact absurd h.symm (ne_of_bracket hb).2
    · rw [text_of_isList hao hal, text_of_isList hbo hbl, String.append_right_inj,
        String.append_left_inj] at h
      exact ⟨rfl, h⟩
  cases hao : a.isOptional <;> cases hbo : b.isOptional
  · exact ⟨rfl, hrequired ha hb hao hbo h⟩
  · rw [text_of_isOptional hbo] at h
    exact absurd h (text_ne_optional ha hao _)
  · rw [text_of_isOptional hao] at h
    exact absurd h.symm (text_ne_optional hb hbo _)
  · rw [text_of_isOptional hao, text_of_isOptional hbo, String.append_right_inj,
      String.append_left_inj] at h
    exact ⟨rfl, hrequired (a := a.required) (b := b.required) ha hb rfl rfl h⟩

end FieldType

/-! ## Types of a table -/

namespace Table.Sound

variable {key : String} {t : Table} (h : t.Sound key)

include h

theorem bracket_not_mem {type : FieldType Atom} (hknows : t.Knows type) :
    '[' ∉ type.item.text.toList := by
  cases hitem : type.item with
  | primitive kind => cases kind <;> decide
  | named name =>
    obtain ⟨s, hs, rfl⟩ := List.mem_map.mp (hknows name hitem).1
    exact Name.not_mem_of_isIdentifier (h.identified s hs) (by decide)

/-- **A text belongs to one type of the table.** -/
theorem eq_of_text_eq {a b : FieldType Atom} (ha : t.Knows a) (hb : t.Knows b)
    (htext : a.text = b.text) : a = b := by
  obtain ⟨hoptional, hlist, hitem⟩ :=
    FieldType.marks_of_text_eq (h.bracket_not_mem ha) (h.bracket_not_mem hb) htext
  have heq : a.item = b.item :=
    Atom.eq_of_text_eq (fun name hname => (ha name hname).2) (fun name hname => (hb name hname).2)
      hitem
  cases a
  cases b
  cases hoptional
  cases hlist
  cases heq
  rfl

/-- An argument fits a type iff it has it, or it is the optional version with a default. -/
theorem fits_iff {a : Argument} {type : FieldType Atom} (ha : t.Knows a.type)
    (htype : t.Knows type) :
    a.fits type = true ↔ a.type = type
      ∨ (a.type.isOptional = true ∧ a.type.required = type ∧ a.default.isSome = true) := by
  have hagrees : ∀ {b : FieldType Atom}, t.Knows b → (b.agrees type = true ↔ b = type) := by
    intro b hb
    unfold FieldType.agrees
    rw [beq_iff_eq]
    constructor
    · exact h.eq_of_text_eq hb htype
    · rintro rfl
      rfl
  have hrequired : t.Knows a.type.required := ha
  unfold Argument.fits Argument.isOptionalOf
  rw [Bool.or_eq_true, Bool.and_eq_true, Bool.and_eq_true, hagrees ha, hagrees hrequired, and_assoc]

/-- **Where nothing is reported about constructors, an argument has the type of its property**, up
to being optional with a default. -/
theorem type_eq_of_silent (hsilent : t.constructorDiagnostics = []) {c : Class}
    (hc : c ∈ t.classes) {a : Argument} (ha : a ∈ c.arguments) {p : Property}
    (hp : p ∈ c.properties) (hname : p.name = a.name) :
    a.type = p.type
      ∨ (a.type.isOptional = true ∧ a.type.required = p.type ∧ a.default.isSome = true) := by
  have hsound := h.classes c hc
  have hfind : c.property? a.name = some p :=
    (find?_key_eq_some_iff hsound.names_nodup).mpr ⟨hp, hname⟩
  have hnone := List.filterMap_eq_nil_iff.mp (List.flatMap_eq_nil_iff.mp hsilent c hc) a ha
  rw [hfind] at hnone
  refine (h.fits_iff (hsound.arguments_known a ha) (hsound.properties_known p hp)).mp ?_
  by_contra hfits
  simp [hfits] at hnone

end Table.Sound
end WireModel
