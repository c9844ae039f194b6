import WireModel.Proofs.Expressions

/-!
# Default values

A default of the document is a constant, checked when it is loaded against the type of its
argument. In generated code it is an expression, written from what the type is carried by. Here the
two are tied together:

* **`Document.Clean.default_ofItem`**: the default of an argument is a value of the item of its type
  (`Default.OfItem`), and its type is no list.
* **`Document.Clean.denotedBy`**: the expression for such a default stands for it
  (`Default.DenotedBy`), as `Meaning.read?` reads expressions.
-/

namespace WireModel

open TypeScript

namespace Default

/-- A default is a value of an item. A number is an integer that is held exactly if the item is
carried as one, and a literal is one of the enumeration that the item names. -/
inductive OfItem (t : Table) (item : Atom) : Default → Prop where
  | bool (b : Bool) (h : t.carrier item = .ok (.primitive .bool)) : OfItem t item (.bool b)
  | int {x : Binary64} {z : Int} (h : t.carrier item = .ok (.primitive .int))
      (hz : x.toInt? = some z) (hlt : z.natAbs < 2 ^ 53) : OfItem t item (.number x)
  | float (x : Binary64) (h : t.carrier item = .ok (.primitive .float)) : OfItem t item (.number x)
  | text (s : String) (h : t.carrier item = .ok (.primitive .str)) : OfItem t item (.text s)
  | literal {e : Enumeration} {l : Literal} (hitem : item = .named e.name)
      (he : t.find? e.name = some (.enumeration e)) (hl : l ∈ e.literals) :
      OfItem t item (.literal e.name l.name)

/-- The expression `text` stands for a default of an item: for the constant itself, for an integer
as its numeral with an `n`, and for a literal as a member that nothing else is called. Numbers of a
document are those that numerals spell. -/
inductive DenotedBy (t : Table) (item : Atom) (text : String) : Default → Prop where
  | bool {b : Bool} (hitem : t.carrier item = .ok (.primitive .bool))
      (h : Meaning.read? text = some (.bool b)) : DenotedBy t item text (.bool b)
  | int {x : Binary64} {z : Int} (hitem : t.carrier item = .ok (.primitive .int))
      (hz : x.toInt? = some z) (htext : text = toString z ++ "n")
      (h : Meaning.read? text = some (.bigint z)) : DenotedBy t item text (.number x)
  | float {x : Binary64} (hitem : t.carrier item = .ok (.primitive .float))
      (h : ∀ numeral, Json.numberOf numeral = some x →
        ∃ y, Meaning.read? text = some (.number y) ∧ x.Equals y) : DenotedBy t item text (.number x)
  | text {s : String} (hitem : t.carrier item = .ok (.primitive .str))
      (h : Meaning.read? text = some (.text s)) : DenotedBy t item text (.text s)
  | literal {e : Enumeration} {l : Literal} (hitem : item = .named e.name)
      (he : t.find? e.name = some (.enumeration e)) (hl : l ∈ e.literals)
      (h : Meaning.read? text = some (.member (typeName e.name) (typeName l.name)))
      (type_unique : ∀ s ∈ t.types, typeName s.name = typeName e.name → s = .enumeration e)
      (literal_unique : ∀ other ∈ e.literals, typeName other.name = typeName l.name → other = l) :
      DenotedBy t item text (.literal e.name l.name)

end Default

/-- The integer behind a safe number. -/
theorem Binary64.exists_toInt?_of_isSafeInteger {x : Binary64} (h : x.isSafeInteger = true) :
    ∃ z, x.toInt? = some z ∧ z.natAbs < 2 ^ 53 := by
  unfold isSafeInteger at h
  split at h
  · next z hz => exact ⟨z, hz, by simpa using h⟩
  · cases h

namespace Document.Clean

variable {key : String} {document : Document} (h : document.Clean key)

include h

/-! ## Defaults fit their items -/

theorem carrier_of_carries {item : Atom} {kind : Primitive}
    (hcarries : item.Carries document.types kind) :
    document.table.carrier item = .ok (.primitive kind) := by
  rcases hcarries with rfl | ⟨d, hd, rfl, rfl⟩
  · rfl
  · have hfind := h.find?_typeOf hd
    rw [show (TypeDecl.constrained d).name = d.name from rfl] at hfind
    rw [Table.carrier, hfind]
    rfl

/-- What a declaration resolves to as its default is a value of its item. -/
theorem ofItem_of_resolve {subject : Subject} {type : FieldType Atom} {value : Constant}
    {d : Default} (hresolve : (Default.resolve document.types subject type value).1 = some d) :
    type.isList = false ∧ d.OfItem document.table type.item := by
  obtain ⟨hlist, hliteral | ⟨kind, hcarries, hconstant⟩⟩ :=
    Default.resolve_eq_some h.names_nodup hresolve
  · obtain ⟨e, he, hitem, l, hl, rfl⟩ := hliteral
    -- the literals of the table are those of the document, with their descriptions read
    let o := Outline.ofTypes document.types
    exact ⟨hlist, Default.OfItem.literal
      (e := ⟨e.name, e.literals.map o.literalOf, o.describe none e.description⟩)
      (l := o.literalOf l) hitem (h.find?_typeOf he) (List.mem_map_of_mem hl)⟩
  · have hcarrier := h.carrier_of_carries hcarries
    refine ⟨hlist, ?_⟩
    unfold Default.ofConstant? at hconstant
    split at hconstant
    · obtain rfl := Option.some.inj hconstant
      exact .bool _ hcarrier
    · split at hconstant
      · next hsafe =>
        obtain rfl := Option.some.inj hconstant
        obtain ⟨z, hz, hlt⟩ := Binary64.exists_toInt?_of_isSafeInteger hsafe
        exact .int hcarrier hz hlt
      · cases hconstant
    · obtain rfl := Option.some.inj hconstant
      exact .float _ hcarrier
    · obtain rfl := Option.some.inj hconstant
      exact .text _ hcarrier
    · cases hconstant

/-- **The default of an argument is a value of its type.** -/
theorem default_ofItem {c : Class} (hc : c ∈ document.table.classes) {a : Argument}
    (ha : a ∈ c.arguments) {d : Default} (hd : a.default = some d) :
    a.type.isList = false ∧ d.OfItem document.table a.type.item := by
  refine h.forall_classes (P := fun c => ∀ a ∈ c.arguments, ∀ d, a.default = some d →
    a.type.isList = false ∧ d.OfItem document.table a.type.item) (fun decl hdecl a ha d hd => ?_)
    c hc a ha d hd
  cases harguments : decl.arguments with
  | none =>
    rw [Outline.arguments_classOf_of_none _ _ harguments] at ha
    obtain ⟨entry, -, rfl⟩ := List.mem_map.mp ha
    cases hd
  | some decls =>
    rw [h.arguments_eq hdecl harguments] at ha
    obtain ⟨declared, -, rfl⟩ := List.mem_map.mp ha
    obtain ⟨value, -, hresolve⟩ := Option.bind_eq_some_iff.mp hd
    exact h.ofItem_of_resolve hresolve

/-! ## Expressions stand for defaults -/

theorem literals_nodup {e : Enumeration} (he : .enumeration e ∈ document.table.types) :
    (e.literals.map fun l => typeName l.name).Nodup := by
  rw [h.types_table] at he
  obtain ⟨d, hd, heq⟩ := List.mem_map.mp he
  cases d with
  | enumeration d =>
    obtain rfl := NamedType.enumeration.inj heq
    show ((d.literals.map _).map _).Nodup
    rw [List.map_map]
    exact (h.accepted.literals_distinct d hd).1
  | constrained | classType => cases heq

/-- **The expression for a default stands for it.** -/
theorem denotedBy (hid : document.Identified) {item : Atom} {d : Default}
    (hd : d.OfItem document.table item) {s : Strategy} (hlist : s.isList = false)
    (hcarrier : document.table.carrier item = .ok s.item) :
    d.DenotedBy document.table item (Value.ofDefault s d).piece.text := by
  have hlinked := h.linked_table hid
  cases hd with
  | bool b hitem => exact .bool hitem (Meaning.read?_bool b)
  | text v hitem => exact .text hitem (Meaning.read?_literal v)
  | @int x z hitem hz hlt =>
    have hint : s.item = .primitive .int := Except.ok.inj (hcarrier.symm.trans hitem)
    have htext : (Value.ofDefault s (.number x)).piece.text = toString z ++ "n" := by
      rw [Value.ofDefault, if_pos ⟨hint, by simp [hlist]⟩, ← Binary64.text_of_toInt? hz hlt]
      rfl
    rw [htext]
    exact .int hitem hz rfl (Meaning.read?_bigint z)
  | float x hitem =>
    have hfloat : s.item = .primitive .float := Except.ok.inj (hcarrier.symm.trans hitem)
    rw [Value.ofDefault, if_neg (by simp [hfloat])]
    exact .float hitem fun numeral hnumeral =>
      Meaning.read?_text (Json.normal_of_numberOf hnumeral)
  | @literal e l hitem he hl =>
    have hmem := List.mem_of_find?_eq_some he
    have hread := Meaning.read?_member
      (Name.beginsWithLetter_capital (hlinked.sound.identified _ hmem))
      (Name.beginsWithLetter_capital (hlinked.literals_identified e hmem l hl))
    refine .literal hitem he hl hread (fun other hother hname => ?_) fun other hother hname => ?_
    · exact List.inj_on_of_nodup_map hlinked.sound.capitals_distinct hother hmem hname
    · exact List.inj_on_of_nodup_map (h.literals_nodup hmem) hother hl hname

end Document.Clean
end WireModel
