import WireModel.Proofs.Closure
import WireModel.Proofs.RoutineNames

/-!
# Names that generated code refers to

Declarations and references of generated code come from different traversals of the table. A
reference is made wherever a type, a routine or a class is mentioned, from the carrier of a field,
the parents of a class or the implementers of an interface; what it refers to is declared when the
type comes along. So nothing in either traversal says that references are met.

A `Scope` says which names may be referred to, and `Within` goes through a module and asks it for
every name that is. **`Table.Linked.typesModule_within`** and
**`Table.Linked.codecModule_within`** say that the two modules of a table that is loaded stay
within the names that are declared for its types. The reasons are those that `Table.Linked`
lists: a class with children has an interface, an object of an abstract class travels under one,
and the literal of a default is one of its enumeration.

All these names are *words*, which is what keeps them apart from the code around them.
-/

namespace WireModel

open TypeScript Codec

/-! ## Words -/

namespace Text

theorem isAlphanumeric_lowerChar {c : Char} (h : isAlphanumeric c = true) :
    isAlphanumeric (lowerChar c) = true :=
  of_forall_ascii (P := fun c => isAlphanumeric (lowerChar c) = true) (by decide) h

theorem isAlphanumeric_upperChar {c : Char} (h : isAlphanumeric c = true) :
    isAlphanumeric (upperChar c) = true :=
  of_forall_ascii (P := fun c => isAlphanumeric (upperChar c) = true) (by decide) h

end Text

namespace Name

/-- Letters, digits and underscores, and at least one of them. -/
def IsWord (s : String) : Prop := s.toList ≠ [] ∧ ∀ c ∈ s.toList, isPlainChar c = true

theorem isWord_ofList {cs : List Char} (h : (!cs.isEmpty && cs.all isPlainChar) = true) :
    IsWord (String.ofList cs) := by
  rw [IsWord, String.toList_ofList]
  simpa using h

theorem IsWord.append {s t : String} (hs : IsWord s) (ht : IsWord t) : IsWord (s ++ t) := by
  refine ⟨by simp [String.toList_append, hs.1], fun c hc => ?_⟩
  rw [String.toList_append, List.mem_append] at hc
  exact hc.elim (hs.2 c) (ht.2 c)

theorem IsWord.not_mem {s : String} (h : IsWord s) {c : Char} (hc : isPlainChar c = false) :
    c ∉ s.toList := by
  intro hmem
  rw [h.2 c hmem] at hc
  cases hc

theorem isPlainChar_of_isAlphanumeric {c : Char} (h : Text.isAlphanumeric c = true) :
    isPlainChar c = true := by
  rw [isPlainChar, h, Bool.true_or]

theorem isAlphanumeric_of_mem_capitalWord {word : String}
    (h : ∀ c ∈ word.toList, Text.isAlphanumeric c = true) {c : Char}
    (hc : c ∈ (capitalWord word).toList) : Text.isAlphanumeric c = true := by
  unfold capitalWord at hc
  split at hc
  · next first rest heq =>
    split at hc
    · rw [String.toList_ofList] at hc
      rcases List.mem_cons.mp hc with rfl | hc
      · exact Text.isAlphanumeric_upperChar (h first (by simp [heq]))
      · obtain ⟨d, hd, hc⟩ := List.mem_flatMap.mp hc
        have halpha := h d (by simp [heq, hd])
        rw [Text.lowerChars_of_isAlphanumeric halpha, List.mem_singleton] at hc
        rw [hc]
        exact Text.isAlphanumeric_lowerChar halpha
    · exact h c hc
  · exact h c hc

section Forms

variable {name : String} (h : isIdentifier name = true)

include h

theorem isAlphanumeric_of_mem_words {word : String} (hword : word ∈ words name) {c : Char}
    (hc : c ∈ word.toList) : Text.isAlphanumeric c = true := by
  simp only [isIdentifier, Bool.and_eq_true, List.all_eq_true] at h
  obtain ⟨part, hpart, rfl⟩ := List.mem_map.mp hword
  rw [String.toList_ofList] at hc
  exact (h.2 part (List.mem_filter.mp hpart).1).2 c hc

theorem isWord_of_isIdentifier : IsWord name := by
  refine ⟨fun hnil => ?_, fun c hc => isPlainChar_of_isIdentifier h hc⟩
  simp [isIdentifier, hnil] at h

theorem isWord_capital : IsWord (capital name) := by
  obtain ⟨c, cs, heq, -⟩ := exists_capital_eq h
  refine ⟨by simp [heq], fun d hd => ?_⟩
  rw [capital, String.toList_join, List.flatMap_map] at hd
  obtain ⟨word, hword, hd⟩ := List.mem_flatMap.mp hd
  exact isPlainChar_of_isAlphanumeric (isAlphanumeric_of_mem_capitalWord
    (fun _ => isAlphanumeric_of_mem_words h hword) hd)

/-- No underscore of a name is left in its lower camel form. -/
theorem isAlphanumeric_of_mem_camel {c : Char} (hc : c ∈ (camel name).toList) :
    Text.isAlphanumeric c = true := by
  have halpha : ∀ word ∈ words name, ∀ c ∈ word.toList, Text.isAlphanumeric c = true :=
    fun word hword c hc => isAlphanumeric_of_mem_words h hword hc
  unfold camel at hc
  split at hc
  · next word others hwords =>
    rw [hwords] at halpha
    rw [String.toList_append, List.mem_append, Text.lower, String.toList_ofList,
      String.toList_join, List.flatMap_map] at hc
    rcases hc with hc | hc
    · obtain ⟨d, hd, hc⟩ := List.mem_flatMap.mp hc
      have hd := halpha word List.mem_cons_self d hd
      rw [Text.lowerChars_of_isAlphanumeric hd, List.mem_singleton] at hc
      rw [hc]
      exact Text.isAlphanumeric_lowerChar hd
    · obtain ⟨other, hother, hc⟩ := List.mem_flatMap.mp hc
      exact isAlphanumeric_of_mem_capitalWord
        (halpha other (List.mem_cons_of_mem _ hother)) hc
  · cases hc

theorem isWord_camel : IsWord (camel name) := by
  obtain ⟨first, rest, tail, hletter, -, -, -, heq⟩ := exists_forms h
  refine ⟨?_, fun c hc => isPlainChar_of_isAlphanumeric (isAlphanumeric_of_mem_camel h hc)⟩
  rw [heq, Text.lower, String.toList_append, String.toList_ofList, String.toList_ofList,
    List.flatMap_cons,
    Text.lowerChars_of_isAlphanumeric (by rw [Text.isAlphanumeric, hletter]; rfl)]
  simp

theorem isWord_upper : IsWord (Text.upper name) := by
  have hword := isWord_of_isIdentifier h
  rw [IsWord, Text.upper, String.toList_ofList]
  refine ⟨by simpa using hword.1, List.forall_mem_map.mpr fun c hc => ?_⟩
  rcases Bool.or_eq_true_iff.mp (hword.2 c hc) with halpha | hsep
  · exact isPlainChar_of_isAlphanumeric (Text.isAlphanumeric_upperChar halpha)
  · obtain rfl := eq_of_beq hsep
    rfl

end Forms
end Name

namespace TypeScript

open Name

theorem isWord_bindingName {camel : String} (h : IsWord camel) : IsWord (bindingName camel) := by
  unfold bindingName
  split
  · exact h.append (isWord_ofList rfl)
  · exact h

section Names

variable {name : String} (h : isIdentifier name = true)

include h

theorem isWord_interfaceName : IsWord (interfaceName name) :=
  (isWord_ofList rfl).append (isWord_capital h)

theorem isWord_interfaceStem : IsWord (interfaceStem name) :=
  (isWord_ofList rfl).append (isWord_capital h)

theorem isWord_transformName : IsWord (transformName name) :=
  (isWord_ofList rfl).append (isWord_capital h)

theorem isWord_slotName : IsWord (slotName name) :=
  (isWord_ofList rfl).append (isWord_capital h)

theorem isWord_fromTableName : IsWord (fromTableName name) :=
  (isWord_upper h).append (isWord_ofList rfl)

theorem isWord_toTableName : IsWord (toTableName name) :=
  (isWord_upper h).append (isWord_ofList rfl)

end Names

theorem fromTableName_ne (name : String) : fromTableName name ≠ "types" := by
  intro h
  have hlength := congrArg String.length h
  rw [fromTableName, String.length_append, show "_FROM_JSONABLE".length = 14 from rfl,
    show "types".length = 5 from rfl] at hlength
  omega

theorem toTableName_ne (name : String) : toTableName name ≠ "types" := by
  intro h
  have hlength := congrArg String.length h
  rw [toTableName, String.length_append, show "_TO_JSONABLE".length = 12 from rfl,
    show "types".length = 5 from rfl] at hlength
  omega

/-! ## Scopes -/

/-- Which names can be referred to: types by their names, and routines by the stems of theirs. -/
structure Scope where
  type : String → Prop
  /-- A parse routine has this stem. -/
  parser : String → Prop
  /-- A routine that serializes literals has this stem. -/
  writer : String → Prop
  word_of_type : ∀ {name}, type name → IsWord name
  word_of_parse : ∀ {stem}, parser stem → IsWord stem
  word_of_write : ∀ {stem}, writer stem → IsWord stem

variable (scope : Scope)

def TypeExpr.Within (e : TypeExpr) : Prop := ∀ name ∈ e.names, scope.type name

def Value.Within : Value → Prop
  | .literal enumeration l => scope.type enumeration ∧ IsWord l
  | _ => True

structure FieldDeclaration.Within (f : FieldDeclaration) : Prop where
  name : IsWord f.name
  type : f.type.Within scope

structure ParameterDeclaration.Within (p : ParameterDeclaration) : Prop where
  name : IsWord p.name
  field : IsWord p.field
  type : p.type.Within scope
  initializer : ∀ v ∈ p.initializer, v.Within scope
  fallback : ∀ v ∈ p.fallback, v.Within scope

inductive Declaration.Within : Declaration → Prop where
  | enumeration {doc : Doc} {name : String} {literals : List LiteralDeclaration}
      (hname : scope.type name) (hliterals : ∀ l ∈ literals, IsWord l.name) :
      Within (.enumeration doc name literals)
  | interface {doc : Doc} {name : String} {bases : List String} {fields : List FieldDeclaration}
      (hname : scope.type name) (hbases : ∀ base ∈ bases, scope.type base)
      (hfields : ∀ f ∈ fields, f.Within scope) : Within (.interface doc name bases fields)
  | classType {doc : Doc} {name : String} {bases : List String} {fields : List FieldDeclaration}
      {parameters : List ParameterDeclaration} {visit : String}
      (hname : scope.type name) (hbases : ∀ base ∈ bases, scope.type base)
      (hfields : ∀ f ∈ fields, f.Within scope) (hparameters : ∀ p ∈ parameters, p.Within scope)
      (hvisit : IsWord visit) : Within (.classType doc name bases fields parameters visit)
  | handwritten (name : String) : Within (.handwritten name)

structure TypesModule.Within (m : TypesModule) : Prop where
  visits : ∀ v ∈ m.visits, IsWord v.method ∧ scope.type v.type
  declarations : ∀ d ∈ m.declarations, d.Within scope

def Parser.Within : Parser → Prop
  | .primitive _ => True
  | .generated stem => scope.parser stem

def Writer.Within : Writer → Prop
  | .same | .object => True
  | .support function => function = "rt.int64ToJsonable" ∨ function = "rt.bytesToJsonable"
  | .enumeration stem => scope.writer stem

structure Slot.Within (s : Slot) : Prop where
  binding : IsWord s.binding
  item : s.item.Within scope
  type : s.type.Within scope
  parser : s.parser.Within scope

structure Entry.Within (e : Entry) : Prop where
  field : IsWord e.field
  writer : e.writer.Within scope

structure EnumerationCodec.Within (e : EnumerationCodec) : Prop where
  parser : scope.parser e.stem
  writer : scope.writer e.stem
  type : scope.type e.type
  fromTable : IsWord e.fromTable
  toTable : IsWord e.toTable
  /-- The tables are not mistaken for the module of types. -/
  apart : e.fromTable ≠ "types" ∧ e.toTable ≠ "types"
  literals : ∀ l ∈ e.literals, IsWord l.2

structure InterfaceCodec.Within (i : InterfaceCodec) : Prop where
  parser : scope.parser i.stem
  type : scope.type i.type
  choices : ∀ c ∈ i.choices, scope.parser c.stem

structure ClassCodec.Within (c : ClassCodec) : Prop where
  parser : scope.parser c.stem
  type : scope.type c.type
  method : IsWord c.method
  slots : ∀ s ∈ c.slots, s.Within scope
  entries : ∀ e ∈ c.entries, e.Within scope

inductive TypeCodec.Within : TypeCodec → Prop where
  | enumeration {e : EnumerationCodec} (h : e.Within scope) : Within (.enumeration e)
  | interface {i : InterfaceCodec} (h : i.Within scope) : Within (.interface i)
  | classType {c : ClassCodec} (h : c.Within scope) : Within (.classType c)

def CodecModule.Within (m : CodecModule) : Prop := ∀ codec ∈ m.codecs, codec.Within scope

variable {scope}

theorem CodecModule.Within.enumeration {m : CodecModule} (h : m.Within scope)
    {e : EnumerationCodec} (he : e ∈ m.enumerations) : e.Within scope := by
  obtain ⟨codec, hmem, heq⟩ := List.mem_filterMap.mp he
  cases h codec hmem with
  | enumeration hwithin =>
    cases heq
    exact hwithin
  | interface | classType => cases heq

theorem CodecModule.Within.classType {m : CodecModule} (h : m.Within scope) {c : ClassCodec}
    (hc : c ∈ m.classes) : c.Within scope := by
  obtain ⟨codec, hmem, heq⟩ := List.mem_filterMap.mp hc
  cases h codec hmem with
  | classType hwithin =>
    cases heq
    exact hwithin
  | enumeration | interface => cases heq

end TypeScript

/-! ## The scope of a table -/

/-- The names that are declared for the types of a table. -/
def Table.scope (t : Table) : Scope where
  type name := Name.IsWord name
    ∧ (name = Declaration.rootInterface ∨ ∃ s ∈ t.types, name ∈ s.typeNames t)
  parser stem := Name.IsWord stem ∧ ∃ s ∈ t.types, stem ∈ s.stems t
  writer stem := Name.IsWord stem ∧ ∃ e, .enumeration e ∈ t.types ∧ stem = Name.camel e.name
  word_of_type h := h.1
  word_of_parse h := h.1
  word_of_write h := h.1

/-- What generators can rely on when they refer to something. -/
structure Table.Linked (key : String) (t : Table) : Prop where
  sound : t.Sound key
  closed : t.Closed
  literals_identified : ∀ e, .enumeration e ∈ t.types → ∀ l ∈ e.literals,
    Name.isIdentifier l.name = true
  parents_interfaced : ∀ c ∈ t.classes, ∀ name ∈ c.parents, (t.interface? name).isSome = true

/-- A carrier stands for a type of the table, and for one that is declared under its name. -/
inductive Table.Carries (t : Table) : Carrier → Prop where
  | primitive (kind : Primitive) : Carries t (.primitive kind)
  | enumeration {e : Enumeration} (h : .enumeration e ∈ t.types) : Carries t (.enumeration e.name)
  | choice {c : Class} (h : .classType c ∈ t.types) (hi : (t.interface? c.name).isSome = true) :
      Carries t (.choice c.name)
  | object {c : Class} (h : .classType c ∈ t.types) (hconcrete : c.isConcrete = true) :
      Carries t (.object c.name)

namespace Table

variable {t : Table}

theorem carries_of_carrier {atom : Atom} {carrier : Carrier} (h : t.carrier atom = .ok carrier) :
    t.Carries carrier := by
  cases atom with
  | primitive kind =>
    cases h
    exact .primitive kind
  | named name =>
    simp only [Table.carrier] at h
    split at h
    · next e hfind =>
      cases h
      exact .enumeration (List.mem_of_find?_eq_some hfind)
    · cases h
      exact .primitive _
    · next c hfind =>
      have hc := List.mem_of_find?_eq_some hfind
      unfold classCarrier at h
      split at h
      · next i hi =>
        cases h
        rw [name_of_interface? hi]
        exact .choice hc (by rw [hi]; rfl)
      · split at h
        · next hconcrete =>
          cases h
          exact .object hc hconcrete
        · cases h
    · cases h

theorem carries_of_strategy {type : FieldType Atom} {s : Strategy}
    (h : t.strategy type = .ok s) : t.Carries s.item := by
  obtain ⟨carrier, hcarrier, rfl⟩ := map_eq_ok_iff.mp h
  exact carries_of_carrier hcarrier

end Table

namespace Table.Linked

variable {key : String} {t : Table} (h : t.Linked key)

include h

/-! ### Names in scope -/

theorem type_of_mem {s : NamedType} (hs : s ∈ t.types) {name : String}
    (hname : name ∈ s.typeNames t) : t.scope.type name := by
  refine ⟨?_, .inr ⟨s, hs, hname⟩⟩
  have hid := h.sound.identified s hs
  rcases (h.sound.mem_typeNames hs).mp hname with ⟨-, rfl⟩ | ⟨c, rfl, -, rfl⟩
  · exact Name.isWord_capital hid
  · exact isWord_interfaceName hid

theorem type_enumeration {e : Enumeration} (he : .enumeration e ∈ t.types) :
    t.scope.type (typeName e.name) :=
  h.type_of_mem he (by simp [NamedType.typeNames])

theorem type_class {c : Class} (hc : .classType c ∈ t.types) (hconcrete : c.isConcrete = true) :
    t.scope.type (typeName c.name) :=
  h.type_of_mem hc (by simp [NamedType.typeNames, hconcrete])

theorem type_interfaceName {c : Class} (hc : .classType c ∈ t.types)
    (hi : (t.interface? c.name).isSome = true) : t.scope.type (interfaceName c.name) :=
  h.type_of_mem hc (by simp [NamedType.typeNames, hi])

theorem parser_of_mem {s : NamedType} (hs : s ∈ t.types) {stem : String}
    (hstem : stem ∈ s.stems t) : t.scope.parser stem := by
  refine ⟨?_, s, hs, hstem⟩
  have hid := h.sound.identified s hs
  rcases (h.sound.mem_stems hs).mp hstem with ⟨-, rfl⟩ | ⟨c, rfl, -, rfl⟩
  · exact Name.isWord_camel hid
  · exact isWord_interfaceStem hid

theorem parser_enumeration {e : Enumeration} (he : .enumeration e ∈ t.types) :
    t.scope.parser (Name.camel e.name) :=
  h.parser_of_mem he (by simp [NamedType.stems])

theorem parser_class {c : Class} (hc : .classType c ∈ t.types) (hconcrete : c.isConcrete = true) :
    t.scope.parser (Name.camel c.name) :=
  h.parser_of_mem hc (by simp [NamedType.stems, hconcrete])

theorem parser_interfaceStem {c : Class} (hc : .classType c ∈ t.types)
    (hi : (t.interface? c.name).isSome = true) : t.scope.parser (interfaceStem c.name) :=
  h.parser_of_mem hc (by simp [NamedType.stems, hi])

theorem writer_of_mem {e : Enumeration} (he : .enumeration e ∈ t.types) :
    t.scope.writer (Name.camel e.name) :=
  ⟨Name.isWord_camel (h.sound.identified _ he), e, he, rfl⟩

/-! ### What carriers refer to -/

theorem typeExpr_within {carrier : Carrier} (hcarries : t.Carries carrier) :
    (TypeExpr.ofCarrier carrier).Within t.scope := by
  cases hcarries with
  | primitive kind => exact fun name hname => nomatch hname
  | enumeration he => exact List.forall_mem_singleton.mpr (h.type_enumeration he)
  | choice hc hi => exact List.forall_mem_singleton.mpr (h.type_interfaceName hc hi)
  | object hc hconcrete => exact List.forall_mem_singleton.mpr (h.type_class hc hconcrete)

theorem required_within {s : Strategy} (hcarries : t.Carries s.item) :
    (TypeExpr.required s).Within t.scope := by
  unfold TypeExpr.required
  split
  · exact h.typeExpr_within hcarries
  · exact h.typeExpr_within hcarries

theorem ofStrategy_within {s : Strategy} (hcarries : t.Carries s.item) :
    (TypeExpr.ofStrategy s).Within t.scope := by
  unfold TypeExpr.ofStrategy
  split
  · exact h.required_within hcarries
  · exact h.required_within hcarries

theorem parser_within {carrier : Carrier} (hcarries : t.Carries carrier) :
    (Parser.ofCarrier carrier).Within t.scope := by
  cases hcarries with
  | primitive kind => trivial
  | enumeration he => exact h.parser_enumeration he
  | choice hc hi => exact h.parser_interfaceStem hc hi
  | object hc hconcrete => exact h.parser_class hc hconcrete

theorem writer_within {carrier : Carrier} (hcarries : t.Carries carrier) :
    (Writer.ofCarrier carrier).Within t.scope := by
  cases hcarries with
  | primitive kind =>
    cases kind with
    | bool | float | str => trivial
    | int => exact .inl rfl
    | bytearray => exact .inr rfl
  | enumeration he => exact h.writer_of_mem he
  | choice | object => trivial

/-! ### The module of types -/

theorem parentInterfaces_within {c : Class} (hc : c ∈ t.classes) :
    ∀ base ∈ Declaration.parentInterfaces c, t.scope.type base := by
  unfold Declaration.parentInterfaces
  split
  · exact List.forall_mem_singleton.mpr ⟨Name.isWord_ofList rfl, .inl rfl⟩
  · refine List.forall_mem_map.mpr fun name hname => ?_
    obtain ⟨parent, hparent⟩ := (h.closed.classes c hc).parents name hname
    have hfound := List.find?_some hparent
    obtain rfl := eq_of_beq hfound
    exact h.type_interfaceName (List.mem_of_find?_eq_some hparent)
      (h.parents_interfaced c hc _ hname)

theorem isWord_wire_of_property {c : Class} (hc : c ∈ t.classes) {p : Property}
    (hp : p ∈ c.properties) : Name.IsWord (Name.camel p.name) :=
  Name.isWord_camel ((h.sound.classes c hc).properties_identified p hp)

theorem fieldOf_within {c : Class} (hc : c ∈ t.classes) {p : Property} (hp : p ∈ c.properties)
    {m : Member} (hm : m.Plans t p) : (Declaration.fieldOf t m).Within t.scope where
  name := by
    show Name.IsWord (bindingName m.wire)
    rw [hm.wire_eq]
    exact isWord_bindingName (h.isWord_wire_of_property hc hp)
  type := h.ofStrategy_within (carries_of_strategy hm.strategy_eq)

/-- The default of an argument stays within scope: a literal is one of an enumeration. -/
theorem default_within {c : Class} (hc : c ∈ t.classes) {a : Argument} (ha : a ∈ c.arguments)
    (s : Strategy) : ∀ v ∈ a.default.map (Value.ofDefault s), v.Within t.scope := by
  intro v hv
  obtain ⟨d, hd, rfl⟩ := Option.map_eq_some_iff.mp hv
  cases d with
  | bool | text => trivial
  | number x =>
    rw [Value.ofDefault]
    split <;> trivial
  | literal enumeration l =>
    obtain ⟨-, e, hfind, hl⟩ := ((h.closed.classes c hc).arguments a ha).2 enumeration l hd
    have he := List.mem_of_find?_eq_some hfind
    have hname := List.find?_some hfind
    obtain rfl := eq_of_beq hname
    obtain ⟨other, hother, rfl⟩ := List.mem_map.mp hl
    exact ⟨h.type_enumeration he, Name.isWord_capital (h.literals_identified e he other hother)⟩

theorem parameterOf_within {c : Class} (hc : c ∈ t.classes) {a : Argument} (ha : a ∈ c.arguments)
    (plan : ClassPlan) {p : Parameter} (hp : p.Plans t a) :
    (Declaration.parameterOf plan p).Within t.scope := by
  have hword : Name.IsWord (bindingName p.wire) := by
    rw [hp.wire_eq]
    exact isWord_bindingName (Name.isWord_camel ((h.sound.classes c hc).isIdentifier_argument ha))
  have hdefault : ∀ v ∈ p.argument.default.map (Value.ofDefault p.strategy),
      v.Within t.scope := by
    rw [hp.argument_eq]
    exact h.default_within hc ha _
  constructor
  case name => exact hword
  case field => exact hword
  case type => exact h.ofStrategy_within (carries_of_strategy hp.strategy_eq)
  case initializer =>
    intro v hv
    simp only [Declaration.parameterOf] at hv
    split at hv
    · obtain rfl := Option.some.inj hv
      split
      · -- without a default the parameter starts as `null`
        cases hd : p.argument.default.map (Value.ofDefault p.strategy) with
        | none => trivial
        | some d => exact hdefault d hd
      · trivial
    · cases hv
  case fallback =>
    intro v hv
    simp only [Declaration.parameterOf] at hv
    split at hv
    · exact hdefault v hv
    · cases hv

theorem ofType_within {s : NamedType} (hs : s ∈ t.types) {p : TypePlan} (hp : p.Plans t s) :
    ∀ d ∈ Declaration.ofType t p, d.Within t.scope := by
  cases hp with
  | enumeration e =>
    refine List.forall_mem_singleton.mpr (.enumeration (h.type_enumeration hs) ?_)
    exact List.forall_mem_map.mpr fun l hl => Name.isWord_capital (h.literals_identified e hs l hl)
  | constrained c => exact fun d hd => nomatch hd
  | @classType c plan hplan =>
    obtain rfl := hplan.type_eq
    have hc := mem_classes.mpr hs
    have hfields : ∀ m ∈ plan.members, (Declaration.fieldOf t m).Within t.scope := by
      intro m hm
      obtain ⟨p, hp, hplans⟩ := exists_of_mem_forall₂ hplan.members.flip hm
      exact h.fieldOf_within hc hp hplans
    have hinterface : (t.interface? plan.type.name).isSome = true →
        (Declaration.interfaceOf t plan).Within t.scope := by
      intro hi
      refine .interface (h.type_interfaceName hs hi) (h.parentInterfaces_within hc) ?_
      exact List.forall_mem_map.mpr fun m hm => hfields m (List.mem_filter.mp hm).1
    have hclass : plan.type.isConcrete = true →
        (Declaration.classOf t plan).Within t.scope := by
      intro hconcrete
      unfold Declaration.classOf
      split
      · exact .handwritten _
      refine .classType (h.type_class hs hconcrete) ?_ (List.forall_mem_map.mpr hfields)
        (List.forall_mem_map.mpr fun p hp => ?_)
        (isWord_transformName (h.sound.isIdentifier_of_mem_classes hc))
      · unfold Declaration.implemented
        split
        · next hi =>
          rw [hplan.interface_eq, Option.isSome_map] at hi
          exact List.forall_mem_singleton.mpr (h.type_interfaceName hs hi)
        · exact h.parentInterfaces_within hc
      · obtain ⟨a, ha, hplans⟩ := exists_of_mem_forall₂ hplan.parameters.flip hp
        exact h.parameterOf_within hc ha plan hplans
    intro d hd
    simp only [Declaration.ofType] at hd
    split at hd
    · next hconcrete =>
      rcases List.mem_append.mp hd with hd | hd
      · split at hd
        · next hi =>
          rw [hplan.interface_eq, Option.isSome_map] at hi
          obtain rfl := List.mem_singleton.mp hd
          exact hinterface hi
        · cases hd
      · obtain rfl := List.mem_singleton.mp hd
        exact hclass hconcrete
    · next habstract =>
      obtain rfl := List.mem_singleton.mp hd
      exact hinterface ((h.sound.classes _ hc).interface_of_abstract (by simpa using habstract))

/-- **The module of types refers to what is declared for the types.** -/
theorem typesModule_within {plan : Plan} (hplan : plan.Plans t) (banner : List String) :
    (TypesModule.of plan banner).Within t.scope where
  visits := by
    refine List.forall_mem_map.mpr fun p hp => ?_
    obtain ⟨hp, hconcrete⟩ := List.mem_filter.mp hp
    obtain ⟨q, hq, hclass⟩ := List.mem_filterMap.mp hp
    obtain ⟨s, hs, hplans⟩ := exists_of_mem_forall₂ hplan.types.flip hq
    cases hplans with
    | enumeration | constrained => cases hclass
    | classType hp =>
      cases hclass
      obtain rfl := hp.type_eq
      exact ⟨isWord_transformName (h.sound.identified _ hs), h.type_class hs hconcrete⟩
  declarations := by
    intro d hd
    obtain ⟨p, hp, hd⟩ := List.mem_flatMap.mp hd
    obtain ⟨s, hs, hplans⟩ := exists_of_mem_forall₂ hplan.types.flip hp
    rw [hplan.table_eq] at hd
    exact h.ofType_within hs hplans d hd

/-! ### The codec module -/

theorem slot_within {c : Class} (hc : c ∈ t.classes) {a : Argument} (ha : a ∈ c.arguments)
    {p : Parameter} (hp : p.Plans t a) : (Slot.of p).Within t.scope := by
  have hcarries := carries_of_strategy hp.strategy_eq
  constructor
  case binding =>
    show Name.IsWord (slotName p.argument.name)
    rw [hp.argument_eq]
    exact isWord_slotName ((h.sound.classes c hc).isIdentifier_argument ha)
  case item => exact h.typeExpr_within hcarries
  case type => exact h.required_within hcarries
  case parser => exact h.parser_within hcarries

theorem entry_within {c : Class} (hc : c ∈ t.classes) {p : Property} (hp : p ∈ c.properties)
    {m : Member} (hm : m.Plans t p) : (Entry.of m).Within t.scope where
  field := by
    show Name.IsWord (bindingName m.wire)
    rw [hm.wire_eq]
    exact isWord_bindingName (h.isWord_wire_of_property hc hp)
  writer := h.writer_within (carries_of_strategy hm.strategy_eq)

theorem classCodec_within {c : Class} (hc : .classType c ∈ t.types)
    (hconcrete : c.isConcrete = true) {plan : ClassPlan} (hplan : plan.Plans t c)
    (discriminator : String) : (ClassCodec.of discriminator plan).Within t.scope := by
  obtain rfl := hplan.type_eq
  have hclass := mem_classes.mpr hc
  constructor
  case parser =>
    show t.scope.parser plan.stem.camel
    rw [hplan.stem_eq]
    exact h.parser_class hc hconcrete
  case type => exact h.type_class hc hconcrete
  case method => exact isWord_transformName (h.sound.isIdentifier_of_mem_classes hclass)
  case slots =>
    refine List.forall_mem_map.mpr fun p hp => ?_
    obtain ⟨a, ha, hplans⟩ := exists_of_mem_forall₂ hplan.parameters.flip hp
    exact h.slot_within hclass ha hplans
  case entries =>
    refine List.forall_mem_map.mpr fun m hm => ?_
    obtain ⟨p, hp, hplans⟩ := exists_of_mem_forall₂ hplan.members.flip hm
    exact h.entry_within hclass hp hplans

/-- The choices of an interface are concrete classes, which have routines. -/
theorem interfaceCodec_within {c : Class} (hc : .classType c ∈ t.types) {i : Interface}
    (hi : t.interface? c.name = some i) (discriminator : String) :
    (InterfaceCodec.of discriminator (.spell i)).Within t.scope := by
  have hname := name_of_interface? hi
  have hsome : (t.interface? c.name).isSome = true := by rw [hi]; rfl
  constructor
  case parser =>
    show t.scope.parser (interfaceStem i.name)
    rw [hname]
    exact h.parser_interfaceStem hc hsome
  case type =>
    show t.scope.type (interfaceName i.name)
    rw [hname]
    exact h.type_interfaceName hc hsome
  case choices =>
    refine List.forall_mem_map.mpr (List.forall_mem_map.mpr fun name hname => ?_)
    obtain ⟨x, hfind, hconcrete⟩ :=
      h.closed.implementers i (List.mem_of_find?_eq_some hi) name hname
    have hfound := List.find?_some hfind
    obtain rfl := eq_of_beq hfound
    exact h.parser_class (List.mem_of_find?_eq_some hfind) hconcrete

theorem typeCodec_within {s : NamedType} (hs : s ∈ t.types) {p : TypePlan} (hp : p.Plans t s)
    (discriminator : String) :
    ∀ codec ∈ TypeCodec.ofType discriminator p, codec.Within t.scope := by
  cases hp with
  | enumeration e =>
    have hid := h.sound.identified _ hs
    refine List.forall_mem_singleton.mpr (.enumeration ?_)
    exact
      { parser := h.parser_enumeration hs
        writer := h.writer_of_mem hs
        type := h.type_enumeration hs
        fromTable := isWord_fromTableName hid
        toTable := isWord_toTableName hid
        apart := ⟨fromTableName_ne _, toTableName_ne _⟩
        literals := List.forall_mem_map.mpr fun l hl =>
          Name.isWord_capital (h.literals_identified e hs l hl) }
  | constrained c => exact fun codec hcodec => nomatch hcodec
  | @classType c plan hplan =>
    obtain rfl := hplan.type_eq
    intro codec hcodec
    simp only [TypeCodec.ofType, hplan.interface_eq] at hcodec
    rcases List.mem_append.mp hcodec with hcodec | hcodec
    · obtain ⟨_, hspell, rfl⟩ := Option.map_eq_some_iff.mp (Option.mem_toList.mp hcodec)
      obtain ⟨i, hi, rfl⟩ := Option.map_eq_some_iff.mp hspell
      exact .interface (h.interfaceCodec_within hs hi discriminator)
    · split at hcodec
      · next hconcrete =>
        obtain rfl := List.mem_singleton.mp hcodec
        exact .classType (h.classCodec_within hs hconcrete hplan discriminator)
      · cases hcodec

/-- **The codec module refers to what is declared for the types.** -/
theorem codecModule_within {plan : Plan} (hplan : plan.Plans t) (o : Options) :
    (CodecModule.of plan o).Within t.scope := by
  intro codec hcodec
  obtain ⟨p, hp, hcodec⟩ := List.mem_flatMap.mp hcodec
  obtain ⟨s, hs, hplans⟩ := exists_of_mem_forall₂ hplan.types.flip hp
  exact h.typeCodec_within hs hplans o.discriminatorKey codec hcodec

end Table.Linked

/-! ## Tables that are loaded -/

namespace Document.Clean

variable {key : String} {document : Document} (h : document.Clean key)

include h

theorem literals_identified (hid : document.Identified) {e : Enumeration}
    (he : .enumeration e ∈ document.table.types) :
    ∀ l ∈ e.literals, Name.isIdentifier l.name = true := by
  rw [h.types_table] at he
  obtain ⟨d, hd, heq⟩ := List.mem_map.mp he
  cases d with
  | enumeration d =>
    obtain rfl := NamedType.enumeration.inj heq
    have hidentified : d.Identified := hid.2 _ hd
    exact List.forall_mem_map.mpr fun l hl => hidentified.2 l hl
  | constrained | classType => cases heq

/-- A parent has a descendant, and so it has an interface. -/
theorem parents_interfaced {c : ClassDecl} (hc : c ∈ Outline.classesOf document.types)
    {name : String} (hname : name ∈ ((Outline.ofTypes document.types).classOf c).parents) :
    (document.table.interface? name).isSome = true := by
  obtain ⟨parent, hparent, rfl⟩ := List.mem_map.mp (Outline.parentsOf_known h.names_nodup hname)
  have hmem := (Outline.mem_descendantsOf h.names_nodup hc).mpr (.single hname)
  rw [h.interface?_table hparent, if_neg (List.ne_nil_of_mem hmem)]
  rfl

theorem linked_table (hid : document.Identified) : document.table.Linked key where
  sound := h.sound_table hid
  closed := h.closed_table
  literals_identified _ he := h.literals_identified hid he
  parents_interfaced := h.forall_classes fun _ hc _ hname => h.parents_interfaced hc hname

end Document.Clean

theorem Model.linked_of_load {key : String} {value : Json} {table : Table}
    (h : Model.load key value = .ok table) : table.Linked key := by
  obtain ⟨document, -, hclean, hid, rfl⟩ := Model.clean_of_load h
  exact hclean.linked_table hid

end WireModel
