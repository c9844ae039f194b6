import WireModel.Model.Constructor
import WireModel.Proofs.Properties

/-!
# Constructors and defaults

When there is nothing to say about the constructors of a model. Defaults are said to fit by
`Default.Fits`, which looks up the item of a type by membership among the declared types, not by
searching them; **`Default.resolve_silent_iff`** is the bridge. The arguments of a class are a
sieve (`Argument.sieve`), and **`Outline.constructorProblems_eq_nil_iff`** puts both together.
-/

namespace WireModel

/-! ## Defaults -/

/-- The primitive `kind` holds a constant: an integer is held exactly, a float as it is. -/
inductive Primitive.Holds : Primitive → Constant → Prop where
  | bool (b : Bool) : Holds .bool (.bool b)
  | int (x : Binary64) (h : x.isSafeInteger = true) : Holds .int (.number x)
  | float (x : Binary64) : Holds .float (.number x)
  | str (s : String) : Holds .str (.text s)

/-- An item is the primitive `kind`, or that primitive under a name of its own. -/
def Atom.Carries (types : List TypeDecl) (atom : Atom) (kind : Primitive) : Prop :=
  atom = .primitive kind
    ∨ ∃ d, .constrained d ∈ types ∧ atom = .named d.name ∧ d.constrainee = kind

/-- A constant fits a type as a default: `null` if the type is optional, the name of a literal
if the item is an enumeration, a constant that its primitive holds; nothing else fits a list. -/
inductive Default.Fits (types : List TypeDecl) (type : FieldType Atom) : Constant → Prop where
  | null (h : type.isOptional = true) : Fits types type .null
  | literal {e : EnumerationDecl} {s : String} (hlist : type.isList = false)
      (he : .enumeration e ∈ types) (hitem : type.item = .named e.name)
      (hs : s ∈ e.literals.map (·.name)) : Fits types type (.text s)
  | constant {kind : Primitive} {value : Constant} (hlist : type.isList = false)
      (hkind : type.item.Carries types kind) (hvalue : kind.Holds value) : Fits types type value

namespace Default

variable {types : List TypeDecl}

theorem isSome_ofConstant?_iff {kind : Primitive} {value : Constant} :
    (ofConstant? kind value).isSome = true ↔ kind.Holds value := by
  constructor
  · intro h
    unfold ofConstant? at h
    split at h
    · exact .bool _
    · split at h
      · next hsafe => exact .int _ hsafe
      · cases h
    · exact .float _
    · exact .str _
    · cases h
  · intro h
    cases h with
    | int x hsafe => simp [ofConstant?, hsafe]
    | bool | float | str => rfl

theorem isSome_ofLiteral?_iff {e : EnumerationDecl} {value : Constant} :
    (ofLiteral? e value).isSome = true ↔
      ∃ s, value = .text s ∧ s ∈ e.literals.map (·.name) := by
  cases value with
  | text s =>
    rw [ofLiteral?]
    split
    · next hany =>
      obtain ⟨l, hl, hname⟩ := List.any_eq_true.mp hany
      simp only [Option.isSome_some, true_iff]
      exact ⟨s, rfl, List.mem_map.mpr ⟨l, hl, eq_of_beq hname⟩⟩
    · next hany =>
      simp only [Option.isSome_none, Bool.false_eq_true, false_iff]
      rintro ⟨s', heq, hmem⟩
      obtain rfl := Constant.text.inj heq
      obtain ⟨l, hl, hname⟩ := List.mem_map.mp hmem
      exact hany (List.any_eq_true.mpr ⟨l, hl, by simp [hname]⟩)
  | null | bool | number => simp [ofLiteral?]

theorem enumerationOf?_eq_some_iff (hnames : (types.map (·.name)).Nodup) {atom : Atom}
    {e : EnumerationDecl} :
    enumerationOf? types atom = some e ↔ .enumeration e ∈ types ∧ atom = .named e.name := by
  cases atom with
  | primitive kind => simp [enumerationOf?]
  | named name =>
    rw [enumerationOf?]
    constructor
    · intro h
      split at h
      · next d hfind =>
        obtain rfl := Option.some.inj h
        obtain ⟨hd, hname⟩ := (find?_key_eq_some_iff hnames).mp hfind
        exact ⟨hd, congrArg Atom.named hname.symm⟩
      · cases h
    · rintro ⟨he, heq⟩
      have hfind : types.find? (fun d => d.name == name) = some (.enumeration e) :=
        (find?_key_eq_some_iff hnames).mpr ⟨he, (Atom.named.inj heq).symm⟩
      rw [hfind]

theorem primitiveOf?_eq_some_iff (hnames : (types.map (·.name)).Nodup) {atom : Atom}
    {kind : Primitive} : primitiveOf? types atom = some kind ↔ atom.Carries types kind := by
  cases atom with
  | primitive other => simp [primitiveOf?, Atom.Carries]
  | named name =>
    rw [primitiveOf?, Atom.Carries, or_iff_right (by simp)]
    constructor
    · intro h
      split at h
      · next d hfind =>
        obtain ⟨hd, hname⟩ := (find?_key_eq_some_iff hnames).mp hfind
        exact ⟨d, hd, congrArg Atom.named hname.symm, Option.some.inj h⟩
      · cases h
    · rintro ⟨d, hd, heq, hkind⟩
      have hfind : types.find? (fun d => d.name == name) = some (.constrained d) :=
        (find?_key_eq_some_iff hnames).mpr ⟨hd, (Atom.named.inj heq).symm⟩
      rw [hfind]
      exact congrArg some hkind

/-- An item is not both an enumeration and a primitive. -/
theorem not_carries_of_enumeration (hnames : (types.map (·.name)).Nodup) {atom : Atom}
    {e : EnumerationDecl} (he : .enumeration e ∈ types) (hitem : atom = .named e.name)
    (kind : Primitive) : ¬atom.Carries types kind := by
  rintro (heq | ⟨d, hd, heq, -⟩)
  · rw [hitem] at heq
    cases heq
  · have hname : (TypeDecl.enumeration e).name = (TypeDecl.constrained d).name :=
      Atom.named.inj (hitem.symm.trans heq)
    cases List.inj_on_of_nodup_map hnames he hd hname

section Fits

variable {type : FieldType Atom} {value : Constant}

theorem fits_null_iff : Fits types type .null ↔ type.isOptional = true := by
  constructor
  · intro h
    cases h with
    | null hoptional => exact hoptional
    | constant _ _ hvalue => cases hvalue
  · exact .null

theorem not_fits_of_isList (hlist : type.isList = true) (hnull : value ≠ .null) :
    ¬Fits types type value := by
  intro h
  cases h with
  | null => exact hnull rfl
  | literal hnot | constant hnot => rw [hlist] at hnot; cases hnot

/-- For an item that is an enumeration only the names of literals fit. -/
theorem fits_iff_of_enumeration (hnames : (types.map (·.name)).Nodup) {e : EnumerationDecl}
    (hlist : type.isList = false) (hnull : value ≠ .null)
    (hfind : enumerationOf? types type.item = some e) :
    Fits types type value ↔ (ofLiteral? e value).isSome = true := by
  obtain ⟨he, hitem⟩ := (enumerationOf?_eq_some_iff hnames).mp hfind
  rw [isSome_ofLiteral?_iff]
  constructor
  · intro h
    cases h with
    | null => exact absurd rfl hnull
    | constant _ hkind => exact absurd hkind (not_carries_of_enumeration hnames he hitem _)
    | @literal e' s _ he' hitem' hs =>
      have hsame := (enumerationOf?_eq_some_iff hnames).mpr ⟨he', hitem'⟩
      obtain rfl := Option.some.inj (hfind.symm.trans hsame)
      exact ⟨s, rfl, hs⟩
  · rintro ⟨s, rfl, hs⟩
    exact .literal hlist he hitem hs

/-- For any other item only the constants of its primitive fit. -/
theorem fits_iff_of_primitive (hnames : (types.map (·.name)).Nodup)
    (hlist : type.isList = false) (hnull : value ≠ .null)
    (hfind : enumerationOf? types type.item = none) :
    Fits types type value ↔
      ((primitiveOf? types type.item).bind fun kind => ofConstant? kind value).isSome = true := by
  rw [Option.isSome_iff_exists]
  simp only [Option.bind_eq_some_iff, primitiveOf?_eq_some_iff hnames]
  constructor
  · intro h
    cases h with
    | null => exact absurd rfl hnull
    | literal _ he hitem =>
      rw [(enumerationOf?_eq_some_iff hnames).mpr ⟨he, hitem⟩] at hfind
      cases hfind
    | constant _ hkind hvalue =>
      obtain ⟨d, hd⟩ := Option.isSome_iff_exists.mp (isSome_ofConstant?_iff.mpr hvalue)
      exact ⟨d, _, hkind, hd⟩
  · rintro ⟨d, kind, hkind, hd⟩
    have hsome : (ofConstant? kind value).isSome = true := by rw [hd]; rfl
    exact .constant hlist hkind (isSome_ofConstant?_iff.mp hsome)

/-- **There is nothing to say about a default** iff it fits. -/
theorem resolve_silent_iff (hnames : (types.map (·.name)).Nodup) {subject : Subject} :
    (resolve types subject type value).2 = [] ↔ Fits types type value := by
  unfold resolve
  split
  · rw [fits_null_iff]
    cases type.isOptional <;> simp
  next hnull =>
  split
  · next hlist => simp [not_fits_of_isList hlist hnull]
  next hlist =>
  have hlist : type.isList = false := by simpa using hlist
  split
  · next e hfind =>
    rw [fits_iff_of_enumeration hnames hlist hnull hfind]
    split
    · next hsome => simp [hsome]
    · next hnone => simp [hnone]
  · next hfind =>
    rw [fits_iff_of_primitive hnames hlist hnull hfind]
    split
    · next hsome => simp [hsome]
    · next hnone => simp [hnone]

end Fits

end Default

/-! ## Arguments -/

namespace Argument

variable {types : List TypeDecl}

/-- The argument that a declaration of `owner` becomes. -/
def ofDecl (types : List TypeDecl) (owner : String) (d : ArgumentDecl) : Argument :=
  let type := (FieldType.resolve types (.argument owner d.name) d.type).1
  ⟨d.name, type, d.default.bind fun value =>
    (Default.resolve types (.argument owner d.name) type value).1⟩

/-- The type of an argument is known, and its default fits it. -/
def Typed (types : List TypeDecl) (d : ArgumentDecl) : Prop :=
  ∃ type, FieldType.Spells types d.type type
    ∧ ∀ value, d.default = some value → Default.Fits types type value

theorem sieve (hnames : (types.map (·.name)).Nodup) (owner : String) :
    Sieve (declare types owner) (ofDecl types owner) (Typed types) fun k d => k.name ≠ d.name where
  silent kept d := by
    rw [declare]
    split
    · next hany =>
      obtain ⟨k, hk, hname⟩ := List.any_eq_true.mp hany
      simp only [List.cons_ne_nil, false_iff, not_and, not_forall]
      exact fun _ => ⟨k, hk, fun hne => hne (eq_of_beq hname)⟩
    · next hany =>
      have hapart : ∀ k ∈ kept, k.name ≠ d.name :=
        fun k hk heq => hany (List.any_eq_true.mpr ⟨k, hk, by simp [heq]⟩)
      rw [and_iff_left hapart, List.append_eq_nil_iff, FieldType.resolve_silent_iff]
      -- once the type is known, the default is resolved against it
      constructor
      · rintro ⟨⟨type, htype⟩, hdefault⟩
        refine ⟨type, htype, fun value hvalue => ?_⟩
        rw [hvalue, FieldType.resolve_of_spells htype] at hdefault
        exact (Default.resolve_silent_iff hnames).mp hdefault
      · rintro ⟨type, htype, hfits⟩
        refine ⟨⟨type, htype⟩, ?_⟩
        rw [FieldType.resolve_of_spells htype]
        cases hdefault : d.default with
        | none => rfl
        | some value => exact (Default.resolve_silent_iff hnames).mpr (hfits value hdefault)
  keeps kept d h := by
    rw [declare] at h ⊢
    split at h
    · cases h
    · next hany =>
      rw [if_neg hany, ofDecl]
      cases d.default with
      | none => rfl
      | some value => rfl

theorem mismatch_eq_nil_iff {owner : String} {arguments properties : List String} :
    mismatch owner arguments properties = [] ↔
      ∀ name, name ∈ arguments ↔ name ∈ properties := by
  have honly : ∀ names others : List String,
      namesOnlyIn names others = [] ↔ ∀ name ∈ names, name ∈ others := by
    intro names others
    rw [namesOnlyIn, List.filter_eq_nil_iff]
    simp
  rw [mismatch]
  simp only [ite_eq_left_iff, List.cons_ne_nil, imp_false, not_not, Bool.and_eq_true,
    List.isEmpty_iff, honly]
  exact ⟨fun h name => ⟨h.2 name, h.1 name⟩,
    fun h => ⟨fun name => (h name).mpr, fun name => (h name).mp⟩⟩

theorem ofClass_silent_iff (hnames : (types.map (·.name)).Nodup) {c : ClassDecl}
    {attributes : List Attribute} :
    (ofClass types c attributes).2 = [] ↔ ∀ decls, c.arguments = some decls →
      (decls.map (·.name)).Nodup ∧ (∀ d ∈ decls, Typed types d)
        ∧ ∀ name, name ∈ decls.map (·.name) ↔ name ∈ attributes.map (·.name) := by
  rw [ofClass]
  cases harguments : c.arguments with
  | none => simp
  | some decls =>
    have hsieve := sieve hnames c.name
    simp only [List.append_eq_nil_iff, Option.some.injEq, forall_eq']
    constructor
    · rintro ⟨hsilent, hmismatch⟩
      obtain ⟨htyped, hnodup⟩ := (hsieve.silent_iff decls).mp hsilent
      rw [hsieve.result_of_silent hsilent, List.nil_append, List.map_map,
        mismatch_eq_nil_iff] at hmismatch
      exact ⟨List.pairwise_map.mpr hnodup, htyped, hmismatch⟩
    · rintro ⟨hnodup, htyped, hmatch⟩
      have hsilent := (hsieve.silent_iff decls).mpr ⟨htyped, List.pairwise_map.mp hnodup⟩
      refine ⟨hsilent, ?_⟩
      rw [hsieve.result_of_silent hsilent, List.nil_append, List.map_map, mismatch_eq_nil_iff]
      exact hmatch

end Argument

/-- **There is nothing to say about constructors** iff the arguments that a class lists are
different, have known types and fitting defaults, and are named like its properties. -/
theorem Outline.constructorProblems_eq_nil_iff {types : List TypeDecl}
    (hnames : (types.map (·.name)).Nodup) :
    (ofTypes types).constructorProblems = [] ↔
      ∀ c ∈ classesOf types, ∀ decls, c.arguments = some decls →
        (decls.map (·.name)).Nodup ∧ (∀ d ∈ decls, Argument.Typed types d)
          ∧ ∀ name, name ∈ decls.map (·.name) ↔
            name ∈ ((ofTypes types).attributesOf c.name).map (·.name) := by
  rw [constructorProblems, List.flatMap_eq_nil_iff]
  exact forall₂_congr fun c _ => Argument.ofClass_silent_iff hnames

end WireModel
