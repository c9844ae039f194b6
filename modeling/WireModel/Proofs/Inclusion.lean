import WireModel.Proofs.Closure

/-!
# Documents with more types

Two documents without problems, of which `larger` has every type of `document`, in any order and
with any others between them. This module says what the tables of the two have in common: all that
is resolved about a type of `document` is the same in both, but for the classes that descend from
it.

## The architecture

* Names: what a search finds among fewer types it finds among more (`find?_key_of_subset`), so that
  texts spell the same types and constants are the same defaults.
* The hierarchy: a chain of parents that begins in `document` stays there
  (**`Document.Clean.transGen_iff_of_subset`**), so that a class has the same listing of ancestors
  (`Hierarchy.Visits.congr`), and with it the same properties
  (**`Document.Clean.attributesOf_of_subset`**).
* Descriptions: a reference that resolves refers to the same element in both
  (`Document.Clean.lookup_of_subset`), and none is left unresolved in `document`.
* **`Document.Clean.typeOf_of_subset`** and **`Document.Clean.classOf_of_subset`** put the entries
  of the two tables together.
-/

namespace WireModel

/-! ## Searching among more -/

section Find

variable {α κ : Type} [BEq κ] [LawfulBEq κ] {key : α → κ} {items more : List α}

/-- Where keys differ, a search finds what it finds among fewer items. -/
theorem find?_key_of_subset (hmore : (more.map key).Nodup) (hsub : items ⊆ more) {k : κ} {a : α}
    (h : items.find? (fun b => key b == k) = some a) :
    more.find? (fun b => key b == k) = some a :=
  (find?_key_eq_some_iff hmore).mpr
    ⟨hsub (List.mem_of_find?_eq_some h), by simpa using List.find?_some h⟩

theorem find?_key_eq_of_subset (hmore : (more.map key).Nodup) (hsub : items ⊆ more) {k : κ}
    (hk : k ∈ items.map key) :
    more.find? (fun b => key b == k) = items.find? fun b => key b == k := by
  cases hfind : items.find? fun b => key b == k with
  | none => exact absurd hk (find?_key_eq_none_iff.mp hfind)
  | some a => exact find?_key_of_subset hmore hsub hfind

end Find

/-! ## Types of fields and defaults -/

section Types

variable {types larger : List TypeDecl} (hsub : types ⊆ larger)

include hsub

theorem Outline.classesOf_subset : classesOf types ⊆ classesOf larger :=
  fun _ hc => mem_classesOf.mpr (hsub (mem_classesOf.mp hc))

theorem FieldType.Spells.of_subset {text : String} {type : FieldType Atom}
    (h : Spells types text type) : Spells larger text type :=
  ⟨h.1, fun name hname => List.map_subset _ hsub (h.2 name hname)⟩

theorem FieldType.resolve_of_subset {text : String} {type : FieldType Atom}
    (h : Spells types text type) (subject : Subject) :
    resolve larger subject text = resolve types subject text := by
  rw [resolve_of_spells h, resolve_of_spells (h.of_subset hsub)]

theorem Default.Fits.of_subset {type : FieldType Atom} {value : Constant}
    (h : Fits types type value) : Fits larger type value := by
  cases h with
  | null hoptional => exact .null hoptional
  | literal hlist he hitem hs => exact .literal hlist (hsub he) hitem hs
  | constant hlist hkind hvalue =>
    exact .constant hlist (hkind.imp_right fun ⟨d, hd, hitem⟩ => ⟨d, hsub hd, hitem⟩) hvalue

theorem Argument.Typed.of_subset {d : ArgumentDecl} (h : Typed types d) : Typed larger d := by
  obtain ⟨type, htype, hfits⟩ := h
  exact ⟨type, htype.of_subset hsub, fun value hvalue => (hfits value hvalue).of_subset hsub⟩

theorem Attribute.ofDecl_of_subset {d : PropertyDecl}
    (h : ∃ type, FieldType.Spells types d.type type) (owner : String) :
    ofDecl larger owner d = ofDecl types owner d := by
  obtain ⟨type, htype⟩ := h
  rw [ofDecl, ofDecl, FieldType.resolve_of_subset hsub htype]

variable (hlarger : (larger.map (·.name)).Nodup)

include hlarger

/-- A constant is the same default for a type that mentions declared types only. -/
theorem Default.resolve_of_subset {type : FieldType Atom}
    (hknown : ∀ name, type.item = .named name → name ∈ types.map (·.name)) (subject : Subject)
    (value : Constant) :
    resolve larger subject type value = resolve types subject type value := by
  have hfind : ∀ name, type.item = .named name →
      larger.find? (fun d => d.name == name) = types.find? fun d => d.name == name :=
    fun name hname => find?_key_eq_of_subset hlarger hsub (hknown name hname)
  have henumeration : enumerationOf? larger type.item = enumerationOf? types type.item := by
    cases hitem : type.item with
    | primitive kind => rfl
    | named name => rw [enumerationOf?, enumerationOf?, hfind name hitem]
  have hprimitive : primitiveOf? larger type.item = primitiveOf? types type.item := by
    cases hitem : type.item with
    | primitive kind => rfl
    | named name => rw [primitiveOf?, primitiveOf?, hfind name hitem]
  cases value <;> simp only [resolve, henumeration, hprimitive]

theorem Argument.ofDecl_of_subset {d : ArgumentDecl} (h : Typed types d) (owner : String) :
    ofDecl larger owner d = ofDecl types owner d := by
  obtain ⟨type, htype, -⟩ := h
  have hdefault := Default.resolve_of_subset hsub hlarger htype.2 (.argument owner d.name)
  simp only [ofDecl, FieldType.resolve_of_spells htype,
    FieldType.resolve_of_spells (htype.of_subset hsub), hdefault]

end Types

/-! ## Descriptions -/

/-- A description is decided by what its references refer to. -/
theorem Description.parse_congr {lookup lookup' : Lookup} {s : String}
    (h : ∀ r ∈ mentions s, lookup' r = lookup r) : parse lookup' s = parse lookup s := by
  have hpieces : ∀ p ∈ paragraphPieces s, p.map (Piece.resolve lookup')
      = p.map (Piece.resolve lookup) := by
    intro p hp
    refine List.map_congr_left fun piece hpiece => ?_
    cases piece with
    | text => rfl
    | mention r =>
      have hr : r ∈ mentions s :=
        List.mem_filterMap.mpr ⟨_, List.mem_flatten.mpr ⟨p, hp, hpiece⟩, rfl⟩
      rw [Piece.resolve, Piece.resolve, h r hr]
  rw [parse, parse, List.map_congr_left hpieces]

/-! ## Two documents -/

namespace Document.Clean

variable {key key' : String} {document larger : Document} (h : document.Clean key)

include h

/-- What is inherited from is a class. -/
theorem mem_classNames_of_inherits {child parent : String}
    (hinherits : document.Inherits child parent) :
    parent ∈ (Outline.classesOf document.types).map (·.name) := by
  rw [Inherits, ← h.parentsOf_eq] at hinherits
  exact Outline.parentsOf_known h.names_nodup hinherits

theorem mem_classNames_of_reaches {c : ClassDecl} (hc : c ∈ Outline.classesOf document.types)
    {a : String} (hreach : Relation.ReflTransGen document.Inherits c.name a) :
    a ∈ (Outline.classesOf document.types).map (·.name) := by
  cases hreach with
  | refl => exact List.mem_map_of_mem hc
  | tail _ hinherits => exact h.mem_classNames_of_inherits hinherits

variable (h' : larger.Clean key') (hsub : document.types ⊆ larger.types)

include h' hsub

theorem parentsOf_of_subset {name : String}
    (hname : name ∈ (Outline.classesOf document.types).map (·.name)) :
    larger.parentsOf name = document.parentsOf name := by
  obtain ⟨c, hc, rfl⟩ := List.mem_map.mp hname
  rw [parentsOf_of_mem h.names_nodup hc,
    parentsOf_of_mem h'.names_nodup (Outline.classesOf_subset hsub hc)]

/-- **A chain of parents that begins in the smaller document stays there.** -/
theorem transGen_iff_of_subset {c : ClassDecl} (hc : c ∈ Outline.classesOf document.types)
    {a : String} :
    Relation.TransGen larger.Inherits c.name a ↔ Relation.TransGen document.Inherits c.name a := by
  have hstep : ∀ {child parent : String},
      child ∈ (Outline.classesOf document.types).map (·.name) →
      (larger.Inherits child parent ↔ document.Inherits child parent) := by
    intro child parent hchild
    rw [Inherits, Inherits, h.parentsOf_of_subset h' hsub hchild]
  have hclass : ∀ {b : String}, Relation.TransGen document.Inherits c.name b →
      b ∈ (Outline.classesOf document.types).map (·.name) :=
    fun hb => h.mem_classNames_of_reaches hc hb.to_reflTransGen
  have hself := List.mem_map_of_mem (f := (·.name)) hc
  constructor
  · intro hchain
    induction hchain with
    | single hfirst => exact .single ((hstep hself).mp hfirst)
    | tail _ hlast ih => exact ih.tail ((hstep (hclass ih)).mp hlast)
  · intro hchain
    induction hchain with
    | single hfirst => exact .single ((hstep hself).mpr hfirst)
    | tail hchain hlast ih => exact ih.tail ((hstep (hclass hchain)).mpr hlast)

theorem ownOf_of_subset {name : String}
    (hname : name ∈ (Outline.classesOf document.types).map (·.name)) :
    Outline.ownOf larger.types name = Outline.ownOf document.types name := by
  obtain ⟨c, hc, rfl⟩ := List.mem_map.mp hname
  rw [Outline.ownOf_eq h.names_nodup hc,
    Outline.ownOf_eq h'.names_nodup (Outline.classesOf_subset hsub hc)]
  exact List.map_congr_left fun d hd =>
    Attribute.ofDecl_of_subset hsub (h.accepted.properties_typed c hc d hd) c.name

/-- **A class has the same properties in both.** They are listed along its ancestors, which are
the same. -/
theorem attributesOf_of_subset {c : ClassDecl} (hc : c ∈ Outline.classesOf document.types) :
    (Outline.ofTypes larger.types).attributesOf c.name
      = (Outline.ofTypes document.types).attributesOf c.name := by
  obtain ⟨listed, hvisits, heq⟩ := Outline.exists_listing h.names_nodup h.properties c hc
  obtain ⟨listed', hvisits', heq'⟩ := Outline.exists_listing h'.names_nodup h'.properties c
    (Outline.classesOf_subset hsub hc)
  rw [h.parentsOf_eq] at hvisits
  rw [h'.parentsOf_eq] at hvisits'
  have hclass : ∀ name ∈ listed, name ∈ (Outline.classesOf document.types).map (·.name) :=
    fun name hname => h.mem_classNames_of_reaches hc (hvisits.mem_iff.mp hname)
  obtain rfl := (hvisits.congr fun name hname =>
    h.parentsOf_of_subset h' hsub (hclass name hname)).unique hvisits'
  rw [heq, heq', List.flatMap_def, List.flatMap_def, List.map_congr_left fun name hname =>
    h.ownOf_of_subset h' hsub (hclass name hname)]

/-! ### Descriptions -/

theorem propertyRef?_of_subset {owner property : String} {inline : Inline}
    (hfind : (Outline.ofTypes document.types).propertyRef? owner property = some inline) :
    (Outline.ofTypes larger.types).propertyRef? owner property = some inline := by
  rw [Outline.propertyRef?, show (Outline.ofTypes document.types).class? owner
    = Outline.classOf? document.types owner from rfl] at hfind
  rw [Outline.propertyRef?, show (Outline.ofTypes larger.types).class? owner
    = Outline.classOf? larger.types owner from rfl]
  cases hclass : Outline.classOf? document.types owner with
  | none =>
    rw [hclass] at hfind
    simp at hfind
  | some c =>
    obtain ⟨hc, rfl⟩ := (Outline.classOf?_eq_some_iff h.names_nodup).mp hclass
    rw [hclass] at hfind
    rw [(Outline.classOf?_eq_some_iff h'.names_nodup).mpr
      ⟨Outline.classesOf_subset hsub hc, rfl⟩, h.attributesOf_of_subset h' hsub hc]
    exact hfind

/-- A reference that resolves refers to the same element in both. -/
theorem lookup_of_subset {within : Option String} {r : Mention} {inline : Inline}
    (hfind : (Outline.ofTypes document.types).lookup within r = some inline) :
    (Outline.ofTypes larger.types).lookup within r = some inline := by
  obtain ⟨role, target⟩ := r
  cases role with
  | type =>
    simp only [Outline.lookup] at hfind ⊢
    split at hfind
    · next hany =>
      obtain ⟨d, hd, hname⟩ := List.any_eq_true.mp hany
      have hany' : ((Outline.ofTypes larger.types).types.any fun d => d.name == target) = true :=
        List.any_eq_true.mpr ⟨d, hsub hd, hname⟩
      rw [if_pos hany']
      exact hfind
    · cases hfind
  | property =>
    simp only [Outline.lookup] at hfind ⊢
    split at hfind
    · exact h.propertyRef?_of_subset h' hsub hfind
    · obtain ⟨owner, hwithin, hfind⟩ := Option.bind_eq_some_iff.mp hfind
      exact Option.bind_eq_some_iff.mpr
        ⟨owner, hwithin, h.propertyRef?_of_subset h' hsub hfind⟩

theorem describe_of_subset {within prose : Option String}
    (hdescribed : document.Described within prose) :
    (Outline.ofTypes larger.types).describe within prose
      = (Outline.ofTypes document.types).describe within prose := by
  cases prose with
  | none => rfl
  | some s =>
    refine Description.parse_congr fun r hr => ?_
    have hsome := (isSome_lookup_iff h.names_nodup h.keeps_eq h.properties).mpr
      (hdescribed s rfl r hr)
    obtain ⟨inline, hfind⟩ := Option.isSome_iff_exists.mp hsome
    rw [hfind, h.lookup_of_subset h' hsub hfind]

/-! ### Entries -/

theorem literalOf_of_subset {l : LiteralDecl} (hdescribed : document.Described none l.description) :
    (Outline.ofTypes larger.types).literalOf l = (Outline.ofTypes document.types).literalOf l := by
  rw [Outline.literalOf, Outline.literalOf, h.describe_of_subset h' hsub hdescribed]

theorem properties_of_subset {c : ClassDecl} (hc : c ∈ Outline.classesOf document.types) :
    ((Outline.ofTypes larger.types).classOf c).properties
      = ((Outline.ofTypes document.types).classOf c).properties := by
  show ((Outline.ofTypes larger.types).attributesOf c.name).map _
    = ((Outline.ofTypes document.types).attributesOf c.name).map _
  rw [h.attributesOf_of_subset h' hsub hc]
  refine List.map_congr_left fun entry hentry => ?_
  -- a property is described where it is declared
  obtain ⟨a, d, ⟨ha, -, hd⟩, rfl⟩ :=
    (mem_attributesOf_iff h.names_nodup h.keeps_eq h.properties hc).mp hentry
  have hdescribed : document.DescribedType (.classType a) :=
    h.accepted.types_described _ (Outline.mem_classesOf.mp ha)
  rw [Outline.propertyOf, Outline.propertyOf]
  exact congrArg _ (h.describe_of_subset h' hsub (hdescribed.2 d hd))

theorem arguments_of_subset {c : ClassDecl} (hc : c ∈ Outline.classesOf document.types) :
    ((Outline.ofTypes larger.types).classOf c).arguments
      = ((Outline.ofTypes document.types).classOf c).arguments := by
  cases harguments : c.arguments with
  | none =>
    rw [Outline.arguments_classOf_of_none _ _ harguments,
      Outline.arguments_classOf_of_none _ _ harguments, h.attributesOf_of_subset h' hsub hc]
  | some decls =>
    rw [h.arguments_eq hc harguments, h'.arguments_eq (Outline.classesOf_subset hsub hc) harguments]
    exact List.map_congr_left fun d hd => Argument.ofDecl_of_subset hsub h'.names_nodup
      (h.accepted.arguments_typed c hc decls harguments d hd) c.name

/-- **A class is the same in both, but for its descendants.** -/
theorem classOf_of_subset {c : ClassDecl} (hc : c ∈ Outline.classesOf document.types) :
    (Outline.ofTypes larger.types).classOf c
      = { (Outline.ofTypes document.types).classOf c with
          descendants := (Outline.ofTypes larger.types).descendantsOf c.name } := by
  have hparents : (Outline.ofTypes larger.types).parentsOf c.name
      = (Outline.ofTypes document.types).parentsOf c.name := by
    rw [h.parentsOf_eq, h'.parentsOf_eq]
    exact h.parentsOf_of_subset h' hsub (List.mem_map_of_mem hc)
  have hdescribed : document.DescribedType (.classType c) :=
    h.accepted.types_described _ (Outline.mem_classesOf.mp hc)
  have hdescription := h.describe_of_subset h' hsub hdescribed.1
  have hproperties := h.properties_of_subset h' hsub hc
  have harguments := h.arguments_of_subset h' hsub hc
  simp only [Outline.classOf] at hproperties harguments ⊢
  rw [hparents, hproperties, harguments, hdescription]

/-- **A type that is not a class is the same in both.** -/
theorem typeOf_of_subset {d : TypeDecl} (hd : d ∈ document.types) (hclass : d.class? = none) :
    (Outline.ofTypes larger.types).typeOf d = (Outline.ofTypes document.types).typeOf d := by
  have hdescribed := h.accepted.types_described d hd
  cases d with
  | enumeration e =>
    have hliterals := List.map_congr_left fun l hl =>
      h.literalOf_of_subset h' hsub (hdescribed.2 l hl)
    rw [Outline.typeOf, Outline.typeOf, hliterals, h.describe_of_subset h' hsub hdescribed.1]
  | constrained c =>
    rw [Outline.typeOf, Outline.typeOf, h.describe_of_subset h' hsub hdescribed]
  | classType c => cases hclass

end Document.Clean

end WireModel
