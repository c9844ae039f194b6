import WireModel.Codec.Plan
import WireModel.Proofs.Closure

/-!
# Documents without their free text

The *skeleton* of a document is what is left of it without descriptions, values of literals, texts
that are defaults, and the version. Two documents that differ in such texts only have the same
skeleton. A table, and the plan that is made from it, have a skeleton as well.

**`Document.Clean.skeleton_table`** says that the skeleton of the table of a document depends on the
skeleton of the document only, and **`Codec.Plan.of_skeleton`** the same of plans. The reason is the
same at every step: names, types and kinds decide what happens, and free text is carried along. So
each step commutes with taking the free text out, up to what it carries along itself.
-/

namespace WireModel

/-! ## Skeletons of documents -/

def LiteralDecl.skeleton (l : LiteralDecl) : LiteralDecl := ⟨l.name, "", none⟩

def EnumerationDecl.skeleton (d : EnumerationDecl) : EnumerationDecl :=
  ⟨d.name, none, d.literals.map LiteralDecl.skeleton⟩

def ConstrainedDecl.skeleton (d : ConstrainedDecl) : ConstrainedDecl :=
  ⟨d.name, none, d.constrainee⟩

def PropertyDecl.skeleton (p : PropertyDecl) : PropertyDecl := ⟨p.name, p.type, none⟩

def Constant.skeleton : Constant → Constant
  | .text _ => .text ""
  | c => c

/-- A text spells a type whose items are texts. -/
def FieldType.isTextual (types : List TypeDecl) (type : String) : Bool :=
  match FieldType.parse type with
  | .ok a => Default.primitiveOf? types a.item == some .str
  | .error _ => false

/-- The default of an argument is free text if the argument is a text. -/
def ArgumentDecl.skeleton (types : List TypeDecl) (a : ArgumentDecl) : ArgumentDecl :=
  if FieldType.isTextual types a.type then ⟨a.name, a.type, a.default.map Constant.skeleton⟩ else a

def ClassDecl.skeleton (types : List TypeDecl) (c : ClassDecl) : ClassDecl :=
  { c with
    description := none
    properties := c.properties.map PropertyDecl.skeleton
    arguments := c.arguments.map (List.map (ArgumentDecl.skeleton types)) }

def TypeDecl.skeleton (types : List TypeDecl) : TypeDecl → TypeDecl
  | .enumeration d => .enumeration d.skeleton
  | .constrained d => .constrained d.skeleton
  | .classType d => .classType (d.skeleton types)

def TypeDecl.skeletons (types : List TypeDecl) : List TypeDecl := types.map (skeleton types)

/-- What is left of a document without its free text. -/
def Document.skeleton (document : Document) : Document :=
  ⟨document.name, none, none, TypeDecl.skeletons document.types⟩

/-! ## Skeletons of tables -/

def Literal.skeleton (l : Literal) : Literal := ⟨l.name, "", none⟩

def Enumeration.skeleton (e : Enumeration) : Enumeration :=
  ⟨e.name, e.literals.map Literal.skeleton, none⟩

def Constrained.skeleton (c : Constrained) : Constrained := ⟨c.name, c.constrainee, none⟩

def Property.skeleton (p : Property) : Property := ⟨p.name, p.type, p.declaredBy, none⟩

def Default.skeleton : Default → Default
  | .text _ => .text ""
  | d => d

def Argument.skeleton (a : Argument) : Argument := ⟨a.name, a.type, a.default.map Default.skeleton⟩

def Class.skeleton (c : Class) : Class :=
  { c with
    properties := c.properties.map Property.skeleton
    arguments := c.arguments.map Argument.skeleton
    description := none }

def NamedType.skeleton : NamedType → NamedType
  | .enumeration e => .enumeration e.skeleton
  | .constrained c => .constrained c.skeleton
  | .classType c => .classType c.skeleton

def Table.skeleton (t : Table) : Table :=
  ⟨t.name, none, none, t.types.map NamedType.skeleton, t.interfaces⟩

/-! ## Going through a list once -/

/-- Two passes that go along with each other give results that go along with each other. -/
theorem sift_result_map {α α' β β' γ ε ε' : Type} {step : List β → α → Option β × List ε}
    {step' : List β' → α' → Option β' × List ε'} {g : β → γ} {k : β' → γ} {h : α → α'}
    (hstep : ∀ kept kept' a, kept'.map k = kept.map g →
      (step' kept' (h a)).1.map k = (step kept a).1.map g)
    (items : List α) {kept : List β} {kept' : List β'} (hkept : kept'.map k = kept.map g) :
    (sift step' kept' (items.map h)).1.map k = (sift step kept items).1.map g := by
  induction items generalizing kept kept' with
  | nil => exact hkept
  | cons a items ih =>
    rw [List.map_cons, sift_cons, sift_cons]
    apply ih
    have hresult := hstep kept kept' a hkept
    rw [List.map_append, List.map_append, hkept, ← Option.toList_map, ← Option.toList_map, hresult]

/-! ## Declared types -/

namespace TypeDecl

variable (types : List TypeDecl)

@[simp] theorem name_skeleton (d : TypeDecl) : (d.skeleton types).name = d.name := by
  cases d <;> rfl

theorem find?_skeletons (name : String) :
    (skeletons types).find? (fun d => d.name == name)
      = (types.find? fun d => d.name == name).map (skeleton types) := by
  rw [skeletons, List.find?_map]
  congr 2
  funext d
  exact congrArg (· == name) (name_skeleton types d)

theorem any_skeletons (name : String) :
    (skeletons types).any (fun d => d.name == name) = types.any fun d => d.name == name := by
  rw [skeletons, List.any_map]
  congr 1
  funext d
  exact congrArg (· == name) (name_skeleton types d)

theorem classesOf_skeletons :
    Outline.classesOf (skeletons types)
      = (Outline.classesOf types).map (ClassDecl.skeleton types) := by
  rw [Outline.classesOf, Outline.classesOf, skeletons, List.filterMap_map, List.map_filterMap]
  congr 1
  funext d
  cases d <;> rfl

theorem classOf?_skeletons (name : String) :
    Outline.classOf? (skeletons types) name
      = (Outline.classOf? types name).map (ClassDecl.skeleton types) := by
  rw [Outline.classOf?, classesOf_skeletons, List.find?_map]
  rfl

theorem resolve_skeletons : FieldType.resolve (skeletons types) = FieldType.resolve types := by
  have hunknown : ∀ a : Atom, a.unknown? (skeletons types) = a.unknown? types := by
    intro a
    cases a with
    | primitive kind => rfl
    | named name => rw [Atom.unknown?, Atom.unknown?, any_skeletons]
  funext subject text
  unfold FieldType.resolve
  cases FieldType.parse text with
  | error e => rfl
  | ok a => simp only [hunknown]

/-! ### Parents -/

theorem linkParent_skeletons :
    ClassDecl.linkParent (skeletons types) = ClassDecl.linkParent types := by
  funext child kept parent
  unfold ClassDecl.linkParent
  rw [find?_skeletons]
  cases types.find? fun d => d.name == parent with
  | none => rfl
  | some d => cases d <;> rfl

theorem nodesOf_skeletons : Outline.nodesOf (skeletons types) = Outline.nodesOf types := by
  rw [Outline.nodesOf, Outline.nodesOf, classesOf_skeletons, List.map_map]
  refine List.map_congr_left fun c _ => ?_
  show Hierarchy.Node.mk c.name
    (sift (ClassDecl.linkParent (skeletons types) c.name) [] c.parents).1 = _
  rw [linkParent_skeletons]
  rfl

end TypeDecl

/-! ## Properties -/

/-- An attribute without its description. -/
def Attribute.skeleton (a : Attribute) : Attribute := ⟨a.name, a.type, a.declaredBy, none⟩

namespace Attribute

theorem find?_map_skeleton (attributes : List Attribute) (name : String) :
    find? (attributes.map skeleton) name = (find? attributes name).map skeleton := by
  rw [find?, List.find?_map]
  rfl

theorem inherit_map_skeleton (attributes more : List Attribute) :
    inherit (attributes.map skeleton) (more.map skeleton)
      = (inherit attributes more).map skeleton := by
  rw [inherit, inherit, List.map_append, List.filter_map]
  congr 2
  refine List.filter_congr fun a _ => ?_
  show (find? (attributes.map skeleton) a.name).isNone = _
  rw [find?_map_skeleton, Option.isNone_map]

theorem inheritAll_map_skeleton (parents : List (List Attribute)) :
    inheritAll (parents.map (List.map skeleton)) = (inheritAll parents).map skeleton := by
  have hfold : ∀ attributes : List Attribute,
      (parents.map (List.map skeleton)).foldl inherit (attributes.map skeleton)
        = (parents.foldl inherit attributes).map skeleton := by
    induction parents with
    | nil => exact fun _ => rfl
    | cons more parents ih =>
      intro attributes
      rw [List.map_cons, List.foldl_cons, List.foldl_cons, inherit_map_skeleton, ih]
  exact hfold []

/-- Whether a property is declared does not depend on descriptions. -/
theorem declare_skeletons (types : List TypeDecl) (owner : String) (inherited own : List Attribute)
    (d : PropertyDecl) :
    (declare (TypeDecl.skeletons types) owner (inherited.map skeleton) (own.map skeleton)
      d.skeleton).1 = (declare types owner inherited own d).1.map skeleton := by
  unfold declare
  rw [← List.map_append, find?_map_skeleton, TypeDecl.resolve_skeletons]
  dsimp only [PropertyDecl.skeleton]
  cases find? (inherited ++ own) d.name <;> rfl

theorem effective_skeletons (types : List TypeDecl) (c : ClassDecl)
    (ofParents : List (List Attribute)) :
    effective (TypeDecl.skeletons types) (c.skeleton types) (ofParents.map (List.map skeleton))
      = (effective types c ofParents).map skeleton := by
  have hown : (own (TypeDecl.skeletons types) (c.skeleton types)
      ((inheritAll ofParents).map skeleton)).1
        = (own types c (inheritAll ofParents)).1.map skeleton := by
    rw [← List.map_id (own (TypeDecl.skeletons types) _ _).1]
    refine sift_result_map (k := id) (fun kept kept' d hkept => ?_) c.properties rfl
    rw [List.map_id] at hkept
    rw [hkept, Option.map_id]
    exact declare_skeletons types c.name _ kept d
  rw [effective, effective, inheritAll_map_skeleton, List.map_append, hown]

end Attribute

/-! ## Outlines -/

theorem lookup_map_value {α β : Type} (g : α → β) (table : List (String × α)) (name : String) :
    (table.map fun entry => (entry.1, g entry.2)).lookup name = (table.lookup name).map g := by
  induction table with
  | nil => rfl
  | cons entry table ih =>
    rw [List.map_cons, List.lookup_cons, List.lookup_cons, ih]
    cases name == entry.1 <;> rfl

/-- A value that is computed along a hierarchy can be changed before or after. -/
theorem Hierarchy.tabulate_map {α β : Type} {value : Node → List α → α}
    {value' : Node → List β → β} {g : α → β}
    (h : ∀ node ofParents, value' node (ofParents.map g) = g (value node ofParents))
    (nodes : List Node) :
    tabulate value' nodes = (tabulate value nodes).map fun entry => (entry.1, g entry.2) := by
  have hfold : ∀ table : List (String × α),
      nodes.foldl (fun table node => table
          ++ [(node.name, value' node (node.parents.filterMap fun p => table.lookup p))])
        (table.map fun entry => (entry.1, g entry.2))
      = (nodes.foldl (fun table node => table
          ++ [(node.name, value node (node.parents.filterMap fun p => table.lookup p))])
        table).map fun entry => (entry.1, g entry.2) := by
    induction nodes with
    | nil => exact fun _ => rfl
    | cons node nodes ih =>
      intro table
      have hparents : (node.parents.filterMap fun p =>
            (table.map fun entry => (entry.1, g entry.2)).lookup p)
          = (node.parents.filterMap fun p => table.lookup p).map g := by
        rw [List.map_filterMap]
        exact List.filterMap_congr fun p _ => lookup_map_value g table p
      -- what is looked up for the parents has been changed when it was entered
      rw [List.foldl_cons, List.foldl_cons, hparents, h, ← ih, List.map_append]
      rfl
  exact hfold []

namespace Outline

variable (types : List TypeDecl)

theorem trace_skeletons : (ofTypes (TypeDecl.skeletons types)).trace = (ofTypes types).trace := by
  show Hierarchy.trace (nodesOf _) = _
  rw [TypeDecl.nodesOf_skeletons]
  rfl

theorem order_skeletons : (ofTypes (TypeDecl.skeletons types)).order = (ofTypes types).order := by
  rw [order, trace_skeletons]
  rfl

theorem parentsOf_skeletons (name : String) :
    (ofTypes (TypeDecl.skeletons types)).parentsOf name = (ofTypes types).parentsOf name := by
  rw [parentsOf, order_skeletons]
  rfl

theorem attributesOf_skeletons (name : String) :
    (ofTypes (TypeDecl.skeletons types)).attributesOf name
      = ((ofTypes types).attributesOf name).map Attribute.skeleton := by
  have hnode : ∀ node ofParents,
      attributesOfNode (TypeDecl.skeletons types) node (ofParents.map (List.map Attribute.skeleton))
        = (attributesOfNode types node ofParents).map Attribute.skeleton := by
    intro node ofParents
    rw [attributesOfNode, attributesOfNode, TypeDecl.classOf?_skeletons]
    cases classOf? types node.name with
    | none => exact Attribute.inheritAll_map_skeleton ofParents
    | some c => exact Attribute.effective_skeletons types c ofParents
  have hall : (ofTypes (TypeDecl.skeletons types)).attributes
      = (ofTypes types).attributes.map fun entry => (entry.1, entry.2.map Attribute.skeleton) := by
    show Hierarchy.tabulate _ (Hierarchy.order (ofTypes (TypeDecl.skeletons types)).trace) = _
    rw [trace_skeletons, Hierarchy.tabulate_map hnode]
    rfl
  rw [attributesOf, attributesOf, hall, lookup_map_value]
  cases (ofTypes types).attributes.lookup name <;> rfl

/-! ### Descendants -/

theorem classes_skeletons :
    (ofTypes (TypeDecl.skeletons types)).classes
      = (ofTypes types).classes.map (ClassDecl.skeleton types) :=
  TypeDecl.classesOf_skeletons types

theorem descendantsOf_skeletons :
    (ofTypes (TypeDecl.skeletons types)).descendantsOf = (ofTypes types).descendantsOf := by
  funext name
  rw [descendantsOf, descendantsOf, descendantsIn, descendantsIn, ancestors, order_skeletons,
    classes_skeletons, List.filter_map, List.map_map]
  rfl

theorem implementersOf_skeletons :
    (ofTypes (TypeDecl.skeletons types)).implementersOf = (ofTypes types).implementersOf := by
  funext name
  rw [implementersOf, implementersOf, descendantsOf_skeletons, classes_skeletons, List.filter_map,
    List.map_map]
  rfl

theorem interfaces_skeletons :
    (ofTypes (TypeDecl.skeletons types)).interfaces = (ofTypes types).interfaces := by
  rw [interfaces, interfaces, descendantsOf_skeletons, implementersOf_skeletons, classes_skeletons,
    List.filter_map, List.map_map]
  rfl

end Outline

/-! ## Constructors -/

namespace Default

variable (types : List TypeDecl)

theorem primitiveOf?_skeletons :
    primitiveOf? (TypeDecl.skeletons types) = primitiveOf? types := by
  funext a
  cases a with
  | primitive kind => rfl
  | named name =>
    rw [primitiveOf?, primitiveOf?, TypeDecl.find?_skeletons]
    cases types.find? fun d => d.name == name with
    | none => rfl
    | some d => cases d <;> rfl

theorem enumerationOf?_skeletons (a : Atom) :
    enumerationOf? (TypeDecl.skeletons types) a
      = (enumerationOf? types a).map EnumerationDecl.skeleton := by
  cases a with
  | primitive kind => rfl
  | named name =>
    rw [enumerationOf?, enumerationOf?, TypeDecl.find?_skeletons]
    cases types.find? fun d => d.name == name with
    | none => rfl
    | some d => cases d <;> rfl

theorem ofLiteral?_skeleton (e : EnumerationDecl) (c : Constant) :
    ofLiteral? e.skeleton c = ofLiteral? e c := by
  cases c with
  | text s =>
    rw [ofLiteral?, ofLiteral?, EnumerationDecl.skeleton, List.any_map]
    rfl
  | null | bool | number => rfl

/-- The values of literals do not decide what is a default. -/
theorem resolve_skeletons (subject : Subject) (type : FieldType Atom) (c : Constant) :
    (resolve (TypeDecl.skeletons types) subject type c).1 = (resolve types subject type c).1 := by
  cases c
  case null => rfl
  all_goals
    simp only [resolve, enumerationOf?_skeletons, primitiveOf?_skeletons]
    split
    · rfl
    cases enumerationOf? types type.item with
    | none => rfl
    | some e =>
      simp only [Option.map_some, ofLiteral?_skeleton]
      split <;> rfl

theorem enumerationOf?_eq_none {a : Atom} {kind : Primitive}
    (h : primitiveOf? types a = some kind) : enumerationOf? types a = none := by
  cases a with
  | primitive kind => rfl
  | named name =>
    rw [primitiveOf?] at h
    rw [enumerationOf?]
    cases hfind : types.find? fun d => d.name == name with
    | none => rfl
    | some d =>
      rw [hfind] at h
      cases d with
      | constrained d => rfl
      | enumeration | classType => cases h

/-- The default of a text is free text, whatever it is. -/
theorem resolve_textual {type : FieldType Atom} (h : primitiveOf? types type.item = some .str)
    (subject : Subject) (c : Constant) :
    (resolve types subject type c.skeleton).1.map skeleton
      = (resolve types subject type c).1.map skeleton := by
  cases c with
  | null | bool | number => rfl
  | text s =>
    simp only [resolve, Constant.skeleton, enumerationOf?_eq_none types h, h]
    split <;> rfl

end Default

namespace Argument

variable (types : List TypeDecl)

/-- Where free text is taken out, the argument is a text. -/
theorem primitiveOf?_of_isTextual {text : String} (h : FieldType.isTextual types text = true)
    (subject : Subject) :
    Default.primitiveOf? types (FieldType.resolve types subject text).1.item = some .str := by
  unfold FieldType.isTextual at h
  unfold FieldType.resolve
  cases hparse : FieldType.parse text with
  | error e => rfl
  | ok a =>
    rw [hparse] at h
    dsimp only
    split
    · rfl
    · exact eq_of_beq h

theorem default_skeletons (subject : Subject) (d : ArgumentDecl) :
    (match (d.skeleton types).default with
      | some value => Default.resolve (TypeDecl.skeletons types) subject
          (FieldType.resolve types subject d.type).1 value
      | none => (none, [])).1.map Default.skeleton
    = (match d.default with
      | some value => Default.resolve types subject (FieldType.resolve types subject d.type).1 value
      | none => (none, [])).1.map Default.skeleton := by
  by_cases htextual : FieldType.isTextual types d.type = true
  · have htype := primitiveOf?_of_isTextual types htextual subject
    rw [ArgumentDecl.skeleton, if_pos htextual]
    cases d.default with
    | none => rfl
    | some value =>
      dsimp only [Option.map_some]
      rw [Default.resolve_skeletons]
      exact Default.resolve_textual types htype subject value
  · rw [ArgumentDecl.skeleton, if_neg htextual]
    cases d.default with
    | none => rfl
    | some value => exact congrArg _ (Default.resolve_skeletons types subject _ value)

/-- An argument is declared alike, up to free text. -/
theorem declare_skeletons (owner : String) {kept kept' : List Argument}
    (hkept : kept'.map skeleton = kept.map skeleton) (d : ArgumentDecl) :
    (declare (TypeDecl.skeletons types) owner kept' (d.skeleton types)).1.map skeleton
      = (declare types owner kept d).1.map skeleton := by
  have hname : (d.skeleton types).name = d.name := by
    unfold ArgumentDecl.skeleton
    split <;> rfl
  have htype : (d.skeleton types).type = d.type := by
    unfold ArgumentDecl.skeleton
    split <;> rfl
  have hany : (kept'.any fun a => a.name == d.name) = kept.any fun a => a.name == d.name := by
    have hnames := congrArg (List.any · fun a => a.name == d.name) hkept
    rwa [List.any_map, List.any_map] at hnames
  unfold declare
  rw [hname, htype, hany, TypeDecl.resolve_skeletons]
  split
  · rfl
  · have hdefault := default_skeletons types (.argument owner d.name) d
    exact congrArg (fun x => some (Argument.mk d.name _ x)) hdefault

theorem ofClass_skeletons (c : ClassDecl) (attributes : List Attribute) :
    (ofClass (TypeDecl.skeletons types) (c.skeleton types)
      (attributes.map Attribute.skeleton)).1.map skeleton
        = (ofClass types c attributes).1.map skeleton := by
  unfold ofClass ClassDecl.skeleton
  cases c.arguments with
  | none =>
    dsimp only [Option.map_none]
    rw [List.map_map, List.map_map, List.map_map]
    rfl
  | some decls =>
    exact sift_result_map (fun kept kept' d hkept => declare_skeletons types c.name hkept d)
      decls rfl

end Argument

/-! ## Tables -/

namespace Outline

variable (types : List TypeDecl)

theorem classOf_skeletons (c : ClassDecl) :
    ((ofTypes (TypeDecl.skeletons types)).classOf (c.skeleton types)).skeleton
      = ((ofTypes types).classOf c).skeleton := by
  have hproperties : (((ofTypes (TypeDecl.skeletons types)).attributesOf c.name).map
        (ofTypes (TypeDecl.skeletons types)).propertyOf).map Property.skeleton
      = (((ofTypes types).attributesOf c.name).map (ofTypes types).propertyOf).map
        Property.skeleton := by
    rw [attributesOf_skeletons, List.map_map, List.map_map, List.map_map]
    rfl
  have harguments := Argument.ofClass_skeletons types c ((ofTypes types).attributesOf c.name)
  rw [← attributesOf_skeletons] at harguments
  refine (Class.mk.injEq ..).mpr ⟨rfl, rfl, parentsOf_skeletons types c.name, hproperties,
    harguments, ?_, rfl⟩
  exact congrFun (descendantsOf_skeletons types) c.name

theorem typeOf_skeletons (d : TypeDecl) :
    ((ofTypes (TypeDecl.skeletons types)).typeOf (d.skeleton types)).skeleton
      = ((ofTypes types).typeOf d).skeleton := by
  cases d with
  | enumeration d =>
    have hliterals : ((d.literals.map LiteralDecl.skeleton).map
          (ofTypes (TypeDecl.skeletons types)).literalOf).map Literal.skeleton
        = (d.literals.map (ofTypes types).literalOf).map Literal.skeleton := by
      rw [List.map_map, List.map_map, List.map_map]
      rfl
    exact congrArg (fun ls => NamedType.enumeration ⟨d.name, ls, none⟩) hliterals
  | constrained d => rfl
  | classType d => exact congrArg NamedType.classType (classOf_skeletons types d)

end Outline

/-- The table of declared types, without free text. -/
def TypeDecl.table (name : String) (types : List TypeDecl) : Table :=
  ⟨name, none, none, types.map fun d => ((Outline.ofTypes types).typeOf d).skeleton,
    (Outline.ofTypes types).interfaces⟩

/-- **The skeleton of a table depends on the skeleton of its document only.** -/
theorem Document.Clean.skeleton_table {key : String} {document : Document}
    (h : document.Clean key) :
    document.table.skeleton = TypeDecl.table document.name document.skeleton.types := by
  have htypes : document.table.types.map NamedType.skeleton
      = document.skeleton.types.map fun d =>
        ((Outline.ofTypes document.skeleton.types).typeOf d).skeleton := by
    show _ = (TypeDecl.skeletons document.types).map fun d =>
      ((Outline.ofTypes (TypeDecl.skeletons document.types)).typeOf d).skeleton
    rw [h.types_table, List.map_map, TypeDecl.skeletons, List.map_map]
    exact List.map_congr_left fun d _ => (Outline.typeOf_skeletons document.types d).symm
  have hinterfaces : document.table.interfaces
      = (Outline.ofTypes document.skeleton.types).interfaces := by
    rw [h.interfaces_table]
    exact (Outline.interfaces_skeletons document.types).symm
  rw [Table.skeleton, htypes, hinterfaces]
  rfl

/-! ## Plans -/

namespace Table

variable (t : Table)

theorem find?_skeleton (name : String) :
    t.skeleton.find? name = (t.find? name).map NamedType.skeleton := by
  rw [find?, skeleton, List.find?_map]
  congr 2
  funext s
  cases s <;> rfl

theorem strategy_skeleton : t.skeleton.strategy = t.strategy := by
  have hcarrier : t.skeleton.carrier = t.carrier := by
    funext a
    cases a with
    | primitive kind => rfl
    | named name =>
      rw [carrier, carrier, find?_skeleton]
      cases t.find? name with
      | none => rfl
      | some s => cases s <;> rfl
  funext type
  rw [strategy, hcarrier]
  rfl

end Table

namespace Codec

def Member.skeleton (m : Member) : Member := ⟨m.property.skeleton, m.wire, m.strategy⟩

def Parameter.skeleton (p : Parameter) : Parameter := ⟨p.argument.skeleton, p.wire, p.strategy⟩

def EnumerationPlan.skeleton (e : EnumerationPlan) : EnumerationPlan := ⟨e.type.skeleton, e.stem⟩

def ClassPlan.skeleton (c : ClassPlan) : ClassPlan :=
  { c with
    type := c.type.skeleton
    members := c.members.map Member.skeleton
    parameters := c.parameters.map Parameter.skeleton }

def TypePlan.skeleton : TypePlan → TypePlan
  | .enumeration e => .enumeration e.skeleton
  | .constrained c => .constrained c.skeleton
  | .classType c => .classType c.skeleton

def Plan.skeleton (plan : Plan) : Plan := ⟨plan.table.skeleton, plan.types.map TypePlan.skeleton⟩

theorem mapM_map {ε α α' β β' : Type} {f : α → Except ε β} {f' : α' → Except ε β'} {h : α → α'}
    {g : β → β'} (hf : ∀ a, f' (h a) = (f a).map g) (items : List α) :
    (items.map h).mapM f' = (items.mapM f).map (List.map g) := by
  induction items with
  | nil => rfl
  | cons a items ih =>
    rw [List.map_cons, List.mapM_cons, List.mapM_cons, ih, hf]
    cases f a with
    | error e => rfl
    | ok b => cases items.mapM f <;> rfl

variable (t : Table)

theorem Member.of_skeleton (p : Property) :
    Member.of t.skeleton p.skeleton = (Member.of t p).map Member.skeleton := by
  show (do
    let wire ← camelOf p.name
    let strategy ← t.skeleton.strategy p.type
    .ok (Member.mk p.skeleton wire strategy)) = _
  rw [t.strategy_skeleton, Member.of]
  cases camelOf p.name with
  | error e => rfl
  | ok wire => cases t.strategy p.type <;> rfl

theorem Parameter.of_skeleton (a : Argument) :
    Parameter.of t.skeleton a.skeleton = (Parameter.of t a).map Parameter.skeleton := by
  show (do
    let wire ← camelOf a.name
    let strategy ← t.skeleton.strategy a.type
    .ok (Parameter.mk a.skeleton wire strategy)) = _
  rw [t.strategy_skeleton, Parameter.of]
  cases camelOf a.name with
  | error e => rfl
  | ok wire => cases t.strategy a.type <;> rfl

theorem ClassPlan.of_skeleton (c : Class) :
    ClassPlan.of t.skeleton c.skeleton = (ClassPlan.of t c).map ClassPlan.skeleton := by
  show (do
    let stem ← Stem.of c.name
    let interface ← InterfacePlan.ofClass t c
    let members ← (c.properties.map Property.skeleton).mapM (Member.of t.skeleton)
    let parameters ← (c.arguments.map Argument.skeleton).mapM (Parameter.of t.skeleton)
    .ok (ClassPlan.mk c.skeleton stem interface (t.isDiscriminated c.name) members parameters)) = _
  rw [mapM_map (Member.of_skeleton t), mapM_map (Parameter.of_skeleton t), ClassPlan.of]
  cases Stem.of c.name with
  | error e => rfl
  | ok stem =>
    cases InterfacePlan.ofClass t c with
    | error e => rfl
    | ok interface =>
      cases c.properties.mapM (Member.of t) with
      | error e => rfl
      | ok members => cases c.arguments.mapM (Parameter.of t) <;> rfl

theorem TypePlan.of_skeleton (s : NamedType) :
    TypePlan.of t.skeleton s.skeleton = (TypePlan.of t s).map TypePlan.skeleton := by
  cases s with
  | enumeration e =>
    show (Stem.of e.name).map _ = ((Stem.of e.name).map _).map _
    cases Stem.of e.name <;> rfl
  | constrained c => rfl
  | classType c =>
    show (ClassPlan.of t.skeleton c.skeleton).map _ = ((ClassPlan.of t c).map _).map _
    rw [ClassPlan.of_skeleton]
    cases ClassPlan.of t c <;> rfl

/-- **The skeleton of a plan depends on the skeleton of its table only.** -/
theorem Plan.of_skeleton : Plan.of t.skeleton = (Plan.of t).map Plan.skeleton := by
  show ((t.types.map NamedType.skeleton).mapM (TypePlan.of t.skeleton)).map _
    = ((t.types.mapM (TypePlan.of t)).map _).map _
  rw [mapM_map (TypePlan.of_skeleton t)]
  cases t.types.mapM (TypePlan.of t) <;> rfl

theorem ClassPlan.member?_skeleton (c : ClassPlan) (name : String) :
    c.skeleton.member? name = (c.member? name).map Member.skeleton := by
  rw [member?, skeleton, List.find?_map]
  rfl

theorem Plan.concreteClasses_skeleton (plan : Plan) :
    plan.skeleton.concreteClasses = plan.concreteClasses.map ClassPlan.skeleton := by
  have hclasses : plan.skeleton.classes = plan.classes.map ClassPlan.skeleton := by
    rw [classes, classes, skeleton, List.filterMap_map, List.map_filterMap]
    congr 1
    funext s
    cases s <;> rfl
  rw [concreteClasses, hclasses, List.filter_map]
  rfl

end Codec
end WireModel
