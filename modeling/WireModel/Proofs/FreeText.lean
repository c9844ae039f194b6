import WireModel.Compile
import WireModel.Proofs.Containment
import WireModel.Proofs.Declarations
import WireModel.Proofs.Skeleton

/-!
# Free text never becomes code

Descriptions, values of literals, texts that are defaults, the version, the banner and the two
module specifiers are free text: whoever writes a document or the options can put anything there.
This module shows that free text has no say in generated code. Two runs whose documents and options
differ in free text only give the same code, once comments and the contents of literals are deleted
(**`Run.free_text_contained`**).

The argument has two halves. By containment, a scanner finds the code of a file exactly in the
pieces of its rows that are code. And the code of the rows depends on the skeletons of the document
and of the options only: each declaration has a skeleton with the same code, and the skeletons of
the declarations are the declarations of the skeletons.
-/

namespace WireModel

open TypeScript Codec

namespace TypeScript

/-! ## The code of rows -/

def Piece.bare (p : Piece) : List Char := p.lexemes.flatMap Lexeme.bare

def Row.bare (r : Row) : List Char := r.lexemes.flatMap Lexeme.bare

/-- What is left of rows without comments and the contents of literals. -/
def Block.bare (rows : Block) : List Char := rows.flatMap Row.bare

theorem Row.bare_eq (r : Row) : r.bare = r.pieces.flatMap Piece.bare := List.flatMap_assoc

theorem Block.flatMap_lexemes (rows : Block) :
    (rows.flatMap Row.lexemes).flatMap Lexeme.bare = rows.bare := List.flatMap_assoc

@[simp] theorem Block.bare_cons (r : Row) (rows : Block) :
    Block.bare (r :: rows) = r.bare ++ Block.bare rows := List.flatMap_cons

@[simp] theorem Block.bare_append (rows more : Block) :
    Block.bare (rows ++ more) = Block.bare rows ++ Block.bare more := List.flatMap_append

/-- A row keeps its code if one of its pieces is replaced by a piece with the same code. -/
theorem Row.bare_replace (level : Nat) (before after : List Piece) {p q : Piece}
    (h : p.bare = q.bare) :
    (Row.mk level (before ++ p :: after)).bare = (Row.mk level (before ++ q :: after)).bare := by
  simp only [Row.bare_eq, List.flatMap_append, List.flatMap_cons, h]

theorem Row.bare_code (level : Nat) (s : String) :
    (Row.code level s).bare = (s.toList.flatMap visible).flatMap Lexeme.bare := by
  rw [Row.bare_eq]
  exact List.append_nil _

theorem Row.bare_comment (level : Nat) (text : String) : (Row.comment level text).bare = [] := by
  rw [Row.bare_eq]
  show (if text = " */" then [Lexeme.comment] else []).flatMap Lexeme.bare ++ [] = []
  split <;> rfl

@[simp] theorem Block.bare_docRows (level : Nat) (paragraphs : List String) :
    Block.bare (docRows level paragraphs) = [] :=
  List.flatMap_eq_nil_iff.mpr (List.forall_mem_map.mpr fun text _ => Row.bare_comment level text)

@[simp] theorem Block.bare_bannerRows (banner : List String) :
    Block.bare (bannerRows banner) = [] :=
  List.flatMap_eq_nil_iff.mpr (List.forall_mem_map.mpr fun text _ => Row.bare_comment 0 text)

theorem Block.bare_flatMap {α : Type} (items : List α) (f : α → Block) :
    Block.bare (items.flatMap f) = items.flatMap fun a => Block.bare (f a) := List.flatMap_assoc

/-- The rows between blocks are blank. -/
theorem Block.bare_joinBlocks (blocks : List Block) :
    Block.bare (joinBlocks blocks) = blocks.flatMap Block.bare :=
  flatMap_joinBlocks rfl blocks

/-- Rows have the same code if their pieces do, one by one. -/
theorem Block.bare_map_congr {α : Type} {items : List α} {f g : α → Row}
    (h : ∀ a ∈ items, (f a).bare = (g a).bare) :
    Block.bare (items.map f) = Block.bare (items.map g) := by
  rw [Block.bare, Block.bare, List.flatMap_map, List.flatMap_map]
  exact List.flatMap_congr h

/-! ## Skeletons of declarations -/

def Value.skeleton : Value → Value
  | .text _ => .text ""
  | v => v

def LiteralDeclaration.skeleton (l : LiteralDeclaration) : LiteralDeclaration := ⟨[], l.name⟩

def FieldDeclaration.skeleton (f : FieldDeclaration) : FieldDeclaration := ⟨[], f.name, f.type⟩

def ParameterDeclaration.skeleton (p : ParameterDeclaration) : ParameterDeclaration :=
  { p with
    initializer := p.initializer.map Value.skeleton
    fallback := p.fallback.map Value.skeleton }

def Declaration.skeleton : Declaration → Declaration
  | .enumeration _ name literals =>
    .enumeration [] name (literals.map LiteralDeclaration.skeleton)
  | .interface _ name bases fields =>
    .interface [] name bases (fields.map FieldDeclaration.skeleton)
  | .classType _ name bases fields parameters visit =>
    .classType [] name bases (fields.map FieldDeclaration.skeleton)
      (parameters.map ParameterDeclaration.skeleton) visit
  | .handwritten name => .handwritten name

def TypesModule.skeleton (m : TypesModule) : TypesModule :=
  ⟨[], m.visits, m.declarations.map Declaration.skeleton⟩

theorem Value.bare_skeleton (v : Value) : v.skeleton.piece.bare = v.piece.bare := by
  cases v <;> rfl

theorem LiteralDeclaration.bare_skeleton (l : LiteralDeclaration) :
    Block.bare l.skeleton.rows = Block.bare l.rows := by
  rw [rows, rows, Block.bare_append, Block.bare_append, Block.bare_docRows, Block.bare_docRows]
  rfl

theorem FieldDeclaration.bare_skeleton (f : FieldDeclaration) :
    Block.bare f.skeleton.rows = Block.bare f.rows := by
  rw [rows, rows, Block.bare_append, Block.bare_append, Block.bare_docRows, Block.bare_docRows]
  rfl

namespace ParameterDeclaration

theorem bare_row_skeleton (p : ParameterDeclaration) (ending : String) :
    (p.skeleton.row ending).bare = (p.row ending).bare := by
  rw [row, row, skeleton]
  cases p.initializer with
  | none => rfl
  | some value =>
    exact Row.bare_replace 2 [_] [_] value.bare_skeleton

theorem bare_assignment_skeleton (p : ParameterDeclaration) :
    p.skeleton.assignment.bare = p.assignment.bare := by
  rw [assignment, assignment, skeleton]
  cases p.fallback with
  | none => rfl
  | some value =>
    exact Row.bare_replace 2 [_] [_] value.bare_skeleton

theorem bare_rows_skeleton (parameters : List ParameterDeclaration) :
    Block.bare (rows (parameters.map skeleton)) = Block.bare (rows parameters) := by
  fun_induction rows parameters with
  | case1 => rfl
  | case2 p =>
    rw [List.map_singleton, rows, Block.bare_cons, bare_row_skeleton, ← Block.bare_cons]
  | case3 p rest hrest ih =>
    rw [List.map_cons, rows, Block.bare_cons, Block.bare_cons, bare_row_skeleton, ih]
    simpa using hrest

end ParameterDeclaration

theorem bare_constructorRows_skeleton (parameters : List ParameterDeclaration) :
    Block.bare (constructorRows (parameters.map ParameterDeclaration.skeleton))
      = Block.bare (constructorRows parameters) := by
  have hassignments : Block.bare ((parameters.map ParameterDeclaration.skeleton).map
        ParameterDeclaration.assignment)
      = Block.bare (parameters.map ParameterDeclaration.assignment) := by
    rw [List.map_map]
    exact Block.bare_map_congr fun p _ => p.bare_assignment_skeleton
  unfold constructorRows
  -- a skeleton has a constructor if and only if the declaration has one
  rw [List.isEmpty_map]
  split
  · rfl
  · simp only [Block.bare_append, ParameterDeclaration.bare_rows_skeleton, hassignments]

/-- A declaration has the same code whether or not it has members. -/
theorem bare_bracedRows {members more : Block} (head : String)
    (h : Block.bare members = Block.bare more) :
    Block.bare (bracedRows head members) = Block.bare (bracedRows head more) := by
  have hcode : ∀ members : Block, Block.bare (bracedRows head members)
      = (Row.code 0 (head ++ " \x7b")).bare ++ (Block.bare members ++ ['\x7d']) := by
    intro members
    unfold bracedRows
    split
    · next hempty =>
      rw [List.isEmpty_iff.mp hempty, Block.bare_cons, Row.bare_code, Row.bare_code,
        String.toList_append, String.toList_append, List.flatMap_append, List.flatMap_append,
        List.flatMap_append, List.flatMap_append, List.append_assoc, List.append_assoc]
      rfl
    · rw [Block.bare_cons, Block.bare_append]
      rfl
  rw [hcode, hcode, h]

theorem Declaration.bare_skeleton (d : Declaration) (snippets : Snippets) :
    Block.bare (d.skeleton.emit snippets).1 = Block.bare (d.emit snippets).1 := by
  have hfields : ∀ fields : List FieldDeclaration,
      Block.bare ((fields.map FieldDeclaration.skeleton).flatMap FieldDeclaration.rows)
        = Block.bare (fields.flatMap FieldDeclaration.rows) := by
    intro fields
    rw [Block.bare_flatMap, Block.bare_flatMap, List.flatMap_map]
    exact List.flatMap_congr fun f _ => f.bare_skeleton
  cases d with
  | enumeration doc name literals =>
    rw [skeleton, emit, emit, Block.bare_append, Block.bare_append, Block.bare_docRows,
      Block.bare_docRows]
    refine congrArg _ (bare_bracedRows _ ?_)
    rw [Block.bare_flatMap, Block.bare_flatMap, List.flatMap_map]
    exact List.flatMap_congr fun l _ => l.bare_skeleton
  | interface doc name bases fields =>
    rw [skeleton, emit, emit, Block.bare_append, Block.bare_append, Block.bare_docRows,
      Block.bare_docRows]
    exact congrArg _ (bare_bracedRows _ (hfields fields))
  | classType doc name bases fields parameters visit =>
    rw [skeleton, emit, emit, Block.bare_append, Block.bare_append, Block.bare_docRows,
      Block.bare_docRows]
    refine congrArg _ (bare_bracedRows _ ?_)
    rw [Block.bare_joinBlocks, Block.bare_joinBlocks]
    simp only [List.flatMap_cons, hfields, bare_constructorRows_skeleton]
  | handwritten name => rfl

theorem TypesModule.bare_skeleton (m : TypesModule) (snippets : Snippets) :
    Block.bare (m.skeleton.emit snippets).1 = Block.bare (m.emit snippets).1 := by
  have hdeclarations : (((m.declarations.map Declaration.skeleton).map
        (Declaration.emit snippets)).map (·.1)).flatMap Block.bare
      = ((m.declarations.map (Declaration.emit snippets)).map (·.1)).flatMap Block.bare := by
    rw [List.map_map, List.map_map, List.map_map, List.flatMap_map, List.flatMap_map]
    exact List.flatMap_congr fun d _ => d.bare_skeleton snippets
  rw [emit, emit, Block.bare_joinBlocks, Block.bare_joinBlocks, List.flatMap_append,
    List.flatMap_append]
  simp only [List.flatMap_cons, Block.bare_bannerRows]
  exact congrArg _ hdeclarations

/-- Snippets matter to handwritten classes only. -/
theorem TypesModule.emit_congr {m : TypesModule} (h : ∀ name, .handwritten name ∉ m.declarations)
    (snippets more : Snippets) : m.emit snippets = m.emit more := by
  have hdeclarations : m.declarations.map (Declaration.emit snippets)
      = m.declarations.map (Declaration.emit more) := by
    refine List.map_congr_left fun d hd => ?_
    cases d with
    | handwritten name => exact absurd hd (h name)
    | enumeration | interface | classType => rfl
  rw [emit, emit, hdeclarations]

theorem TypesModule.emit_ne_nil (m : TypesModule) (snippets : Snippets) :
    (m.emit snippets).1 ≠ [] := by
  have hroot : Row.code 0 "\x7d" ∈ rootRows := by simp [rootRows]
  exact List.ne_nil_of_mem (mem_joinBlocks (by simp) hroot)

theorem CodecModule.emit_ne_nil (m : CodecModule) (snippets : Snippets) :
    (m.emit snippets).1 ≠ [] := by
  have hdeclares : m.Declares snippets "toJsonable" := declares_toJsonable
  obtain ⟨row, hrow, -⟩ := hdeclares
  exact List.ne_nil_of_mem hrow

/-! ## The module of types of a plan -/

theorem Value.ofDefault_skeleton (strategy : Strategy) (d : Default) :
    ofDefault strategy d.skeleton = (ofDefault strategy d).skeleton := by
  cases d with
  | number x =>
    show ofDefault strategy (.number x) = _
    rw [ofDefault]
    split <;> rfl
  | bool | text | literal => rfl

namespace Declaration

variable (t : Table)

theorem parameterOf_skeleton (c : ClassPlan) (p : Parameter) :
    parameterOf c.skeleton p.skeleton = (parameterOf c p).skeleton := by
  have hdefault : (p.argument.default.map Default.skeleton).map (Value.ofDefault p.strategy)
      = (p.argument.default.map (Value.ofDefault p.strategy)).map Value.skeleton := by
    rw [Option.map_map, Option.map_map]
    exact Option.map_congr fun d _ => Value.ofDefault_skeleton p.strategy d
  have hmember : (c.skeleton.member? p.argument.name).map (fun m => m.strategy.isOptional)
      = (c.member? p.argument.name).map fun m => m.strategy.isOptional := by
    rw [c.member?_skeleton, Option.map_map]
    rfl
  refine (ParameterDeclaration.mk.injEq ..).mpr ⟨rfl, rfl, ?_, rfl, ?_⟩
  · simp only [parameterOf, Parameter.skeleton, Argument.skeleton, hmember, hdefault]
    split
    · split
      · rw [Option.map_some]
        cases p.argument.default <;> rfl
      · rfl
    · rfl
  · simp only [parameterOf, Parameter.skeleton, Argument.skeleton, hmember, hdefault]
    split <;> rfl

theorem interfaceOf_skeleton (c : ClassPlan) :
    interfaceOf t.skeleton c.skeleton = (interfaceOf t c).skeleton := by
  have hown : ((c.members.map Member.skeleton).filter fun m => m.property.declaredBy == c.name).map
        (fieldOf t.skeleton)
      = ((c.members.filter fun m => m.property.declaredBy == c.name).map (fieldOf t)).map
        FieldDeclaration.skeleton := by
    rw [List.filter_map, List.map_map, List.map_map]
    rfl
  exact congrArg (Declaration.interface [] _ _) hown

theorem classOf_skeleton (c : ClassPlan) :
    classOf t.skeleton c.skeleton = (classOf t c).skeleton := by
  have hfields : (c.members.map Member.skeleton).map (fieldOf t.skeleton)
      = (c.members.map (fieldOf t)).map FieldDeclaration.skeleton := by
    rw [List.map_map, List.map_map]
    rfl
  have hparameters : (c.parameters.map Parameter.skeleton).map (parameterOf c.skeleton)
      = (c.parameters.map (parameterOf c)).map ParameterDeclaration.skeleton := by
    rw [List.map_map, List.map_map]
    exact List.map_congr_left fun p _ => parameterOf_skeleton c p
  unfold classOf
  show (if c.type.isHandwritten then _ else _) = _
  split
  · rfl
  · refine (Declaration.classType.injEq ..).mpr ⟨rfl, rfl, rfl, hfields, hparameters, rfl⟩

theorem ofType_skeleton (s : TypePlan) :
    ofType t.skeleton s.skeleton = (ofType t s).map skeleton := by
  cases s with
  | enumeration e =>
    have hliterals : (e.type.literals.map Literal.skeleton).map
          (fun l =>
            LiteralDeclaration.mk (docParagraphs t.skeleton l.description) (typeName l.name))
        = (e.type.literals.map fun l =>
          LiteralDeclaration.mk (docParagraphs t l.description) (typeName l.name)).map
            LiteralDeclaration.skeleton := by
      rw [List.map_map, List.map_map]
      rfl
    exact congrArg (fun ls => [Declaration.enumeration [] _ ls]) hliterals
  | constrained c => rfl
  | classType c =>
    show (if c.type.isConcrete then
      (if c.interface.isSome then [interfaceOf t.skeleton c.skeleton] else [])
        ++ [classOf t.skeleton c.skeleton]
      else [interfaceOf t.skeleton c.skeleton]) = _
    rw [interfaceOf_skeleton, classOf_skeleton, ofType]
    split
    · split <;> rfl
    · rfl

end Declaration

theorem TypesModule.of_skeleton (plan : Plan) (banner : List String) :
    TypesModule.of plan.skeleton [] = (TypesModule.of plan banner).skeleton := by
  refine (TypesModule.mk.injEq ..).mpr ⟨rfl, ?_, ?_⟩
  · rw [plan.concreteClasses_skeleton, List.map_map]
    rfl
  · show (plan.types.map TypePlan.skeleton).flatMap _ = (plan.types.flatMap _).map _
    rw [List.flatMap_map, List.map_flatMap]
    exact List.flatMap_congr fun s _ => Declaration.ofType_skeleton plan.table s

/-! ## The codec module -/

def EnumerationCodec.skeleton (e : EnumerationCodec) : EnumerationCodec :=
  { e with literals := e.literals.map fun l => ("", l.2) }

def TypeCodec.skeleton : TypeCodec → TypeCodec
  | .enumeration e => .enumeration e.skeleton
  | codec => codec

def CodecModule.skeleton (m : CodecModule) : CodecModule :=
  ⟨[], "", "", m.codecs.map TypeCodec.skeleton⟩

namespace EnumerationCodec

theorem bare_fromTableRows_skeleton (e : EnumerationCodec) :
    Block.bare e.skeleton.fromTableRows = Block.bare e.fromTableRows := by
  have hliterals : Block.bare (e.skeleton.literals.map fun l =>
        ⟨2, [.code "[", .literal l.1, .code (", " ++ e.literalName l.2 ++ "],")]⟩)
      = Block.bare (e.literals.map fun l =>
        ⟨2, [.code "[", .literal l.1, .code (", " ++ e.literalName l.2 ++ "],")]⟩) := by
    rw [skeleton, List.map_map]
    exact Block.bare_map_congr fun l _ => Row.bare_replace 2 [_] [_] rfl
  rw [fromTableRows, fromTableRows, Block.bare_append, Block.bare_append, Block.bare_append,
    Block.bare_append, ← hliterals]
  rfl

theorem bare_toTableRows_skeleton (e : EnumerationCodec) :
    Block.bare e.skeleton.toTableRows = Block.bare e.toTableRows := by
  have hliterals : Block.bare (e.skeleton.literals.map fun l =>
        ⟨2, [.code ("[" ++ e.literalName l.2 ++ ", "), .literal l.1, .code "],"]⟩)
      = Block.bare (e.literals.map fun l =>
        ⟨2, [.code ("[" ++ e.literalName l.2 ++ ", "), .literal l.1, .code "],"]⟩) := by
    rw [skeleton, List.map_map]
    exact Block.bare_map_congr fun l _ => Row.bare_replace 2 [_] [_] rfl
  rw [toTableRows, toTableRows, Block.bare_append, Block.bare_append, Block.bare_append,
    Block.bare_append, ← hliterals]
  rfl

end EnumerationCodec

namespace CodecModule

theorem enumerations_skeleton (m : CodecModule) :
    m.skeleton.enumerations = m.enumerations.map EnumerationCodec.skeleton := by
  rw [enumerations, enumerations, skeleton, List.filterMap_map, List.map_filterMap]
  congr 1
  funext codec
  cases codec <;> rfl

theorem classes_skeleton (m : CodecModule) : m.skeleton.classes = m.classes := by
  rw [classes, classes, skeleton, List.filterMap_map]
  congr 1
  funext codec
  cases codec <;> rfl

theorem bare_skeleton (m : CodecModule) (snippets : Snippets) :
    Block.bare (m.skeleton.emit snippets).1 = Block.bare (m.emit snippets).1 := by
  have htables : (m.skeleton.enumerations.flatMap fun e => [e.fromTableRows, e.toTableRows]).flatMap
        Block.bare
      = (m.enumerations.flatMap fun e => [e.fromTableRows, e.toTableRows]).flatMap Block.bare := by
    rw [m.enumerations_skeleton, List.flatMap_map, List.flatMap_assoc, List.flatMap_assoc]
    refine List.flatMap_congr fun e _ => ?_
    simp only [List.flatMap_cons, EnumerationCodec.bare_fromTableRows_skeleton,
      EnumerationCodec.bare_toTableRows_skeleton]
  have hroutines : m.skeleton.codecs.flatMap (TypeCodec.emitRoutines snippets)
      = m.codecs.flatMap (TypeCodec.emitRoutines snippets) := by
    rw [skeleton, List.flatMap_map]
    refine List.flatMap_congr fun codec _ => ?_
    cases codec <;> rfl
  have hwriters : m.skeleton.enumerations.map EnumerationCodec.writeRows
      = m.enumerations.map EnumerationCodec.writeRows := by
    rw [m.enumerations_skeleton, List.map_map]
    rfl
  have himports : Block.bare (importRows m.skeleton.runtimeModule m.skeleton.typesModule)
      = Block.bare (importRows m.runtimeModule m.typesModule) :=
    congrArg₂ (fun a b => a ++ (b ++ [])) (Row.bare_replace 0 [_] [_] rfl)
      (Row.bare_replace 0 [_] [_] rfl)
  rw [emit, emit, Block.bare_joinBlocks, Block.bare_joinBlocks, hroutines, hwriters,
    m.classes_skeleton]
  simp only [List.flatMap_append, List.flatMap_cons, Block.bare_bannerRows, htables, himports]

/-- Snippets matter to handwritten classes only. -/
theorem emit_congr {m : CodecModule} (h : ∀ c ∈ m.classes, c.isHandwritten = false)
    (snippets more : Snippets) : m.emit snippets = m.emit more := by
  have hroutines : m.codecs.flatMap (TypeCodec.emitRoutines snippets)
      = m.codecs.flatMap (TypeCodec.emitRoutines more) := by
    refine List.flatMap_congr fun codec hcodec => ?_
    cases codec with
    | classType c =>
      have hc := h c (List.mem_filterMap.mpr ⟨_, hcodec, rfl⟩)
      rw [TypeCodec.emitRoutines, TypeCodec.emitRoutines, ClassCodec.emitParse,
        ClassCodec.emitParse, hc]
      rfl
    | enumeration | interface => rfl
  have hmethods : m.classes.map (ClassCodec.emitMethod snippets)
      = m.classes.map (ClassCodec.emitMethod more) := by
    refine List.map_congr_left fun c hc => ?_
    rw [ClassCodec.emitMethod, ClassCodec.emitMethod, h c hc]
    rfl
  rw [emit, emit, hroutines, hmethods]

end CodecModule
end TypeScript

/-- Options without the free text among them. -/
def Options.skeleton (o : Options) : Options :=
  { o with banner := [], runtimeModule := "", typesModule := "" }

namespace TypeScript

theorem CodecModule.of_skeleton (plan : Plan) (o : Options) :
    CodecModule.of plan.skeleton o.skeleton = (CodecModule.of plan o).skeleton := by
  have htype : ∀ s : TypePlan, TypeCodec.ofType o.discriminatorKey s.skeleton
      = (TypeCodec.ofType o.discriminatorKey s).map TypeCodec.skeleton := by
    intro s
    cases s with
    | enumeration e =>
      have hliterals : (e.type.literals.map Literal.skeleton).map
            (fun l => (l.value, typeName l.name))
          = (e.type.literals.map fun l => (l.value, typeName l.name)).map fun l => ("", l.2) := by
        rw [List.map_map, List.map_map]
        rfl
      exact congrArg (fun ls => [TypeCodec.enumeration ⟨_, _, _, _, ls⟩]) hliterals
    | constrained c => rfl
    | classType c =>
      have hclass : ClassCodec.of o.discriminatorKey c.skeleton
          = ClassCodec.of o.discriminatorKey c := by
        refine (ClassCodec.mk.injEq ..).mpr ⟨rfl, rfl, rfl, rfl, rfl, rfl, ?_, ?_⟩
        · exact List.map_map
        · exact List.map_map
      show (c.interface.map _).toList ++ (if c.type.isConcrete then
        [TypeCodec.classType (.of o.discriminatorKey c.skeleton)] else []) = _
      rw [hclass, TypeCodec.ofType, List.map_append]
      cases c.interface <;> split <;> rfl
  refine (CodecModule.mk.injEq ..).mpr ⟨rfl, rfl, rfl, ?_⟩
  show (plan.types.map TypePlan.skeleton).flatMap _ = (plan.types.flatMap _).map _
  rw [List.flatMap_map, List.map_flatMap]
  exact List.flatMap_congr fun s _ => htype s

end TypeScript

/-! ## Models without handwritten classes -/

/-- The code of every class is generated. -/
def Document.IsGenerated (document : Document) : Prop :=
  ∀ c ∈ Outline.classesOf document.types, c.kind.isHandwritten = false

instance (document : Document) : Decidable document.IsGenerated :=
  inferInstanceAs (Decidable (∀ c ∈ Outline.classesOf document.types, _))

theorem Document.isGenerated_skeleton (document : Document) :
    document.skeleton.IsGenerated ↔ document.IsGenerated := by
  show (∀ c ∈ Outline.classesOf (TypeDecl.skeletons document.types), _) ↔ _
  rw [TypeDecl.classesOf_skeletons, List.forall_mem_map]
  rfl

namespace Codec.Plan.Plans

variable {t : Table} {plan : Plan} (h : plan.Plans t)
  (hgenerated : ∀ c ∈ t.classes, c.isHandwritten = false)

include h hgenerated

theorem class_generated {c : ClassPlan} (hc : .classType c ∈ plan.types) :
    c.type.isHandwritten = false := by
  obtain ⟨s, hs, hplans⟩ := exists_of_mem_forall₂ h.types.flip hc
  cases hplans with
  | classType hclass =>
    rw [hclass.type_eq]
    exact hgenerated _ (Table.mem_classes.mpr hs)

theorem typesModule_generated (banner : List String) (name : String) :
    .handwritten name ∉ (TypesModule.of plan banner).declarations := by
  intro hd
  obtain ⟨s, hs, hd⟩ := List.mem_flatMap.mp hd
  cases s with
  | enumeration | constrained => simp [Declaration.ofType, Declaration.ofEnumeration] at hd
  | classType c =>
    have hclass := h.class_generated hgenerated hs
    simp only [Declaration.ofType, Declaration.classOf, hclass, Declaration.interfaceOf] at hd
    split at hd
    · split at hd <;> simp at hd
    · simp at hd

theorem codecModule_generated (o : Options) :
    ∀ c ∈ (CodecModule.of plan o).classes, c.isHandwritten = false := by
  intro c hc
  obtain ⟨codec, hcodec, heq⟩ := List.mem_filterMap.mp hc
  obtain ⟨s, hs, hcodec⟩ := List.mem_flatMap.mp hcodec
  cases s with
  | enumeration e =>
    obtain rfl := List.mem_singleton.mp hcodec
    cases heq
  | constrained => cases hcodec
  | classType p =>
    obtain hinterface | hclass := List.mem_append.mp hcodec
    · obtain ⟨i, -, rfl⟩ := Option.map_eq_some_iff.mp (Option.mem_toList.mp hinterface)
      cases heq
    · split at hclass
      · obtain rfl := List.mem_singleton.mp hclass
        cases heq
        exact h.class_generated hgenerated hs
      · cases hclass

end Codec.Plan.Plans

theorem Options.isIndent_of_resolve {settings : Settings} {o : Options}
    (h : Options.resolve settings = .ok o) : isIndent o.indent = true := by
  have hcheck : o.check = none := check_of_resolve h
  -- the indentation is the third of the checks
  unfold check at hcheck
  split at hcheck
  · cases hcheck
  split at hcheck
  · cases hcheck
  split at hcheck
  · cases hcheck
  · next hindent => simpa using hindent

theorem Options.isBlankText_indent {settings : Settings} {o : Options}
    (h : Options.resolve settings = .ok o) : IsBlankText o.indent := by
  have hindent := isIndent_of_resolve h
  rw [isIndent, Bool.and_eq_true, Bool.or_eq_true, List.all_eq_true, List.all_eq_true] at hindent
  intro c hc
  rcases hindent.2 with hspaces | htabs
  · rw [eq_of_beq (hspaces c hc)]
    decide
  · rw [eq_of_beq (htabs c hc)]
    decide

/-! ## Runs -/

/-- A run that gives out the files of the typescript target. -/
structure Run where
  settings : Settings
  options : Options
  value : Json
  document : Document
  table : Table
  plan : Plan
  snippets : Snippets
  files : List File
  accepted : Options.resolve settings = .ok options
  decoded : Document.decode? value = some document
  loaded : compile value options = .ok table
  planned : Plan.of table = .ok plan
  generated : generate table .typescript options snippets = .ok (.ok files)

namespace Run

/-- The rows of the module of types. -/
def types (r : Run) : Block := ((TypesModule.of r.plan r.options.banner).emit r.snippets).1

/-- The rows of the codec module. -/
def codec (r : Run) : Block := ((CodecModule.of r.plan r.options).emit r.snippets).1

/-- Every comment and every literal of the files ends where it is meant to: the files are made of
rows that a scanner reads as their pieces say. -/
structure ReadAsWritten (r : Run) : Prop where
  texts : r.files.map (fun f => (f.path, f.content.toList))
    = [("types.ts", r.types.chars r.options.indent),
      ("jsonization.ts", r.codec.chars r.options.indent)]
  indent : IsBlankText r.options.indent
  types : r.types.Contained
  codec : r.codec.Contained

variable (r : Run)

theorem files_eq : r.files = [⟨"types.ts", renderFile r.options.indent r.types⟩,
    ⟨"jsonization.ts", renderFile r.options.indent r.codec⟩] := by
  have hgenerated := r.generated
  rw [generate, r.planned] at hgenerated
  exact (Codec.Plan.generate_eq_ok (Except.ok.inj hgenerated)).2

theorem clean : r.document.Clean r.options.discriminatorKey ∧ r.document.table = r.table := by
  obtain ⟨document, hdecode, hclean, -, htable⟩ := Model.clean_of_load r.loaded
  obtain rfl := Option.some.inj (hdecode.symm.trans r.decoded)
  exact ⟨hclean, htable⟩

/-- The skeleton of the plan of a run depends on the skeleton of its document only. -/
theorem planned_skeleton :
    Plan.of (TypeDecl.table r.document.skeleton.name r.document.skeleton.types)
      = .ok r.plan.skeleton := by
  obtain ⟨hclean, htable⟩ := r.clean
  have hskeleton := hclean.skeleton_table
  rw [htable] at hskeleton
  have hplan := Plan.of_skeleton r.table
  rwa [r.planned, hskeleton] at hplan

section Generated

variable {r} (h : r.document.IsGenerated)

include h

theorem classes_generated : ∀ c ∈ r.table.classes, c.isHandwritten = false := by
  obtain ⟨hclean, htable⟩ := r.clean
  rw [← htable]
  exact hclean.forall_classes h

theorem readAsWritten : r.ReadAsWritten where
  texts := by
    have htypes : r.types ≠ [] := TypesModule.emit_ne_nil _ _
    have hcodec : r.codec ≠ [] := CodecModule.emit_ne_nil _ _
    rw [r.files_eq, List.map_cons, List.map_singleton, toList_renderFile _ htypes,
      toList_renderFile _ hcodec]
  indent := Options.isBlankText_indent r.accepted
  types :=
    ((Model.linked_of_load r.loaded).typesModule_within (Plan.plans_of_eq_ok r.planned) _).contained
      ((Plan.plans_of_eq_ok r.planned).typesModule_generated (classes_generated h) _) _
  codec :=
    ((Model.linked_of_load r.loaded).codecModule_within (Plan.plans_of_eq_ok r.planned) _).contained
      ((Plan.plans_of_eq_ok r.planned).codecModule_generated (classes_generated h) _) _

/-- The code of the module of types is that of its skeleton. -/
theorem bare_types :
    Block.bare r.types = Block.bare ((TypesModule.of r.plan.skeleton []).emit []).1 := by
  have hgenerated := (Plan.plans_of_eq_ok r.planned).typesModule_generated (classes_generated h)
    r.options.banner
  rw [TypesModule.of_skeleton r.plan r.options.banner, TypesModule.bare_skeleton, types,
    TypesModule.emit_congr hgenerated r.snippets []]

theorem bare_codec :
    Block.bare r.codec
      = Block.bare ((CodecModule.of r.plan.skeleton r.options.skeleton).emit []).1 := by
  have hgenerated := (Plan.plans_of_eq_ok r.planned).codecModule_generated (classes_generated h)
    r.options
  rw [CodecModule.of_skeleton, CodecModule.bare_skeleton, codec,
    CodecModule.emit_congr hgenerated r.snippets []]

theorem stripped_files : r.files.map (fun f => (f.path, stripped f.content))
    = [("types.ts", Block.bare ((TypesModule.of r.plan.skeleton []).emit []).1),
      ("jsonization.ts",
        Block.bare ((CodecModule.of r.plan.skeleton r.options.skeleton).emit []).1)] := by
  have hread := readAsWritten h
  rw [r.files_eq, List.map_cons, List.map_singleton, stripped, stripped,
    hread.types.lexemesOf_renderFile hread.indent, hread.codec.lexemesOf_renderFile hread.indent,
    Block.flatMap_lexemes, Block.flatMap_lexemes, bare_types h, bare_codec h]

end Generated
end Run

/-- **Free text never becomes code.** Runs whose documents and options differ in free text only give
files that are equal but for comments, the contents of literals and blanks, and in the files of both
every comment and every literal ends where it is meant to. -/
theorem Run.free_text_contained {r s : Run} (hgenerated : r.document.IsGenerated)
    (hdocuments : r.document.skeleton = s.document.skeleton)
    (hoptions : r.options.skeleton = s.options.skeleton) :
    r.files.map (fun f => (f.path, stripped f.content))
        = s.files.map (fun f => (f.path, stripped f.content))
      ∧ r.ReadAsWritten ∧ s.ReadAsWritten := by
  have hgenerated' : s.document.IsGenerated := by
    rwa [← s.document.isGenerated_skeleton, ← hdocuments, r.document.isGenerated_skeleton]
  -- the plans may differ in free text, but their skeletons come from one skeleton of documents
  have hplans : r.plan.skeleton = s.plan.skeleton := by
    have hplanned := r.planned_skeleton
    rw [hdocuments, s.planned_skeleton] at hplanned
    exact (Except.ok.inj hplanned).symm
  refine ⟨?_, readAsWritten hgenerated, readAsWritten hgenerated'⟩
  rw [stripped_files hgenerated, stripped_files hgenerated', hplans, hoptions]

theorem exists_run (settings : Settings) (value : Json) (snippets : Snippets)
    (haccepted : Options.resolve settings = .ok (.ofSettings settings))
    (h : ((compile value (.ofSettings settings)).toOption.any fun t =>
      (generate t .typescript (.ofSettings settings) snippets).toOption.any (·.toOption.isSome))
        = true) :
    ∃ r : Run, r.settings = settings ∧ r.options = .ofSettings settings ∧ r.value = value := by
  obtain ⟨table, files, hcompile, hfiles⟩ := exists_files h
  obtain ⟨document, hdecode, -⟩ := Model.clean_of_load hcompile
  obtain ⟨plan, hplan, -⟩ := map_eq_ok_iff.mp hfiles
  exact ⟨⟨settings, .ofSettings settings, value, document, table, plan, snippets, files, haccepted,
    hdecode, hcompile, hplan, hfiles⟩, rfl, rfl, rfl⟩

/-- A model with free text wherever there can be some. -/
def leaflet (prose wire default version : String) : Json :=
  .object [("name", .text "leaflet"), ("version", .text version), ("description", .text prose),
    ("types", .array [
      .object [("kind", .text "enumeration"), ("name", .text "tone"), ("description", .text prose),
        ("literals", .array [
          .object [("name", .text "loud"), ("value", .text wire), ("description", .text prose)]])],
      .object [("kind", .text "concreteClass"), ("name", .text "page"),
        ("description", .text prose),
        ("properties", .array [
          .object [("name", .text "title"), ("type", .text "Optional[str]"),
            ("description", .text prose)]]),
        ("constructorArguments", .array [
          .object [("name", .text "title"), ("type", .text "Optional[str]"),
            ("default", .text default)]])]])]

def plainLeaflet : Json := leaflet "Says it." "l" "untitled" "1"

/-- Free text that tries to get out of its comment or out of its literal. -/
def forgedLeaflet : Json :=
  leaflet "*/ export const forged = 1; /*" "\\'; forged(); '" "\\" "*/"

def forgedSettings : Settings :=
  { banner := some ["/* '"], runtimeModule := some "'; forged(); '", typesModule := some "\\" }

theorem leaflets_contained : ∃ r s : Run, r.value = plainLeaflet ∧ s.value = forgedLeaflet
    ∧ r.settings = {} ∧ s.settings = forgedSettings
    ∧ r.files.map (fun f => (f.path, stripped f.content))
        = s.files.map (fun f => (f.path, stripped f.content))
    ∧ r.ReadAsWritten ∧ s.ReadAsWritten := by
  obtain ⟨r, hrsettings, hroptions, hrvalue⟩ := exists_run {} plainLeaflet [] rfl
    (by decide +kernel)
  obtain ⟨s, hssettings, hsoptions, hsvalue⟩ := exists_run forgedSettings forgedLeaflet [] rfl
    (by decide +kernel)
  have hgenerated : r.document.IsGenerated := by
    have hall : ((Document.decode? plainLeaflet).all fun d => decide d.IsGenerated) = true := by
      decide +kernel
    rw [← hrvalue, r.decoded] at hall
    exact of_decide_eq_true hall
  have hdocuments : r.document.skeleton = s.document.skeleton := by
    have hskeletons : (Document.decode? plainLeaflet).map Document.skeleton
        = (Document.decode? forgedLeaflet).map Document.skeleton := by decide +kernel
    rw [← hrvalue, ← hsvalue, r.decoded, s.decoded] at hskeletons
    exact Option.some.inj hskeletons
  have hoptions : r.options.skeleton = s.options.skeleton := by
    rw [hroptions, hsoptions]
    rfl
  exact ⟨r, s, hrvalue, hsvalue, hrsettings, hssettings,
    Run.free_text_contained hgenerated hdocuments hoptions⟩

end WireModel
