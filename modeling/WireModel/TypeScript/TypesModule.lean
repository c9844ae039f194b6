import WireModel.Emission.Log
import WireModel.TypeScript.Doc
import WireModel.TypeScript.TypeExpr

/-!
# The module of types

The declarations of `types.ts`: an enumeration for each enumeration of the model, an interface for
each abstract class and for each class with descendants, and a class for each concrete class. The
declaration of a handwritten class is its snippet. Two declarations that do not depend on the
model come first: the common interface of all classes and the transformer that visits them.
-/

namespace WireModel.TypeScript

/-! ## Declarations -/

/-- The paragraphs of the comment before a declaration. -/
abbrev Doc := List String

structure LiteralDeclaration where
  doc : Doc
  name : String
  deriving DecidableEq, Repr

structure FieldDeclaration where
  doc : Doc
  name : String
  type : TypeExpr
  deriving DecidableEq, Repr

/-- A parameter of a constructor with the value that it has when it is left out, and the field
that it is assigned to, with the value to fall back to when it is `null`. -/
structure ParameterDeclaration where
  name : String
  type : TypeExpr
  initializer : Option Value
  field : String
  fallback : Option Value
  deriving DecidableEq, Repr

inductive Declaration where
  | enumeration (doc : Doc) (name : String) (literals : List LiteralDeclaration)
  | interface (doc : Doc) (name : String) (bases : List String) (fields : List FieldDeclaration)
  | classType (doc : Doc) (name : String) (bases : List String) (fields : List FieldDeclaration)
      (parameters : List ParameterDeclaration) (visit : String)
  /-- The declaration of the model class `name`, from its snippet. -/
  | handwritten (name : String)
  deriving DecidableEq, Repr

/-- A method of the transformer and the class that it visits. -/
structure VisitDeclaration where
  method : String
  type : String
  deriving DecidableEq, Repr

structure TypesModule where
  banner : List String
  visits : List VisitDeclaration
  declarations : List Declaration
  deriving DecidableEq, Repr

/-! ## From the plan to declarations -/

namespace Declaration

/-- The common interface of all classes. -/
def rootInterface : String := "IClass"

def ofEnumeration (t : Table) (e : Enumeration) : Declaration :=
  .enumeration (docParagraphs t e.description) (typeName e.name)
    (e.literals.map fun l => ⟨docParagraphs t l.description, typeName l.name⟩)

def fieldOf (t : Table) (m : Codec.Member) : FieldDeclaration :=
  ⟨docParagraphs t m.property.description, bindingName m.wire, .ofStrategy m.strategy⟩

/-- The interfaces of the parents of a class, or the common one if it has none. -/
def parentInterfaces (c : Class) : List String :=
  if c.parents.isEmpty then [rootInterface] else c.parents.map interfaceName

/-- The interface of a class, with the properties that it declares itself. -/
def interfaceOf (t : Table) (c : Codec.ClassPlan) : Declaration :=
  let own := c.members.filter fun m => m.property.declaredBy == c.name
  .interface (docParagraphs t c.type.description) (interfaceName c.name)
    (parentInterfaces c.type) (own.map (fieldOf t))

/-- What a class implements: its own interface if it has one. -/
def implemented (c : Codec.ClassPlan) : List String :=
  if c.interface.isSome then [interfaceName c.name] else parentInterfaces c.type

/-- A parameter of the constructor of a class. An optional argument of a required property takes
`null` for its default, and the assignment replaces `null` by the default of the model. -/
def parameterOf (c : Codec.ClassPlan) (p : Codec.Parameter) : ParameterDeclaration :=
  let default := p.argument.default.map (Value.ofDefault p.strategy)
  let isOptionalProperty := (c.member? p.argument.name).map fun m => m.strategy.isOptional
  { name := bindingName p.wire
    type := .ofStrategy p.strategy
    initializer :=
      if p.strategy.isOptional then
        some (if isOptionalProperty = some true then default.getD .null else .null)
      else none
    field := bindingName p.wire
    fallback :=
      if p.strategy.isOptional ∧ isOptionalProperty = some false then default else none }

def classOf (t : Table) (c : Codec.ClassPlan) : Declaration :=
  if c.type.isHandwritten then .handwritten c.name
  else
    .classType (docParagraphs t c.type.description) (typeName c.name) (implemented c)
      (c.members.map (fieldOf t)) (c.parameters.map (parameterOf c)) (transformName c.name)

/-- The declarations for a type of the model. -/
def ofType (t : Table) : Codec.TypePlan → List Declaration
  | .enumeration e => [ofEnumeration t e.type]
  | .constrained _ => []
  | .classType c =>
    if c.type.isConcrete then
      (if c.interface.isSome then [interfaceOf t c] else []) ++ [classOf t c]
    else [interfaceOf t c]

end Declaration

def TypesModule.of (plan : Codec.Plan) (banner : List String) : TypesModule :=
  { banner
    visits := plan.concreteClasses.map fun c => ⟨transformName c.name, typeName c.name⟩
    declarations := plan.types.flatMap (Declaration.ofType plan.table) }

/-! ## From declarations to rows -/

/-- A declaration without members is one row, and its members stand between two rows otherwise. -/
def bracedRows (head : String) (members : Block) : Block :=
  if members.isEmpty then [.code 0 (head ++ " \x7b\x7d")]
  else .code 0 (head ++ " \x7b") :: (members ++ [.code 0 "\x7d"])

def LiteralDeclaration.rows (l : LiteralDeclaration) : Block :=
  docRows 1 l.doc ++ [.code 1 (l.name ++ ",")]

def FieldDeclaration.rows (f : FieldDeclaration) : Block :=
  docRows 1 f.doc ++ [.code 1 (f.name ++ ": " ++ f.type.text "" ++ ";")]

namespace ParameterDeclaration

/-- The row of a parameter; `ending` separates it from the next one. -/
def row (p : ParameterDeclaration) (ending : String) : Row :=
  let head := p.name ++ ": " ++ p.type.text ""
  match p.initializer with
  | some value => ⟨2, [.code (head ++ " = "), value.piece, .code ending]⟩
  | none => .code 2 (head ++ ending)

/-- The row that assigns a parameter to its field. -/
def assignment (p : ParameterDeclaration) : Row :=
  let head := "this." ++ p.field ++ " = " ++ p.name
  match p.fallback with
  | some value => ⟨2, [.code (head ++ " ?? "), value.piece, .code ";"]⟩
  | none => .code 2 (head ++ ";")

/-- The rows of all parameters, separated by commas. -/
def rows : List ParameterDeclaration → Block
  | [] => []
  | [p] => [p.row ""]
  | p :: rest => p.row "," :: rows rest

end ParameterDeclaration

/-- The rows of a constructor; a class without parameters has none. -/
def constructorRows (parameters : List ParameterDeclaration) : Block :=
  if parameters.isEmpty then []
  else
    [.code 1 "constructor("] ++ ParameterDeclaration.rows parameters ++ [.code 1 ") \x7b"]
      ++ parameters.map ParameterDeclaration.assignment ++ [.code 1 "\x7d"]

/-- The method that lets a transformer visit an instance. -/
def visitRows (method : String) : Block :=
  [.code 1 "transform<T>(transformer: AbstractTransformer<T>): T \x7b",
    .code 2 ("return transformer." ++ method ++ "(this);"),
    .code 1 "\x7d"]

/-- The rows of a declaration, and what is reported about it. -/
def Declaration.emit (snippets : Snippets) : Declaration → Block × Log
  | .enumeration doc name literals =>
    (docRows 0 doc
      ++ bracedRows ("export enum " ++ name) (literals.flatMap LiteralDeclaration.rows), [])
  | .interface doc name bases fields =>
    (docRows 0 doc
      ++ bracedRows ("export interface " ++ name ++ " extends " ++ ", ".intercalate bases)
        (fields.flatMap FieldDeclaration.rows), [])
  | .classType doc name bases fields parameters visit =>
    (docRows 0 doc
      ++ bracedRows ("export class " ++ name ++ " implements " ++ ", ".intercalate bases)
        (joinBlocks [fields.flatMap FieldDeclaration.rows, constructorRows parameters,
          visitRows visit]), [])
  | .handwritten name =>
    match snippets.require (SnippetKey.declaration name) name with
    | .ok text => (if text.isEmpty then [] else snippetRows 0 text, [])
    | .error d => ([], [d])

/-- The interface that all classes share. -/
def rootRows : Block :=
  docRows 0 ["Common ancestor of all the classes of the model"]
    ++ [.code 0 "export interface IClass \x7b"]
    ++ docRows 1 ["Dispatch to the method of `transformer` for the concrete class"]
    ++ [.code 1 "transform<T>(transformer: AbstractTransformer<T>): T;", .code 0 "\x7d"]

/-- The transformer, with one method for each concrete class. -/
def transformerRows (visits : List VisitDeclaration) : Block :=
  docRows 0 ["Transform an instance by its runtime class, one method per concrete class"]
    ++ [.code 0 "export abstract class AbstractTransformer<T> \x7b",
      .code 1 "transform(that: IClass): T \x7b",
      .code 2 "return that.transform(this);",
      .code 1 "\x7d"]
    ++ (if visits.isEmpty then []
      else .blank :: visits.map fun v =>
        .code 1 ("abstract " ++ v.method ++ "(that: " ++ v.type ++ "): T;"))
    ++ [.code 0 "\x7d"]

/-- The rows of a banner. -/
def bannerRows (banner : List String) : Block :=
  (Text.bannerComment banner).map (Row.comment 0)

/-- The rows of the module, and what is reported about it. -/
def TypesModule.emit (snippets : Snippets) (m : TypesModule) : Block × Log :=
  let emitted := m.declarations.map (Declaration.emit snippets)
  (joinBlocks ([bannerRows m.banner, rootRows, transformerRows m.visits] ++ emitted.map (·.1)),
    emitted.flatMap (·.2))

end WireModel.TypeScript
