import WireModel.TypeScript.ParseRows
import WireModel.TypeScript.TypesModule

/-!
# Rows of serialization, and the codec module

A transformer turns an instance into JSON by the method for its class, so a field that is typed
with an interface is written like the class that it holds. Optional fields that are absent are
left out.
-/

namespace WireModel.TypeScript

/-! ## Tables of enumerations -/

namespace EnumerationCodec

/-- The name of a literal, as seen from the codec module. -/
def literalName (e : EnumerationCodec) (name : String) : String :=
  qualifier ++ e.type ++ "." ++ name

/-- The table from JSON strings to literals. -/
def fromTableRows (e : EnumerationCodec) : Block :=
  let type := qualifier ++ e.type
  [.code 0 ("const " ++ e.fromTable ++ ": ReadonlyMap<string, " ++ type ++ "> ="),
    .code 1 ("new Map<string, " ++ type ++ ">([")]
  ++ (e.literals.map fun l =>
    ⟨2, [.code "[", .literal l.1, .code (", " ++ e.literalName l.2 ++ "],")]⟩)
  ++ [.code 1 "]);"]

/-- The table from literals to JSON strings. -/
def toTableRows (e : EnumerationCodec) : Block :=
  let type := qualifier ++ e.type
  [.code 0 ("const " ++ e.toTable ++ ": ReadonlyMap<" ++ type ++ ", string> ="),
    .code 1 ("new Map<" ++ type ++ ", string>([")]
  ++ (e.literals.map fun l =>
    ⟨2, [.code ("[" ++ e.literalName l.2 ++ ", "), .literal l.1, .code "],"]⟩)
  ++ [.code 1 "]);"]

/-- The routine that serializes a literal. -/
def writeRows (e : EnumerationCodec) : Block :=
  docRows 0 ["Convert a literal of " ++ typeLink e.type ++ " to its JSON string"]
  ++ [.code 0 ("export function " ++ writeRoutine e.stem ++ "(that: " ++ qualifier ++ e.type
      ++ "): string \x7b"),
    .code 1 ("const text = " ++ e.toTable ++ ".get(that);"),
    .code 1 "if (text === undefined) \x7b",
    .code 2 ("throw new RangeError(`Invalid literal of " ++ e.type ++ ": $\x7bthat\x7d`);"),
    .code 1 "\x7d",
    .code 1 "return text;",
    .code 0 "\x7d"]

end EnumerationCodec

/-! ## Methods of classes -/

namespace Entry

/-- The field of the instance. -/
def access (e : Entry) : String := "that." ++ e.field

/-- The JSON of the field. -/
def expression (e : Entry) : String :=
  if e.isList then
    match e.writer.write? "item" with
    | some item => e.access ++ ".map((item) => " ++ item ++ ")"
    | none => "[..." ++ e.access ++ "]"
  else (e.writer.write? e.access).getD e.access

/-- Writes the field under its key. -/
def assignRow (e : Entry) (level : Nat) : Row :=
  ⟨level, [.code "result[", .literal e.key, .code ("] = " ++ e.expression ++ ";")]⟩

/-- Writes the field, if it is there. -/
def rows (e : Entry) : Block :=
  if e.isOptional then
    [.code 2 ("if (" ++ e.access ++ " !== null) \x7b"), e.assignRow 3, .code 2 "\x7d"]
  else [e.assignRow 2]

end Entry

namespace ClassCodec

/-- Writes the discriminator. -/
def writeDiscriminatorRows (c : ClassCodec) : Block :=
  match c.discriminator with
  | some (key, value) =>
    [⟨2, [.code "result[", .literal key, .code "] = ", .literal value, .code ";"]⟩]
  | none => []

/-- The method of a class, and what is reported about it. -/
def emitMethod (snippets : Snippets) (c : ClassCodec) : Block × Log :=
  let wrap (body : Block) : Block :=
    .code 1 (c.method ++ "(that: " ++ qualifier ++ c.type ++ "): rt.JsonObject \x7b")
      :: (body ++ [.code 1 "\x7d"])
  if c.isHandwritten then
    match snippets.require (SnippetKey.transform c.name) c.name with
    | .ok text => (wrap (snippetRows 2 text), [])
    | .error d => ([], [d])
  else
    (wrap ([.code 2 "const result: rt.JsonObject = \x7b\x7d;"] ++ c.entries.flatMap Entry.rows
      ++ c.writeDiscriminatorRows ++ [.code 2 "return result;"]), [])

end ClassCodec

/-- The transformer with its methods. Without methods an empty row stands in their place. -/
def writerRows (methods : Block) : Block :=
  docRows 0 ["Convert instances to JSON objects by their runtime class"]
  ++ [.code 0 "class Transformer extends types.AbstractTransformer<rt.JsonObject> \x7b"]
  ++ (if methods.isEmpty then [.blank] else methods)
  ++ [.code 0 "\x7d", .blank, .code 0 "const TRANSFORMER = new Transformer();"]

/-- The public routine that serializes an instance. -/
def toJsonableRows : Block :=
  docRows 0 ["Serialize an instance of the model to a JSON object.",
    "@throws \x7b@link rt.LossyIntegerError\x7d if an integer can not be represented in JSON"]
  ++ [.code 0 "export function toJsonable(that: types.IClass): rt.JsonObject \x7b",
    .code 1 "return TRANSFORMER.transform(that);",
    .code 0 "\x7d"]

/-! ## The module -/

/-- The rows of the imports. -/
def importRows (runtimeModule typesModule : String) : Block :=
  [⟨0, [.code "import * as rt from ", .literal runtimeModule, .code ";"]⟩,
    ⟨0, [.code "import * as types from ", .literal typesModule, .code ";"]⟩]

/-- The rows of the module, and what is reported about it. -/
def CodecModule.emit (snippets : Snippets) (m : CodecModule) : Block × Log :=
  let routines := m.codecs.flatMap (TypeCodec.emitRoutines snippets)
  let methods := m.classes.map (ClassCodec.emitMethod snippets)
  let tables := m.enumerations.flatMap fun e => [e.fromTableRows, e.toTableRows]
  (joinBlocks ([bannerRows m.banner, importRows m.runtimeModule m.typesModule] ++ tables
      ++ routines.map (·.1)
      ++ [writerRows (joinBlocks (methods.map (·.1))), toJsonableRows]
      ++ m.enumerations.map EnumerationCodec.writeRows),
    routines.flatMap (·.2) ++ methods.flatMap (·.2))

end WireModel.TypeScript
