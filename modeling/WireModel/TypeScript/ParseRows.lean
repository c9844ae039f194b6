import WireModel.TypeScript.Codec

/-!
# Rows of parse routines

A parse routine returns a value or the path of the first failure. Each type has one, and a public
routine around it that raises an error instead.
-/

namespace WireModel.TypeScript

/-- How the generated types are named from the codec module. -/
def qualifier : String := "types."

/-- The head of a parse routine. -/
def signatureRows (stem : String) (type : String) : Block :=
  [.code 0 ("function " ++ parseRoutine stem ++ "("),
    .code 1 "node: unknown",
    .code 0 ("): rt.ParseResult<" ++ qualifier ++ type ++ "> \x7b")]

/-- An object is expected. -/
def objectGuardRows : Block :=
  [.code 1 "if (!rt.isJsonObject(node)) \x7b",
    .code 2 "return rt.fail(`Expected an object, but got $\x7brt.jsonKind(node)\x7d`);",
    .code 1 "\x7d"]

/-! ## Enumerations -/

/-- The parse routine of an enumeration. -/
def EnumerationCodec.parseRows (e : EnumerationCodec) : Block :=
  signatureRows e.stem e.type
    ++ [.code 1 "const text = rt.strFrom(node);",
      .code 1 "if (!text.ok) \x7b",
      .code 2 "return text;",
      .code 1 "\x7d",
      .code 1 ("const literal = " ++ e.fromTable ++ ".get(text.value);"),
      .code 1 "if (literal === undefined) \x7b",
      .code 2 "return rt.fail(",
      .code 3 ("`Not a valid JSON representation of " ++ e.type
        ++ ": $\x7bJSON.stringify(node)\x7d`"),
      .code 2 ");",
      .code 1 "\x7d",
      .code 1 "return rt.succeed(literal);",
      .code 0 "\x7d"]

/-! ## Interfaces -/

/-- The case of one implementer. -/
def Choice.rows (c : Choice) : Block :=
  [⟨2, [.code "case ", .literal c.value, .code ":"]⟩,
    .code 3 ("return " ++ parseRoutine c.stem ++ "(node);")]

/-- The parse routine of an interface, which goes by the discriminator. -/
def InterfaceCodec.parseRows (i : InterfaceCodec) : Block :=
  signatureRows i.stem i.type ++ objectGuardRows
    ++ [.blank,
      ⟨1, [.code "const modelType = Object.hasOwn(node, ", .literal i.discriminator,
        .code ") ? node[", .literal i.discriminator, .code "] : undefined;"]⟩,
      .code 1 "if (modelType === undefined || modelType === null) \x7b",
      ⟨2, [.code "return rt.fail(", .literal "Expected a model type, but none is present",
        .code ");"]⟩,
      .code 1 "\x7d",
      ⟨1, [.code "if (typeof modelType !== ", .literal "string", .code ") \x7b"]⟩,
      .code 2 "return rt.fail(",
      .code 3 "`Expected the model type to be a string, but got $\x7brt.jsonKind(modelType)\x7d`",
      .code 2 ");",
      .code 1 "\x7d",
      .blank,
      .code 1 "switch (modelType) \x7b"]
    ++ i.choices.flatMap Choice.rows
    ++ [.code 2 "default:",
      .code 3 ("return rt.fail(`Unexpected model type for " ++ i.type
        ++ ": $\x7bmodelType\x7d`);"),
      .code 1 "\x7d",
      .code 0 "\x7d"]

/-! ## Classes -/

namespace Slot

/-- Returns a failure, with the key of the slot in front of its path. -/
def failureRow (s : Slot) (level : Nat) (failure : List Piece) : Row :=
  ⟨level, [.code "return rt.failWith(rt.prependName("] ++ failure
    ++ [.code ", ", .literal s.key, .code "));"]⟩

/-- Fills the slot with an item. -/
def itemRows (s : Slot) : Block :=
  [.code 4 ("const parsed = " ++ s.parser.text ++ "(value);"),
    .code 4 "if (!parsed.ok) \x7b",
    s.failureRow 5 [.code "parsed.error"],
    .code 4 "\x7d",
    .code 4 (s.binding ++ " = parsed.value;")]

/-- Fills the slot with a list of items. -/
def listRows (s : Slot) : Block :=
  [.code 4 "if (!rt.isJsonArray(value)) \x7b",
    s.failureRow 5
      [.code "rt.newError(`Expected an array, but got $\x7brt.jsonKind(value)\x7d`)"],
    .code 4 "\x7d",
    .code 4 ("const items: Array<" ++ s.item.text qualifier ++ "> = [];"),
    .code 4 "for (const [index, item] of value.entries()) \x7b",
    .code 5 "if (item === null) \x7b",
    s.failureRow 6
      [.code "rt.prependIndex(rt.newError(", .literal "Expected a non-null item, but got a null",
        .code "), index)"],
    .code 5 "\x7d",
    .code 5 ("const parsed = " ++ s.parser.text ++ "(item);"),
    .code 5 "if (!parsed.ok) \x7b",
    s.failureRow 6 [.code "rt.prependIndex(parsed.error, index)"],
    .code 5 "\x7d",
    .code 5 "items.push(parsed.value);",
    .code 4 "\x7d",
    .code 4 (s.binding ++ " = items;")]

/-- The case of the key of the slot. -/
def caseRows (s : Slot) : Block :=
  [⟨3, [.code "case ", .literal s.key, .code ": \x7b"]⟩,
    .code 4 "if (value === null) \x7b",
    .code 5 "continue;",
    .code 4 "\x7d"]
  ++ (if s.isList then s.listRows else s.itemRows)
  ++ [.code 4 "break;",
    .code 3 "\x7d"]

/-- The declaration of the variable of the slot. -/
def declarationRow (s : Slot) : Row :=
  .code 1 ("let " ++ s.binding ++ ": " ++ s.type.text qualifier ++ " | undefined;")

/-- A required slot must have been filled. -/
def requiredRows (s : Slot) : Block :=
  if s.isRequired then
    [.code 1 ("if (" ++ s.binding ++ " === undefined) \x7b"),
      ⟨2, [.code "return rt.fail(",
        .literal ("Required property \"" ++ s.key ++ "\" is missing"), .code ");"]⟩,
      .code 1 "\x7d"]
  else []

/-- The slots as arguments, separated by commas. -/
def argumentRows : List Slot → Block
  | [] => []
  | [s] => [.code 3 s.binding]
  | s :: rest => .code 3 (s.binding ++ ",") :: argumentRows rest

end Slot

/-- A block after a blank row, if it has rows. -/
def spaced (block : Block) : Block := if block.isEmpty then [] else .blank :: block

namespace ClassCodec

/-- The call of the constructor. -/
def constructRows (c : ClassCodec) : Block :=
  if c.slots.isEmpty then [.code 1 ("return rt.succeed(new " ++ qualifier ++ c.type ++ "());")]
  else
    [.code 1 "return rt.succeed(",
      .code 2 ("new " ++ qualifier ++ c.type ++ "(")]
    ++ Slot.argumentRows c.slots
    ++ [.code 2 ")",
      .code 1 ");"]

/-- The discriminator is a known key. -/
def discriminatorRows (c : ClassCodec) : Block :=
  match c.discriminator with
  | some (key, _) => [⟨3, [.code "case ", .literal key, .code ":"]⟩, .code 4 "break;"]
  | none => []

/-- The body of the parse routine of a class. -/
def bodyRows (c : ClassCodec) : Block :=
  objectGuardRows
    ++ spaced (c.slots.map Slot.declarationRow)
    ++ [.blank,
      .code 1 (if c.slots.isEmpty then "for (const key of Object.keys(node)) \x7b"
        else "for (const [key, value] of Object.entries(node)) \x7b"),
      .code 2 "switch (key) \x7b"]
    ++ c.slots.flatMap Slot.caseRows
    ++ c.discriminatorRows
    ++ [.code 3 "default:",
      .code 4 "return rt.fail(`Unexpected property: $\x7bkey\x7d`);",
      .code 2 "\x7d",
      .code 1 "\x7d"]
    ++ spaced (c.slots.flatMap Slot.requiredRows)
    ++ [.blank]
    ++ c.constructRows

/-- The parse routine of a class, and what is reported about it. -/
def emitParse (snippets : Snippets) (c : ClassCodec) : Block × Log :=
  let wrap (body : Block) : Block := signatureRows c.stem c.type ++ body ++ [.code 0 "\x7d"]
  if c.isHandwritten then
    match snippets.require (SnippetKey.parse c.name) c.name with
    | .ok text => (wrap (snippetRows 1 text), [])
    | .error d => ([], [d])
  else (wrap c.bodyRows, [])

end ClassCodec

/-! ## Public routines -/

/-- The public routine of a type. -/
def facadeRows (stem type summary : String) : Block :=
  docRows 0 [summary,
    "@throws \x7b@link rt.DeserializationError\x7d if `node` is not a valid representation"]
  ++ [.code 0 ("export function " ++ facadeRoutine stem ++ "(node: unknown): " ++ qualifier
      ++ type ++ " \x7b"),
    .code 1 ("const result = " ++ parseRoutine stem ++ "(node);"),
    .code 1 "if (!result.ok) \x7b",
    .code 2 "throw rt.DeserializationError.fromErrorPath(result.error);",
    .code 1 "\x7d",
    .code 1 "return result.value;",
    .code 0 "\x7d"]

/-- A link to a generated type. -/
def typeLink (type : String) : String := "\x7b@link " ++ qualifier ++ type ++ "\x7d"

/-- The two routines of a type, and what is reported about them. -/
def TypeCodec.emitRoutines (snippets : Snippets) : TypeCodec → List (Block × Log)
  | .enumeration e =>
    [(e.parseRows, []),
      (facadeRows e.stem e.type
        ("Parse a literal of " ++ typeLink e.type ++ " from its JSON string."), [])]
  | .interface i =>
    [(i.parseRows, []),
      (facadeRows i.stem i.type
        ("Parse an instance of " ++ typeLink i.type
          ++ " from a JSON object, dispatching on the model type."), [])]
  | .classType c =>
    [c.emitParse snippets,
      (facadeRows c.stem c.type
        ("Parse an instance of " ++ typeLink c.type ++ " from a JSON object."), [])]

end WireModel.TypeScript
