import WireModel.Name

/-!
# Names in generated code

Types and literals take the capital form of their name, and members and variables the lower camel
form, which gets an underscore if it is a reserved word.
-/

namespace WireModel.TypeScript

/-- Words that cannot be used as the name of a member or a variable. -/
def reservedWords : List String :=
  ["break", "case", "catch", "class", "const", "continue", "debugger", "default", "delete", "do",
    "else", "enum", "export", "extends", "false", "finally", "for", "function", "if", "import",
    "in", "instanceof", "new", "null", "return", "super", "switch", "this", "throw", "true",
    "try", "typeof", "var", "void", "while", "with", "yield", "let", "static", "implements",
    "interface", "package", "private", "protected", "public", "await"]

/-- A lower camel name that is not a reserved word. -/
def bindingName (camel : String) : String :=
  if reservedWords.contains camel then camel ++ "_" else camel

/-- The name of an enumeration, a class or a literal. -/
def typeName (name : String) : String := Name.capital name

/-- The name of the interface of a class. -/
def interfaceName (name : String) : String := "I" ++ Name.capital name

/-- The method of a transformer for a class. -/
def transformName (name : String) : String := "transform" ++ Name.capital name

/-- The variable that holds an argument while an object is parsed. -/
def slotName (argument : String) : String := "the" ++ Name.capital argument

/-- The table from JSON strings to the literals of an enumeration. -/
def fromTableName (enumeration : String) : String := Text.upper enumeration ++ "_FROM_JSONABLE"

/-- The table from the literals of an enumeration to JSON strings. -/
def toTableName (enumeration : String) : String := Text.upper enumeration ++ "_TO_JSONABLE"

/-- The routine that parses a type, from the stem of its name. -/
def parseRoutine (stem : String) : String := stem ++ "FromJsonableImplementation"

/-- The public routine that parses a type, from the stem of its name. -/
def facadeRoutine (stem : String) : String := stem ++ "FromJsonable"

/-- The routine that serializes the literals of an enumeration, from the stem of its name. -/
def writeRoutine (stem : String) : String := stem ++ "ToJsonable"

/-- The stem of the routines for the interface of a class. -/
def interfaceStem (name : String) : String := "i" ++ Name.capital name

end WireModel.TypeScript
