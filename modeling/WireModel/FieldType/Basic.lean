/-!
# Types of fields

A property or a constructor argument has a type: an item, that is a primitive or a named type of
the model; a list of items; or either of these made optional. So the type of a field is an item with
two marks. It is generic in the item, because the codec attaches more to an item than its name.
-/

namespace WireModel

inductive Primitive where
  | bool
  | int
  | float
  | str
  | bytearray
  deriving DecidableEq, Repr

namespace Primitive

/-- The name of a primitive in a model. -/
def name : Primitive → String
  | .bool => "bool"
  | .int => "int"
  | .float => "float"
  | .str => "str"
  | .bytearray => "bytearray"

def all : List Primitive := [.bool, .int, .float, .str, .bytearray]

/-- The primitive with a name. -/
def ofName? (name : String) : Option Primitive := all.find? fun p => p.name == name

end Primitive

/-- What a field holds: a primitive, or a type of the model by its name. -/
inductive Atom where
  | primitive (kind : Primitive)
  | named (name : String)
  deriving DecidableEq, Repr

/-- An item, or a list of items, that may be optional. -/
structure FieldType (α : Type) where
  isOptional : Bool
  isList : Bool
  item : α
  deriving DecidableEq, Repr

namespace FieldType

/-- The same type of another item. -/
def withItem {α β : Type} (a : FieldType α) (item : β) : FieldType β :=
  ⟨a.isOptional, a.isList, item⟩

/-- The type without its optional mark. -/
def required {α : Type} (a : FieldType α) : FieldType α := { a with isOptional := false }

end FieldType

/-- The text of an item in a model. -/
def Atom.text : Atom → String
  | .primitive kind => kind.name
  | .named name => name

/-- The names of model types that an item mentions. -/
def Atom.names : Atom → List String
  | .primitive _ => []
  | .named name => [name]

/-- The text of a type in a model, such as `Optional[List[str]]`. -/
def FieldType.text (a : FieldType Atom) : String :=
  let item := a.item.text
  let body := if a.isList then "List[" ++ item ++ "]" else item
  if a.isOptional then "Optional[" ++ body ++ "]" else body

/-- Two types agree if they are written alike. -/
def FieldType.agrees (a b : FieldType Atom) : Bool := a.text == b.text

/-- The names of model types that a type mentions. -/
def FieldType.names (a : FieldType Atom) : List String := a.item.names

end WireModel
