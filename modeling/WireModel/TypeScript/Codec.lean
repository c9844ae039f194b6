import WireModel.Emission.Log
import WireModel.Options
import WireModel.TypeScript.TypeExpr

/-!
# Declarations of the codec module

The declarations of `jsonization.ts`. Every enumeration has two tables between its literals and
their JSON strings, every type has a routine that parses it and a public one that raises an error
when it fails, and every concrete class has a method that serializes it.

A routine that parses an object goes through its keys: each constructor argument has a *slot*,
which the key with its wire name fills. A method that serializes an object writes one *entry* for
each property. Both know the discriminator, if the objects of the class carry one.
-/

namespace WireModel.TypeScript

/-- What parses an item: a routine of the support module, or a generated one with a stem. -/
inductive Parser where
  | primitive (kind : Primitive)
  | generated (stem : String)
  deriving DecidableEq, Repr

def primitiveParser : Primitive → String
  | .bool => "rt.boolFrom"
  | .int => "rt.int64From"
  | .float => "rt.float64From"
  | .str => "rt.strFrom"
  | .bytearray => "rt.bytesFrom"

namespace Parser

def text : Parser → String
  | .primitive kind => primitiveParser kind
  | .generated stem => parseRoutine stem

def ofCarrier : Carrier → Parser
  | .primitive kind => .primitive kind
  | .enumeration name => .generated (Name.camel name)
  | .choice name => .generated (interfaceStem name)
  | .object name => .generated (Name.camel name)

end Parser

/-- What turns an item into JSON: nothing, a function of the support module, the routine of an
enumeration with a stem, or the method for the class of the item. -/
inductive Writer where
  | same
  | support (function : String)
  | enumeration (stem : String)
  | object
  deriving DecidableEq, Repr

namespace Writer

def ofCarrier : Carrier → Writer
  | .primitive .bool | .primitive .float | .primitive .str => .same
  | .primitive .int => .support "rt.int64ToJsonable"
  | .primitive .bytearray => .support "rt.bytesToJsonable"
  | .enumeration name => .enumeration (Name.camel name)
  | .choice _ | .object _ => .object

/-- The expression that turns `value` into JSON, if it has to be turned. -/
def write? (value : String) : Writer → Option String
  | .same => none
  | .support function => some (function ++ "(" ++ value ++ ")")
  | .enumeration stem => some (writeRoutine stem ++ "(" ++ value ++ ")")
  | .object => some ("this.transform(" ++ value ++ ")")

end Writer

/-- The slot of a constructor argument. -/
structure Slot where
  binding : String
  key : String
  isRequired : Bool
  isList : Bool
  item : TypeExpr
  type : TypeExpr
  parser : Parser
  deriving DecidableEq, Repr

/-- The entry of a property. -/
structure Entry where
  key : String
  field : String
  isOptional : Bool
  isList : Bool
  writer : Writer
  deriving DecidableEq, Repr

structure EnumerationCodec where
  stem : String
  type : String
  fromTable : String
  toTable : String
  /-- The JSON string and the name of each literal. -/
  literals : List (String × String)
  deriving DecidableEq, Repr

/-- A case of the discriminator: its value, and the stem of the routine for it. -/
structure Choice where
  value : String
  stem : String
  deriving DecidableEq, Repr

structure InterfaceCodec where
  stem : String
  type : String
  discriminator : String
  choices : List Choice
  deriving DecidableEq, Repr

structure ClassCodec where
  /-- The name of the class in the model. -/
  name : String
  stem : String
  type : String
  method : String
  isHandwritten : Bool
  /-- The key and the value of the discriminator. -/
  discriminator : Option (String × String)
  slots : List Slot
  entries : List Entry
  deriving DecidableEq, Repr

/-- The codec of a type. -/
inductive TypeCodec where
  | enumeration (codec : EnumerationCodec)
  | interface (codec : InterfaceCodec)
  | classType (codec : ClassCodec)
  deriving DecidableEq, Repr

structure CodecModule where
  banner : List String
  runtimeModule : String
  typesModule : String
  codecs : List TypeCodec
  deriving DecidableEq, Repr

/-! ## Keys -/

/-- The keys that the parse routine of a class knows. -/
def ClassCodec.parsedKeys (c : ClassCodec) : List String :=
  c.slots.map (·.key) ++ (c.discriminator.map (·.1)).toList

/-- The keys that the parse routine of a class asks for. -/
def ClassCodec.requiredKeys (c : ClassCodec) : List String :=
  (c.slots.filter (·.isRequired)).map (·.key)

/-- The keys that the method of a class writes. -/
def ClassCodec.writtenKeys (c : ClassCodec) : List String :=
  c.entries.map (·.key) ++ (c.discriminator.map (·.1)).toList

/-! ## From the plan to declarations -/

def Slot.of (p : Codec.Parameter) : Slot :=
  { binding := slotName p.argument.name
    key := p.wire
    isRequired := !p.strategy.isOptional
    isList := p.strategy.isList
    item := .ofCarrier p.strategy.item
    type := .required p.strategy
    parser := .ofCarrier p.strategy.item }

def Entry.of (m : Codec.Member) : Entry :=
  { key := m.wire
    field := bindingName m.wire
    isOptional := m.strategy.isOptional
    isList := m.strategy.isList
    writer := .ofCarrier m.strategy.item }

def EnumerationCodec.of (e : Codec.EnumerationPlan) : EnumerationCodec :=
  { stem := e.stem.camel
    type := typeName e.type.name
    fromTable := fromTableName e.type.name
    toTable := toTableName e.type.name
    literals := e.type.literals.map fun l => (l.value, typeName l.name) }

def InterfaceCodec.of (key : String) (i : Codec.InterfacePlan) : InterfaceCodec :=
  { stem := interfaceStem i.name
    type := interfaceName i.name
    discriminator := key
    choices := i.implementers.map fun s => ⟨Name.capital s.name, s.camel⟩ }

def ClassCodec.of (key : String) (c : Codec.ClassPlan) : ClassCodec :=
  { name := c.name
    stem := c.stem.camel
    type := typeName c.name
    method := transformName c.name
    isHandwritten := c.type.isHandwritten
    discriminator := if c.isDiscriminated then some (key, Name.capital c.name) else none
    slots := c.parameters.map Slot.of
    entries := c.members.map Entry.of }

/-- The codecs of a type of the model: a class may have two, that of its interface first. -/
def TypeCodec.ofType (key : String) : Codec.TypePlan → List TypeCodec
  | .enumeration e => [.enumeration (.of e)]
  | .constrained _ => []
  | .classType c =>
    (c.interface.map fun i => TypeCodec.interface (.of key i)).toList
      ++ (if c.type.isConcrete then [.classType (.of key c)] else [])

def CodecModule.of (plan : Codec.Plan) (o : Options) : CodecModule :=
  { banner := o.banner
    runtimeModule := o.runtimeModule
    typesModule := o.typesModule
    codecs := plan.types.flatMap (TypeCodec.ofType o.discriminatorKey) }

namespace TypeCodec

def enumeration? : TypeCodec → Option EnumerationCodec
  | .enumeration codec => some codec
  | _ => none

def class? : TypeCodec → Option ClassCodec
  | .classType codec => some codec
  | _ => none

end TypeCodec

namespace CodecModule

def enumerations (m : CodecModule) : List EnumerationCodec :=
  m.codecs.filterMap TypeCodec.enumeration?

def classes (m : CodecModule) : List ClassCodec := m.codecs.filterMap TypeCodec.class?

end CodecModule
end WireModel.TypeScript
