import WireModel.Json.Token

/-!
# Reading JSON text

A value is read from the tokens by a machine with a stack of the arrays and objects that are
still open. The grammar is the strict one: no comments, no trailing commas, and nothing after
the value.
-/

namespace WireModel.Json

/-- An array or object that is still open: its items in reverse order, or its members, with the
key whose value is being read. -/
inductive Frame where
  | array (items : List Json)
  | object (members : Members) (key : String)

/-- What the machine waits for. -/
inductive Expect where
  /-- A value. -/
  | value
  /-- A value, or the end of the array that has just been opened. -/
  | firstItem
  /-- A key, or the end of the object that has just been opened. -/
  | firstKey
  /-- A key of the object with these members. -/
  | key (members : Members)
  /-- The colon after a key. -/
  | colon (members : Members) (key : String)
  /-- What may follow a complete value. -/
  | next (value : Json)

structure Reader where
  expect : Expect := .value
  stack : List Frame := []

/-- A value begins with this token. -/
def Reader.startValue (stack : List Frame) : Token → Option Reader
  | .null => some ⟨.next .null, stack⟩
  | .bool b => some ⟨.next (.bool b), stack⟩
  | .number x => some ⟨.next (.number x), stack⟩
  | .text s => some ⟨.next (.text s), stack⟩
  | .openBracket => some ⟨.firstItem, stack⟩
  | .openBrace => some ⟨.firstKey, stack⟩
  | _ => none

/-- A complete value is followed by this token. -/
def Reader.afterValue (value : Json) : List Frame → Token → Option Reader
  | .array items :: stack, .comma => some ⟨.value, .array (value :: items) :: stack⟩
  | .array items :: stack, .closeBracket =>
    some ⟨.next (.array (value :: items).reverse), stack⟩
  | .object members key :: stack, .comma => some ⟨.key (members.set key value), stack⟩
  | .object members key :: stack, .closeBrace =>
    some ⟨.next (.object (members.set key value)), stack⟩
  | _, _ => none

/-- The effect of one token. -/
def Reader.step (reader : Reader) (token : Token) : Option Reader :=
  match reader.expect with
  | .value => startValue reader.stack token
  | .firstItem =>
    match token with
    | .closeBracket => some ⟨.next (.array []), reader.stack⟩
    | _ => startValue (.array [] :: reader.stack) token
  | .firstKey =>
    match token with
    | .closeBrace => some ⟨.next (.object []), reader.stack⟩
    | .text key => some ⟨.colon [] key, reader.stack⟩
    | _ => none
  | .key members =>
    match token with
    | .text key => some ⟨.colon members key, reader.stack⟩
    | _ => none
  | .colon members key =>
    match token with
    | .colon => some ⟨.value, .object members key :: reader.stack⟩
    | _ => none
  | .next value => afterValue value reader.stack token

/-- The value, if it is complete. -/
def Reader.finish (reader : Reader) : Option Json :=
  match reader.expect, reader.stack with
  | .next value, [] => some value
  | _, _ => none

/-- The value that a text spells; none if the text is malformed. -/
def parse? (s : String) : Option Json := do
  let tokens ← tokens? s
  let reader ← tokens.foldlM Reader.step {}
  reader.finish

end WireModel.Json
