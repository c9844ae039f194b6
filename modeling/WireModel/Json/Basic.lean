import WireModel.Number.Binary64
import WireModel.Text.Case

/-!
# JSON values

Objects are lists of members in the order in which they are listed and printed: keys that are
array indices come first, in ascending order, and all others follow in the order of their first
assignment. `set` is the only way to assign a member and keeps that order; assigning to a key
again replaces its value in place.
-/

namespace WireModel

inductive Json where
  | null
  | bool (value : Bool)
  | number (value : Binary64)
  | text (value : String)
  | array (items : List Json)
  | object (members : List (String × Json))
  deriving Repr, Inhabited

namespace Json

/-- The members of an object. -/
abbrev Members := List (String × Json)

/-- The array index that a key spells: a decimal below `2 ^ 32 - 1` without leading zeros. -/
def arrayIndex? (key : String) : Option Nat :=
  let cs := key.toList
  if cs.isEmpty || !cs.all Text.isDigit then none
  else if 1 < cs.length && cs.head? == some '0' then none
  else
    let n := cs.foldl (fun n c => 10 * n + (c.toNat - 48)) 0
    if n < 4294967295 then some n else none

/-- A member whose key is an array index below `n`. -/
def indexBelow (n : Nat) (member : String × Json) : Bool :=
  match arrayIndex? member.1 with
  | some m => m < n
  | none => false

namespace Members

/-- The value of a key. -/
def get? (members : Members) (key : String) : Option Json := members.lookup key

/-- Whether a key has a value. -/
def has (members : Members) (key : String) : Bool := members.any fun m => m.1 == key

/-- Assigns `value` to `key`. -/
def set (members : Members) (key : String) (value : Json) : Members :=
  if has members key then
    members.map fun m => if m.1 == key then (key, value) else m
  else
    match arrayIndex? key with
    | some n => members.takeWhile (indexBelow n) ++ (key, value) :: members.dropWhile (indexBelow n)
    | none => members ++ [(key, value)]

/-- The members that result from assigning pairs one after the other. -/
def ofList (pairs : List (String × Json)) : Members :=
  pairs.foldl (fun members p => set members p.1 p.2) []

end Members

/-- The object that results from assigning pairs one after the other. -/
def ofMembers (pairs : List (String × Json)) : Json := .object (Members.ofList pairs)

/-- The value of a key of an object. -/
def get? : Json → String → Option Json
  | .object members, key => Members.get? members key
  | _, _ => none

/-- An array of texts. -/
def texts (items : List String) : Json := .array (items.map .text)

end Json
end WireModel
