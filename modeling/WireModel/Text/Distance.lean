import WireModel.Text.Units

/-!
# The distance between two texts

The distance is the least number of edits that turn one text into the other, where an edit drops a
unit, adds one, replaces one, or swaps two neighbours, and no part of the text is edited twice. It
is computed row by row: the row of a prefix of the first text lists its distances to the prefixes
of the second one, from the empty prefix on. Each entry depends on its neighbours in its row and in
the row above, and for a swap on an entry two rows above.
-/

namespace WireModel.Text

/-- The row for one more unit `x`, which follows the unit `beforeX`, after the entry `left`. The
units of the second text from here on stand beside the entries of the row above from the one
before `left`'s right neighbour on; `twoAbove` starts at the entry that a swap with `beforeY` would
continue. -/
def distanceRow (x : Nat) (beforeX beforeY : Option Nat) (left : Nat) :
    (ys above twoAbove : List Nat) → List Nat
  | y :: ys, diagonal :: up :: above, twoAbove =>
    let edited := min (min (up + 1) (left + 1)) (diagonal + if x == y then 0 else 1)
    let isSwap := beforeX == some y && beforeY == some x
    let entry := if isSwap then min edited (twoAbove.headD 0 + 1) else edited
    let further := if beforeY.isSome then twoAbove.tail else twoAbove
    entry :: distanceRow x beforeX (some y) entry ys (up :: above) further
  | _, _, _ => []

/-- The distance from the last two rows of a prefix and the units after it. -/
def distanceFrom (ys : List Nat) (read : Nat) (beforeX : Option Nat) (above twoAbove : List Nat) :
    List Nat → Nat
  | [] => above.getLastD 0
  | x :: xs =>
    let row := (read + 1) :: distanceRow x beforeX none (read + 1) ys above twoAbove
    distanceFrom ys (read + 1) (some x) row above xs

/-- The distance between two texts, in UTF-16 code units. -/
def distance (s t : String) : Nat :=
  let ys := units t
  distanceFrom ys 0 none (List.range (ys.length + 1)) [] (units s)

end WireModel.Text
