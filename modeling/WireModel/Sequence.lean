/-!
# Going through a list once

Two ways of going through a list from left to right that the library shares. `sift` keeps or
drops each item in view of the items kept before it and collects what there is to say about it;
`distinctBy` keeps the first item for each key.
-/

namespace WireModel

/-- Goes through a list from left to right. `step kept a` says, in view of the results kept so
far, whether `a` gives a result, and what is to be reported about it. -/
def sift {α β ε : Type} (step : List β → α → Option β × List ε) :
    List β → List α → List β × List ε
  | kept, [] => (kept, [])
  | kept, a :: rest =>
    let (result, reports) := step kept a
    let (final, more) := sift step (kept ++ result.toList) rest
    (final, reports ++ more)

/-- The items whose key has not been seen, with the keys in `seen` taken as seen already. -/
def distinctFrom {α κ : Type} [BEq κ] (key : α → κ) : List κ → List α → List α
  | _, [] => []
  | seen, a :: rest =>
    if seen.contains (key a) then distinctFrom key seen rest
    else a :: distinctFrom key (key a :: seen) rest

/-- The first item for each key, in order. -/
def distinctBy {α κ : Type} [BEq κ] (key : α → κ) (items : List α) : List α :=
  distinctFrom key [] items

end WireModel
