import WireModel.Sequence

/-!
# Class hierarchies

A hierarchy is given by nodes: the classes in the order of the document, each with its parents.
Nothing keeps the parents from forming cycles, so the nodes are walked depth first, parents
before children and in the order in which they are listed, and a parent that is still being
walked closes a cycle and is dropped. The walk is a machine with an explicit stack; it leaves a
trace of events:

* `cycle`: a parent was dropped, with the path that it would have closed;
* `inherit`: a parent of a class was kept, after its own walk has ended;
* `finish`: the walk of a class has ended, with all parents that were kept.

In the trace every class finishes after the parents that it keeps, so the `finish` events list the
hierarchy in an order in which a value can be computed for each class from the values of its
parents, with `tabulate`.
-/

namespace WireModel.Hierarchy

/-- A class and its parents. -/
structure Node where
  name : String
  parents : List String
  deriving DecidableEq, Repr

inductive Event where
  /-- The path from `first` along parents, which leads back to `first`. -/
  | cycle (first : String) (path : List String)
  /-- `child` keeps `parent`, after the parents `earlier`. -/
  | inherit (child : String) (earlier : List String) (parent : String)
  | finish (node : Node)
  deriving DecidableEq, Repr

/-- A class whose walk has begun: the parents kept so far, and those still to be looked at. -/
structure Frame where
  name : String
  kept : List String
  rest : List String
  deriving DecidableEq, Repr

def Frame.ofNode (node : Node) : Frame := ⟨node.name, [], node.parents⟩

/-- The classes whose walk has not begun, and those whose walk has not ended, innermost first. -/
structure Walk where
  pending : List Node
  stack : List Frame
  deriving DecidableEq, Repr

/-- The path along the stack from the class `first` to the innermost class, and back to `first`. -/
def closing (first : String) (stack : List Frame) : List String :=
  ((stack.map (·.name)).takeWhile (· != first)).reverse ++ [first]

/-- What happens when the innermost class `f` looks at its next parent `p`. -/
def Walk.look (pending : List Node) (f : Frame) (p : String) (below : List Frame) :
    List Event × Walk :=
  let stack := f :: below
  if stack.any fun g => g.name == p then ([.cycle p (closing p stack)], ⟨pending, stack⟩)
  else
    match pending.find? fun n => n.name == p with
    | some node => ([], ⟨pending.eraseP fun n => n.name == p, Frame.ofNode node :: stack⟩)
    | none => ([.inherit f.name f.kept p], ⟨pending, { f with kept := f.kept ++ [p] } :: below⟩)

/-- What happens when the walk of the innermost class `f` ends. -/
def Walk.leave (pending : List Node) (f : Frame) : List Frame → List Event × Walk
  | [] => ([.finish ⟨f.name, f.kept⟩], ⟨pending, []⟩)
  | g :: below =>
    ([.finish ⟨f.name, f.kept⟩, .inherit g.name g.kept f.name],
      ⟨pending, { g with kept := g.kept ++ [f.name] } :: below⟩)

/-- One step of the walk, unless it is at its end. -/
def Walk.step : Walk → Option (List Event × Walk)
  | ⟨[], []⟩ => none
  | ⟨node :: pending, []⟩ => some ([], ⟨pending, [Frame.ofNode node]⟩)
  | ⟨pending, f :: below⟩ =>
    match f.rest with
    | [] => some (leave pending f below)
    | p :: rest => some (look pending { f with rest := rest } p below)

/-! ## The walk ends

Each step uses up a parent, a frame or a pending node, and a pending node is worth one more than
the frame that it becomes. -/

def Node.weight (node : Node) : Nat := node.parents.length + 2

def Frame.weight (f : Frame) : Nat := f.rest.length + 1

/-- The weights of all pending nodes. -/
def pendingWeight : List Node → Nat
  | [] => 0
  | node :: rest => node.weight + pendingWeight rest

/-- The weights of all frames. -/
def stackWeight : List Frame → Nat
  | [] => 0
  | f :: rest => f.weight + stackWeight rest

/-- A bound on the number of steps to come. -/
def Walk.weight (w : Walk) : Nat := pendingWeight w.pending + stackWeight w.stack

theorem pendingWeight_eraseP {pending : List Node} {q : Node → Bool} {node : Node}
    (h : pending.find? q = some node) :
    pendingWeight (pending.eraseP q) + node.weight = pendingWeight pending := by
  induction pending with
  | nil => simp at h
  | cons n rest ih =>
    by_cases hq : q n = true
    · simp only [List.find?_cons_of_pos hq, Option.some.injEq] at h
      subst h
      simp only [List.eraseP_cons_of_pos hq, pendingWeight]
      omega
    · have hq' : ¬q n = true := hq
      rw [List.find?_cons_of_neg hq'] at h
      have := ih h
      simp only [List.eraseP_cons_of_neg hq', pendingWeight]
      omega

theorem weight_look_lt (pending : List Node) (f : Frame) (p : String) (rest : List String)
    (below : List Frame) (hf : f.rest = p :: rest) :
    (Walk.look pending { f with rest := rest } p below).2.weight
      < (Walk.mk pending (f :: below)).weight := by
  simp only [Walk.look]
  split
  · simp only [Walk.weight, stackWeight, Frame.weight, hf, List.length_cons]
    omega
  · split
    · rename_i node hnode
      have := pendingWeight_eraseP hnode
      simp only [Walk.weight, stackWeight, Frame.weight, Frame.ofNode, hf,
        List.length_cons, Node.weight] at this ⊢
      omega
    · simp only [Walk.weight, stackWeight, Frame.weight, hf, List.length_cons]
      omega

theorem weight_leave_lt (pending : List Node) (f : Frame) (below : List Frame) :
    (Walk.leave pending f below).2.weight < (Walk.mk pending (f :: below)).weight := by
  cases below with
  | nil => simp [Walk.leave, Walk.weight, stackWeight, Frame.weight]
  | cons g below =>
    simp only [Walk.leave, Walk.weight, stackWeight, Frame.weight]
    omega

theorem weight_step_lt {w w' : Walk} {events : List Event} (h : w.step = some (events, w')) :
    w'.weight < w.weight := by
  obtain ⟨pending, stack⟩ := w
  cases stack with
  | nil =>
    cases pending with
    | nil => simp [Walk.step] at h
    | cons node pending =>
      simp only [Walk.step, Option.some.injEq, Prod.mk.injEq] at h
      obtain ⟨-, rfl⟩ := h
      simp only [Walk.weight, pendingWeight, stackWeight,
        Node.weight, Frame.weight, Frame.ofNode]
      omega
  | cons f below =>
    simp only [Walk.step] at h
    cases hr : f.rest with
    | nil =>
      simp only [hr, Option.some.injEq] at h
      have := weight_leave_lt pending f below
      rwa [h] at this
    | cons p rest =>
      simp only [hr, Option.some.injEq] at h
      have := weight_look_lt pending f p rest below hr
      rwa [h] at this

-- `h` is read by `decreasing_by` only, which the unused-variable linter does not see.
set_option linter.unusedVariables false in
/-- The events of the walk from here on. -/
def Walk.events (w : Walk) : List Event :=
  match h : w.step with
  | none => []
  | some (events, w') => events ++ w'.events
  termination_by w.weight
  decreasing_by exact weight_step_lt h

/-! ## What the trace says -/

/-- The trace of the walk over a hierarchy. -/
def trace (nodes : List Node) : List Event := (Walk.mk nodes []).events

/-- The node of a class whose walk has ended. -/
def Event.finished? : Event → Option Node
  | .finish node => some node
  | _ => none

/-- The classes of a trace in the order in which their walks ended, with the parents that they
keep. -/
def order (events : List Event) : List Node := events.filterMap Event.finished?

/-- A value for each class, computed from the class and the values of its parents. -/
def tabulate {α : Type} (value : Node → List α → α) (nodes : List Node) : List (String × α) :=
  nodes.foldl (fun table node =>
    table ++ [(node.name, value node (node.parents.filterMap fun p => table.lookup p))]) []

/-- The ancestors of a class, from its parents and the ancestors of each of them, each once. -/
def ancestorsOf (node : Node) (ofParents : List (List String)) : List String :=
  distinctBy id (node.parents ++ ofParents.flatten)

/-- The ancestors of each class. -/
def ancestors (nodes : List Node) : List (String × List String) := tabulate ancestorsOf nodes

end WireModel.Hierarchy
