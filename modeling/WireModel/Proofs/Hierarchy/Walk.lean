import Mathlib.Data.List.Basic
import Mathlib.Data.List.Chain
import Mathlib.Data.List.Perm.Basic
import WireModel.Model.Hierarchy

/-!
# What the walk over a hierarchy does

The walk starts with arbitrary parents, drops some of them and leaves a trace. Everything that
is later said about cycles, linearizations and descendants rests on one invariant of the walk,
`Walk.Inv`, which relates the trace so far and the state to the nodes that the walk began with.

## The architecture

* **`Walk.Move`**: what one step can do, case by case, with all its guards. `Walk.move_of_step`
  is the only place that unfolds `Walk.step`.
* **`Walk.outlook`**: the finished nodes, the frames and the pending nodes, each class with the
  parents that it has not dropped. A step permutes the outlook, except when it closes a cycle;
  then exactly one parent leaves it, and the trace records that edge as dropped.
* **`Walk.Inv`** and **`Walk.Inv.move`**: the invariant and its preservation by a step.
* **`inv_trace`**: the invariant at the end, where the outlook is the order of the trace.
-/

namespace WireModel.Hierarchy

/-! ## Hierarchies that the walk is for -/

/-- Every name belongs to one node, and the parents of a node are nodes, each listed once. -/
structure WellLinked (nodes : List Node) : Prop where
  names : (nodes.map (·.name)).Nodup
  parents : ∀ n ∈ nodes, n.parents.Nodup
  known : ∀ n ∈ nodes, ∀ p ∈ n.parents, p ∈ nodes.map (·.name)

/-! ## One step -/

/-- The steps of the walk: it begins with a node when the stack is empty; the innermost class
looks at its next parent, which closes a cycle, is walked first, or is kept; or the walk of the
innermost class ends, and the class below keeps it. -/
inductive Walk.Move : Walk → List Event → Walk → Prop where
  | start (node : Node) (pending : List Node) :
      Move ⟨node :: pending, []⟩ [] ⟨pending, [Frame.ofNode node]⟩
  | close (pending : List Node) (name p : String) (kept rest : List String) (below : List Frame)
      (hmem : p ∈ name :: below.map (·.name)) :
      Move ⟨pending, ⟨name, kept, p :: rest⟩ :: below⟩
        [.cycle p (closing p (⟨name, kept, rest⟩ :: below))]
        ⟨pending, ⟨name, kept, rest⟩ :: below⟩
  | descend (pending : List Node) (name : String) (kept rest : List String) (below : List Frame)
      (node : Node) (hmem : node.name ∉ name :: below.map (·.name))
      (hfind : pending.find? (·.name == node.name) = some node) :
      Move ⟨pending, ⟨name, kept, node.name :: rest⟩ :: below⟩ []
        ⟨pending.eraseP (·.name == node.name),
          Frame.ofNode node :: ⟨name, kept, rest⟩ :: below⟩
  | keep (pending : List Node) (name p : String) (kept rest : List String) (below : List Frame)
      (hmem : p ∉ name :: below.map (·.name)) (hfind : p ∉ pending.map (·.name)) :
      Move ⟨pending, ⟨name, kept, p :: rest⟩ :: below⟩ [.inherit name kept p]
        ⟨pending, ⟨name, kept ++ [p], rest⟩ :: below⟩
  | finish (pending : List Node) (name : String) (kept : List String) :
      Move ⟨pending, [⟨name, kept, []⟩]⟩ [.finish ⟨name, kept⟩] ⟨pending, []⟩
  | leave (pending : List Node) (name : String) (kept : List String) (g : Frame)
      (below : List Frame) :
      Move ⟨pending, ⟨name, kept, []⟩ :: g :: below⟩
        [.finish ⟨name, kept⟩, .inherit g.name g.kept name]
        ⟨pending, ⟨g.name, g.kept ++ [name], g.rest⟩ :: below⟩

theorem Walk.move_of_step {w w' : Walk} {events : List Event}
    (h : w.step = some (events, w')) : Move w events w' := by
  obtain ⟨pending, stack⟩ := w
  cases stack with
  | nil =>
    cases pending with
    | nil => simp [step] at h
    | cons node pending =>
      simp only [step, Option.some.injEq, Prod.mk.injEq] at h
      obtain ⟨rfl, rfl⟩ := h
      exact .start node pending
  | cons f below =>
    obtain ⟨name, kept, todo⟩ := f
    cases todo with
    | nil =>
      cases below with
      | nil =>
        simp only [step, Walk.leave, Option.some.injEq, Prod.mk.injEq] at h
        obtain ⟨rfl, rfl⟩ := h
        exact .finish pending name kept
      | cons g below =>
        simp only [step, Walk.leave, Option.some.injEq, Prod.mk.injEq] at h
        obtain ⟨rfl, rfl⟩ := h
        exact .leave pending name kept g below
    | cons p rest =>
      simp only [step, look, Option.some.injEq] at h
      split at h
      · next hany =>
        obtain ⟨rfl, rfl⟩ := Prod.mk.inj h
        refine .close pending name p kept rest below ?_
        rw [List.any_eq_true] at hany
        obtain ⟨g, hg, hgp⟩ := hany
        obtain rfl := eq_of_beq hgp
        simpa using List.mem_map_of_mem (f := Frame.name) hg
      · next hany =>
        have hmem : p ∉ name :: below.map (·.name) := by
          intro hp
          refine hany (List.any_eq_true.mpr ?_)
          rcases List.mem_cons.mp hp with rfl | hp
          · exact ⟨_, List.mem_cons_self, by simp⟩
          · obtain ⟨g, hg, rfl⟩ := List.mem_map.mp hp
            exact ⟨g, List.mem_cons_of_mem _ hg, by simp⟩
        split at h
        · next node hfind =>
          obtain ⟨rfl, rfl⟩ := Prod.mk.inj h
          obtain rfl : node.name = p := by simpa using List.find?_some hfind
          exact .descend pending name kept rest below node hmem hfind
        · next hfind =>
          obtain ⟨rfl, rfl⟩ := Prod.mk.inj h
          refine .keep pending name p kept rest below hmem ?_
          rw [List.find?_eq_none] at hfind
          intro hp
          obtain ⟨n, hn, rfl⟩ := List.mem_map.mp hp
          exact hfind n hn (by simp)

/-! ## Views of a trace and of a state -/

/-- The edge from a class to a parent that an event drops. The path of a cycle ends with the
class that drops its parent, followed by that parent. -/
def Event.dropped? : Event → Option (String × String)
  | .cycle first path => some (path.dropLast.getLastD first, first)
  | _ => none

/-- The edges that a trace drops. -/
def dropped (events : List Event) : List (String × String) := events.filterMap Event.dropped?

/-- The parents that a class drops. -/
def droppedBy (events : List Event) (name : String) : List String :=
  ((dropped events).filter (·.1 == name)).map (·.2)

/-- In a list of nodes every parent stands before its children, and no name stands twice. -/
inductive ParentsFirst : List Node → Prop where
  | nil : ParentsFirst []
  | snoc {nodes : List Node} {node : Node} (hnodes : ParentsFirst nodes)
      (hname : node.name ∉ nodes.map (·.name))
      (hparents : ∀ p ∈ node.parents, p ∈ nodes.map (·.name)) : ParentsFirst (nodes ++ [node])

/-- The frames as nodes. `part f awaited` are the parents in question of the frame `f`, where
`awaited` holds the class above it, which it is about to keep. -/
def frameNodes (part : Frame → List String → List String) : List String → List Frame → List Node
  | _, [] => []
  | awaited, f :: below => ⟨f.name, part f awaited⟩ :: frameNodes part [f.name] below

theorem map_name_frameNodes (part : Frame → List String → List String) (awaited : List String)
    (stack : List Frame) : (frameNodes part awaited stack).map (·.name) = stack.map (·.name) := by
  induction stack generalizing awaited with
  | nil => rfl
  | cons f below ih => simp [frameNodes, ih]

namespace Walk

/-- Every class with the parents that it has not dropped. -/
def outlook (past : List Event) (w : Walk) : List Node :=
  order past ++ frameNodes (fun f awaited => f.kept ++ awaited ++ f.rest) [] w.stack ++ w.pending

/-- The classes whose walk has begun, with the parents that they are certain to keep. -/
def settled (past : List Event) (w : Walk) : List Node :=
  order past ++ frameNodes (fun f awaited => f.kept ++ awaited) [] w.stack

/-- The classes whose walk has begun, with the parents that they have kept. -/
def touched (past : List Event) (w : Walk) : List Node :=
  order past ++ w.stack.map fun f => ⟨f.name, f.kept⟩

/-- In `nodes`, the class `child` has `parent` right after the parents `earlier`. -/
def Inherits (nodes : List Node) (child : String) (earlier : List String) (parent : String) :
    Prop :=
  ∃ n ∈ nodes, n.name = child ∧ earlier ++ [parent] <+: n.parents

/-- The class `child` is certain to keep `parent`. -/
def Settles (past : List Event) (w : Walk) (child parent : String) : Prop :=
  ∃ n ∈ settled past w, n.name = child ∧ parent ∈ n.parents

/-- The invariant of the walk over `nodes`: `past` is the trace that led to the state. -/
structure Inv (nodes : List Node) (past : List Event) (w : Walk) : Prop where
  /-- Every class is finished, on the stack or pending. -/
  names : ((outlook past w).map (·.name)).Perm (nodes.map (·.name))
  /-- A class still has its declared parents, in order, but for those that it dropped. -/
  linked : ∀ n ∈ outlook past w, ∃ d ∈ nodes, d.name = n.name ∧ n.parents.Sublist d.parents
    ∧ (n.parents ++ droppedBy past n.name).Perm d.parents
  dropped_nodup : (dropped past).Nodup
  dropped_known : ∀ e ∈ dropped past, e.1 ∈ nodes.map (·.name)
  ordered : ParentsFirst (order past)
  kept_finished : ∀ f ∈ w.stack, ∀ p ∈ f.kept, p ∈ (order past).map (·.name)
  /-- Every parent that is kept is recorded, with the parents kept before it. -/
  inherits : ∀ child earlier parent, Event.inherit child earlier parent ∈ past ↔
    Inherits (touched past w) child earlier parent
  /-- A cycle is recorded as a simple path of settled edges that ends in the dropped edge. -/
  cycles : ∀ first path, Event.cycle first path ∈ past → ∃ mid, path = mid ++ [first]
    ∧ (first :: mid).Nodup ∧ (first :: mid).IsChain (Settles past w)

end Walk

/-! ### The views event by event -/

section Views

variable (first child parent : String) (path earlier : List String) (node : Node)
  (events : List Event)

@[simp] theorem order_nil : order [] = [] := rfl

@[simp] theorem order_cycle : order (.cycle first path :: events) = order events := rfl

@[simp] theorem order_inherit :
    order (.inherit child earlier parent :: events) = order events := rfl

@[simp] theorem order_finish : order (.finish node :: events) = node :: order events := rfl

@[simp] theorem dropped_nil : dropped [] = [] := rfl

@[simp] theorem dropped_cycle :
    dropped (.cycle first path :: events)
      = (path.dropLast.getLastD first, first) :: dropped events := rfl

@[simp] theorem dropped_inherit :
    dropped (.inherit child earlier parent :: events) = dropped events := rfl

@[simp] theorem dropped_finish : dropped (.finish node :: events) = dropped events := rfl

end Views

@[simp] theorem order_append (past events : List Event) :
    order (past ++ events) = order past ++ order events := by
  simp [order]

@[simp] theorem dropped_append (past events : List Event) :
    dropped (past ++ events) = dropped past ++ dropped events := by
  simp [dropped]

/-! ## Steps that drop nothing

Such a step only moves a class from one part of the outlook to another. -/

theorem perm_cons_eraseP {nodes : List Node} {q : Node → Bool} {node : Node}
    (h : nodes.find? q = some node) : nodes.Perm (node :: nodes.eraseP q) := by
  obtain ⟨hq, before, after, rfl, hbefore⟩ := List.find?_eq_some_iff_append.mp h
  have hbefore : ∀ a ∈ before, ¬q a = true := by simpa using hbefore
  rw [List.eraseP_append_right _ hbefore, List.eraseP_cons_of_pos hq]
  exact List.perm_middle

namespace Walk

theorem outlook_perm_of_quiet (past : List Event) {events : List Event} {w w' : Walk}
    (h : Move w events w') (hquiet : dropped events = []) :
    (outlook (past ++ events) w').Perm (outlook past w) := by
  cases h with
  | start node pending => simp [outlook, frameNodes, Frame.ofNode]
  | close pending name p kept rest below hmem => simp at hquiet
  | descend pending name kept rest below node hmem hfind =>
    have hperm := perm_cons_eraseP hfind
    simp only [outlook, frameNodes, Frame.ofNode, List.append_nil, List.nil_append,
      List.append_assoc, List.cons_append]
    refine .append_left _ ?_
    -- the node leaves the pending ones and becomes the innermost frame
    refine (List.Perm.swap _ _ _).trans (.cons _ ?_)
    exact List.perm_middle.symm.trans (.append_left _ hperm.symm)
  | keep pending name p kept rest below hmem hfind => simp [outlook, frameNodes]
  | finish pending name kept => simp [outlook, frameNodes]
  | leave pending name kept g below => simp [outlook, frameNodes]

/-! ## Settled edges

An edge that is certain to be kept stays so. The names on the stack, from the outside in, are a
path of such edges. -/

theorem Settles.move {past events : List Event} {w w' : Walk} (h : Move w events w')
    {child parent : String} (hs : Settles past w child parent) :
    Settles (past ++ events) w' child parent := by
  obtain ⟨n, hn, hname, hparent⟩ := hs
  rw [settled, List.mem_append] at hn
  rcases hn with hn | hn
  · exact ⟨n, by simp [settled, hn], hname, hparent⟩
  · cases h with
    | start node pending => simp [frameNodes] at hn
    | close pending name p kept rest below hmem =>
      exact ⟨n, by simpa [settled, frameNodes] using Or.inr hn, hname, hparent⟩
    | descend pending name kept rest below node hmem hfind =>
      simp only [frameNodes, List.append_nil, List.mem_cons] at hn
      rcases hn with rfl | hn
      · refine ⟨⟨name, kept ++ [node.name]⟩, ?_, hname, List.mem_append_left _ hparent⟩
        simp [settled, frameNodes, Frame.ofNode]
      · exact ⟨n, by simp [settled, frameNodes, hn], hname, hparent⟩
    | keep pending name p kept rest below hmem hfind =>
      simp only [frameNodes, List.append_nil, List.mem_cons] at hn
      rcases hn with rfl | hn
      · refine ⟨⟨name, kept ++ [p]⟩, ?_, hname, List.mem_append_left _ hparent⟩
        simp [settled, frameNodes]
      · exact ⟨n, by simp [settled, frameNodes, hn], hname, hparent⟩
    | finish pending name kept =>
      exact ⟨n, by simpa [settled, frameNodes] using Or.inr hn, hname, hparent⟩
    | leave pending name kept g below =>
      exact ⟨n, by simpa [settled, frameNodes] using Or.inr hn, hname, hparent⟩

theorem isChain_frameNodes (awaited : List String) (stack : List Frame) :
    (stack.map (·.name)).IsChain fun upper lower =>
      ∃ n ∈ frameNodes (fun f awaited => f.kept ++ awaited) awaited stack,
        n.name = lower ∧ upper ∈ n.parents := by
  induction stack generalizing awaited with
  | nil => exact .nil
  | cons f below ih =>
    cases below with
    | nil => exact .singleton _
    | cons g below =>
      -- the class below awaits the class above it
      refine .cons_cons ⟨⟨g.name, g.kept ++ [f.name]⟩, by simp [frameNodes], rfl, by simp⟩ ?_
      refine (ih [f.name]).imp fun upper lower => ?_
      rintro ⟨n, hn, hnp⟩
      exact ⟨n, by rw [frameNodes]; exact List.mem_cons_of_mem _ hn, hnp⟩

/-- The names on the stack, innermost first, are a path of settled edges backwards. -/
theorem isChain_stack (past : List Event) (w : Walk) :
    (w.stack.map (·.name)).IsChain fun upper lower => Settles past w lower upper := by
  refine (isChain_frameNodes [] w.stack).imp fun upper lower => ?_
  rintro ⟨n, hn, hnp⟩
  exact ⟨n, by simp [settled, hn], hnp⟩

/-- The path of a cycle as the piece of the stack down to the class that closes it. -/
theorem reverse_takeWhile_append {names : List String} {p : String} (hmem : p ∈ names) :
    ∃ below, names = (p :: (names.takeWhile (· != p)).reverse).reverse ++ below := by
  induction names with
  | nil => simp at hmem
  | cons name rest ih =>
    by_cases hp : name = p
    · exact ⟨rest, by simp [hp]⟩
    · obtain ⟨below, hbelow⟩ := ih ((List.mem_cons.mp hmem).resolve_left (Ne.symm hp))
      exact ⟨below, by simpa [List.takeWhile_cons, hp] using hbelow⟩

/-- The class that drops its parent is the innermost one. -/
theorem getLastD_closing (f : Frame) (below : List Frame) (p : String) :
    (closing p (f :: below)).dropLast.getLastD p = f.name := by
  rw [closing, List.dropLast_concat, List.getLastD_eq_getLast?, List.getLast?_reverse,
    List.map_cons]
  by_cases hp : f.name = p <;> simp [hp]

/-! ## The invariant is preserved -/

/-- The outlook of the classes other than the innermost one. -/
def others (past : List Event) (pending : List Node) (name : String) (below : List Frame) :
    List Node :=
  order past ++ (frameNodes (fun f awaited => f.kept ++ awaited ++ f.rest) [name] below ++ pending)

theorem outlook_perm_cons (past : List Event) (pending : List Node) (f : Frame)
    (below : List Frame) :
    (outlook past ⟨pending, f :: below⟩).Perm
      (⟨f.name, f.kept ++ f.rest⟩ :: others past pending f.name below) := by
  simp only [outlook, others, frameNodes, List.append_nil, List.append_assoc, List.cons_append]
  exact List.perm_middle

namespace Inv

variable {nodes : List Node} {past events : List Event} {w w' : Walk}

theorem outlook_nodup (h : Inv nodes past w) (hwl : WellLinked nodes) :
    ((outlook past w).map (·.name)).Nodup :=
  h.names.nodup_iff.mpr hwl.names

/-- What is left of the parents of a class is without repetition, and apart from what was
dropped. -/
theorem parents_nodup (h : Inv nodes past w) (hwl : WellLinked nodes) {n : Node}
    (hn : n ∈ outlook past w) : (n.parents ++ droppedBy past n.name).Nodup := by
  obtain ⟨d, hd, -, -, hperm⟩ := h.linked n hn
  exact hperm.nodup_iff.mpr (hwl.parents d hd)

/-- A parent of the innermost class that is neither on the stack nor pending is finished. -/
theorem parent_finished {name p : String} {kept rest : List String} {below : List Frame}
    {pending : List Node} (h : Inv nodes past ⟨pending, ⟨name, kept, p :: rest⟩ :: below⟩)
    (hwl : WellLinked nodes) (hmem : p ∉ name :: below.map (·.name))
    (hfind : p ∉ pending.map (·.name)) : p ∈ (order past).map (·.name) := by
  obtain ⟨d, hd, -, hsub, -⟩ := h.linked ⟨name, kept ++ p :: rest⟩
    ((outlook_perm_cons _ _ _ _).mem_iff.mpr List.mem_cons_self)
  have hp : p ∈ nodes.map (·.name) := hwl.known d hd p (hsub.subset (by simp))
  -- a class is finished, on the stack or pending
  have hp := h.names.mem_iff.mpr hp
  rw [outlook, List.map_append, List.map_append, map_name_frameNodes, List.mem_append,
    List.mem_append] at hp
  rcases hp with (hp | hp) | hp
  · exact hp
  · exact absurd hp hmem
  · exact absurd hp hfind

/-- Where nothing is dropped, the part of the invariant about parents goes over. -/
theorem linked_of_quiet (h : Inv nodes past w) (hm : Move w events w')
    (hquiet : dropped events = []) :
    ∀ n ∈ outlook (past ++ events) w', ∃ d ∈ nodes, d.name = n.name
      ∧ n.parents.Sublist d.parents
      ∧ (n.parents ++ droppedBy (past ++ events) n.name).Perm d.parents := by
  intro n hn
  have hsame : droppedBy (past ++ events) n.name = droppedBy past n.name := by
    simp [droppedBy, hquiet]
  rw [hsame]
  exact h.linked n ((outlook_perm_of_quiet past hm hquiet).mem_iff.mp hn)

/-- When a cycle is closed, the innermost class loses the parent that it looks at, and the other
classes lose nothing. -/
theorem linked_of_close {pending : List Node} {name p : String} {kept rest path : List String}
    {below : List Frame} (h : Inv nodes past ⟨pending, ⟨name, kept, p :: rest⟩ :: below⟩)
    (hwl : WellLinked nodes) (hpath : path.dropLast.getLastD p = name) :
    ∀ n ∈ outlook (past ++ [.cycle p path]) ⟨pending, ⟨name, kept, rest⟩ :: below⟩,
      ∃ d ∈ nodes, d.name = n.name ∧ n.parents.Sublist d.parents
        ∧ (n.parents ++ droppedBy (past ++ [.cycle p path]) n.name).Perm d.parents := by
  intro n hn
  have hdropped : droppedBy (past ++ [.cycle p path]) n.name
      = droppedBy past n.name ++ if name = n.name then [p] else [] := by
    rw [droppedBy, dropped_append, dropped_cycle, hpath]
    by_cases hname : name = n.name <;> simp [droppedBy, hname]
  rw [hdropped]
  rcases List.mem_cons.mp ((outlook_perm_cons _ _ _ _).mem_iff.mp hn) with rfl | hn
  · -- `p` moves from the parents of the innermost class to those that it dropped
    obtain ⟨d, hd, hname, hsub, hperm⟩ := h.linked ⟨name, kept ++ p :: rest⟩
      ((outlook_perm_cons _ _ _ _).mem_iff.mpr List.mem_cons_self)
    refine ⟨d, hd, hname, ?_, ?_⟩
    · exact ((List.sublist_cons_self p rest).append_left kept).trans hsub
    · rw [if_pos rfl]
      refine .trans ?_ hperm
      calc (kept ++ rest) ++ (droppedBy past name ++ [p])
          = (kept ++ (rest ++ droppedBy past name)) ++ [p] := by simp
        _ |>.Perm (p :: (kept ++ (rest ++ droppedBy past name))) :=
            List.perm_append_singleton p _
        _ |>.Perm (kept ++ p :: (rest ++ droppedBy past name)) := List.perm_middle.symm
        _ = (kept ++ p :: rest) ++ droppedBy past name := by simp
  · -- another class: the event is not about it
    have hn : n ∈ others past pending name below := by simpa [others] using hn
    have hnodup : (name :: (others past pending name below).map (·.name)).Nodup :=
      ((outlook_perm_cons _ _ _ _).map _).nodup_iff.mp (h.outlook_nodup hwl)
    have hne : name ≠ n.name := by
      rintro rfl
      exact (List.nodup_cons.mp hnodup).1 (List.mem_map_of_mem hn)
    rw [if_neg hne, List.append_nil]
    exact h.linked n ((outlook_perm_cons _ _ _ _).mem_iff.mpr (List.mem_cons_of_mem _ hn))

/-- An edge that closes a cycle has not been dropped before. -/
theorem not_mem_dropped {pending : List Node} {name p : String} {kept rest : List String}
    {below : List Frame} (h : Inv nodes past ⟨pending, ⟨name, kept, p :: rest⟩ :: below⟩)
    (hwl : WellLinked nodes) : (name, p) ∉ dropped past := by
  intro hmem
  have hnodup := h.parents_nodup hwl (n := ⟨name, kept ++ p :: rest⟩)
    ((outlook_perm_cons _ _ _ _).mem_iff.mpr List.mem_cons_self)
  have hp : p ∈ droppedBy past name :=
    List.mem_map.mpr ⟨(name, p), List.mem_filter.mpr ⟨hmem, by simp⟩, rfl⟩
  exact (List.nodup_append.mp hnodup).2.2 p (by simp) p hp rfl

/-- The path that is recorded when a cycle is closed. -/
theorem cycle_of_close {pending : List Node} {name p : String} {kept rest : List String}
    {below : List Frame} (h : Inv nodes past ⟨pending, ⟨name, kept, p :: rest⟩ :: below⟩)
    (hwl : WellLinked nodes) (hmem : p ∈ name :: below.map (·.name)) :
    ∃ mid, closing p (⟨name, kept, rest⟩ :: below) = mid ++ [p] ∧ (p :: mid).Nodup
      ∧ (p :: mid).IsChain (Settles past ⟨pending, ⟨name, kept, p :: rest⟩ :: below⟩) := by
  obtain ⟨outer, houter⟩ := reverse_takeWhile_append hmem
  refine ⟨((name :: below.map (·.name)).takeWhile (· != p)).reverse, rfl, ?_, ?_⟩
  · -- no name is on the stack twice
    have hstack : (name :: below.map (·.name)).Nodup := by
      have hnodup := h.outlook_nodup hwl
      rw [outlook, List.map_append, List.map_append, map_name_frameNodes] at hnodup
      exact (List.nodup_append.mp (List.nodup_append.mp hnodup).1).2.1
    rw [houter] at hstack
    exact (List.reverse_perm _).nodup_iff.mp (List.nodup_append.mp hstack).1
  · -- the stack read from the outside in is a path
    have hchain := isChain_stack past ⟨pending, ⟨name, kept, p :: rest⟩ :: below⟩
    rw [List.map_cons, houter] at hchain
    exact List.isChain_reverse.mp hchain.left_of_append

end Inv

/-! ### Kept parents -/

theorem inherits_cons {n : Node} {l : List Node} {child parent : String}
    {earlier : List String} :
    Inherits (n :: l) child earlier parent ↔
      (n.name = child ∧ earlier ++ [parent] <+: n.parents) ∨ Inherits l child earlier parent := by
  simp [Inherits]

theorem inherits_append {l l' : List Node} {child parent : String} {earlier : List String} :
    Inherits (l ++ l') child earlier parent ↔
      Inherits l child earlier parent ∨ Inherits l' child earlier parent := by
  simp only [Inherits, List.mem_append, or_and_right, exists_or]

/-- Keeping one more parent adds one way in which a class has a parent after others. -/
theorem inherits_concat {l l' : List Node} {name p child parent : String}
    {kept earlier : List String} :
    Inherits (l ++ ⟨name, kept ++ [p]⟩ :: l') child earlier parent ↔
      Inherits (l ++ ⟨name, kept⟩ :: l') child earlier parent
        ∨ (child = name ∧ earlier = kept ∧ parent = p) := by
  simp only [inherits_append, inherits_cons, List.prefix_concat_iff]
  constructor
  · rintro (h | ⟨hname, heq | h⟩ | h)
    · exact .inl (.inl h)
    · obtain ⟨rfl, hp⟩ := List.append_inj' heq rfl
      exact .inr ⟨hname.symm, rfl, by simpa using hp⟩
    · exact .inl (.inr (.inl ⟨hname, h⟩))
    · exact .inl (.inr (.inr h))
  · rintro ((h | ⟨hname, h⟩ | h) | ⟨rfl, rfl, rfl⟩)
    · exact .inl h
    · exact .inr (.inl ⟨hname, .inr h⟩)
    · exact .inr (.inr h)
    · exact .inr (.inl ⟨rfl, .inl rfl⟩)

theorem not_inherits_nil {child parent : String} {earlier : List String} :
    ¬Inherits [] child earlier parent := by
  simp [Inherits]

namespace Inv

variable {nodes : List Node} {past events : List Event} {w w' : Walk}

theorem inherits_move (h : Inv nodes past w) (hm : Move w events w')
    (child : String) (earlier : List String) (parent : String) :
    Event.inherit child earlier parent ∈ past ++ events ↔
      Inherits (touched (past ++ events) w') child earlier parent := by
  have hpast := h.inherits child earlier parent
  rw [List.mem_append, hpast]
  cases hm with
  | start node pending =>
    simp [touched, inherits_append, inherits_cons, not_inherits_nil, Frame.ofNode]
  | close pending name p kept rest below hmem =>
    simp [touched]
  | descend pending name kept rest below node hmem hfind =>
    simp [touched, inherits_append, inherits_cons, Frame.ofNode]
  | keep pending name p kept rest below hmem hfind =>
    simp only [touched, order_append, order_inherit, order_nil, List.append_nil, List.map_cons,
      inherits_concat]
    simp
  | finish pending name kept =>
    simp [touched]
  | leave pending name kept g below =>
    simp only [touched, order_append, order_finish, order_inherit, order_nil, List.map_cons,
      inherits_concat]
    simp

/-- A class that ends its walk comes after the parents that it has kept. -/
theorem parentsFirst_finish {pending : List Node} {name : String} {kept : List String}
    {below : List Frame} (h : Inv nodes past ⟨pending, ⟨name, kept, []⟩ :: below⟩)
    (hwl : WellLinked nodes) : ParentsFirst (order past ++ [⟨name, kept⟩]) := by
  refine .snoc h.ordered ?_ fun p hp => h.kept_finished _ List.mem_cons_self p hp
  have hnodup : (name :: (others past pending name below).map (·.name)).Nodup :=
    ((outlook_perm_cons _ _ _ _).map _).nodup_iff.mp (h.outlook_nodup hwl)
  rw [others, List.map_append, List.nodup_cons, List.mem_append, not_or] at hnodup
  exact hnodup.1.1

theorem ordered_move (h : Inv nodes past w) (hwl : WellLinked nodes) (hm : Move w events w') :
    ParentsFirst (order (past ++ events))
      ∧ ∀ f ∈ w'.stack, ∀ p ∈ f.kept, p ∈ (order (past ++ events)).map (·.name) := by
  have hkept := h.kept_finished
  cases hm with
  | start node pending => simpa [Frame.ofNode] using h.ordered
  | close pending name p kept rest below hmem => simpa using ⟨h.ordered, by simpa using hkept⟩
  | descend pending name kept rest below node hmem hfind =>
    simpa [Frame.ofNode] using ⟨h.ordered, by simpa using hkept⟩
  | keep pending name p kept rest below hmem hfind =>
    -- neither on the stack nor pending, so the parent has been walked
    have hp := h.parent_finished hwl hmem hfind
    simp only [order_append, order_inherit, order_nil, List.append_nil]
    refine ⟨h.ordered, ?_⟩
    intro f hf q hq
    rcases List.mem_cons.mp hf with rfl | hf
    · rcases List.mem_append.mp hq with hq | hq
      · exact hkept _ List.mem_cons_self q hq
      · exact List.mem_singleton.mp hq ▸ hp
    · exact hkept f (List.mem_cons_of_mem _ hf) q hq
  | finish pending name kept => simpa using h.parentsFirst_finish hwl
  | leave pending name kept g below =>
    -- the class below keeps the one that has just been finished
    simp only [order_append, order_finish, order_inherit, order_nil]
    refine ⟨h.parentsFirst_finish hwl, ?_⟩
    intro f hf q hq
    rw [List.map_append, List.mem_append]
    rcases List.mem_cons.mp hf with rfl | hf
    · rcases List.mem_append.mp hq with hq | hq
      · exact .inl (hkept g (by simp) q hq)
      · exact .inr (by simpa using hq)
    · exact .inl (hkept f (by simp [hf]) q hq)

/-- Recorded cycles stay paths of settled edges. -/
theorem cycles_move (h : Inv nodes past w) (hm : Move w events w') {first : String}
    {path : List String} (hmem : Event.cycle first path ∈ past) :
    ∃ mid, path = mid ++ [first] ∧ (first :: mid).Nodup
      ∧ (first :: mid).IsChain (Settles (past ++ events) w') := by
  obtain ⟨mid, hmid, hnodup, hchain⟩ := h.cycles first path hmem
  exact ⟨mid, hmid, hnodup, hchain.imp fun _ _ hs => hs.move hm⟩

/-- A step that drops nothing preserves the invariant. -/
theorem move_of_quiet (h : Inv nodes past w) (hwl : WellLinked nodes) (hm : Move w events w')
    (hquiet : dropped events = []) : Inv nodes (past ++ events) w' := by
  have hperm := outlook_perm_of_quiet past hm hquiet
  obtain ⟨hordered, hkept⟩ := h.ordered_move hwl hm
  refine ⟨(hperm.map _).trans h.names, h.linked_of_quiet hm hquiet, ?_, ?_, hordered, hkept,
    h.inherits_move hm, ?_⟩
  · simpa [hquiet] using h.dropped_nodup
  · simpa [hquiet] using h.dropped_known
  · intro first path hmem
    rcases List.mem_append.mp hmem with hmem | hmem
    · exact h.cycles_move hm hmem
    · -- a new cycle would drop an edge
      have hedge : (path.dropLast.getLastD first, first) ∈ dropped events :=
        List.mem_filterMap.mpr ⟨_, hmem, rfl⟩
      rw [hquiet] at hedge
      exact absurd hedge List.not_mem_nil

/-- The step that closes a cycle preserves the invariant: exactly one edge is dropped, from the
innermost class to the parent that it looks at. -/
theorem move_of_close {pending : List Node} {name p : String} {kept rest : List String}
    {below : List Frame} (h : Inv nodes past ⟨pending, ⟨name, kept, p :: rest⟩ :: below⟩)
    (hwl : WellLinked nodes) (hmem : p ∈ name :: below.map (·.name)) :
    Inv nodes (past ++ [.cycle p (closing p (⟨name, kept, rest⟩ :: below))])
      ⟨pending, ⟨name, kept, rest⟩ :: below⟩ := by
  have hm := Move.close pending name p kept rest below hmem
  have hlast := getLastD_closing ⟨name, kept, rest⟩ below p
  obtain ⟨hordered, hkept⟩ := h.ordered_move hwl hm
  refine ⟨?_, h.linked_of_close hwl hlast, ?_, ?_, hordered, hkept, h.inherits_move hm, ?_⟩
  · -- only parents change, so the names are the same
    have hnames := h.names
    simpa [outlook, map_name_frameNodes] using hnames
  · rw [dropped_append, dropped_cycle, hlast, dropped_nil]
    refine List.nodup_append.mpr ⟨h.dropped_nodup, by simp, ?_⟩
    rintro e he e' he' rfl
    exact h.not_mem_dropped hwl (List.mem_singleton.mp he' ▸ he)
  · intro e he
    rw [dropped_append, dropped_cycle, hlast, dropped_nil, List.mem_append] at he
    rcases he with he | he
    · exact h.dropped_known e he
    · obtain rfl : e = (name, p) := by simpa using he
      refine h.names.mem_iff.mp (List.mem_map.mpr ⟨⟨name, kept ++ p :: rest⟩, ?_, rfl⟩)
      exact (outlook_perm_cons _ _ _ _).mem_iff.mpr List.mem_cons_self
  · intro first path hcycle
    rcases List.mem_append.mp hcycle with hcycle | hcycle
    · exact h.cycles_move hm hcycle
    · obtain ⟨rfl, rfl⟩ : first = p ∧ path = closing p (⟨name, kept, rest⟩ :: below) := by
        simpa using hcycle
      obtain ⟨mid, hmid, hnodup, hchain⟩ := h.cycle_of_close hwl hmem
      exact ⟨mid, hmid, hnodup, hchain.imp fun _ _ hs => hs.move hm⟩

/-- **One step preserves the invariant.** -/
theorem move (h : Inv nodes past w) (hwl : WellLinked nodes) (hm : Move w events w') :
    Inv nodes (past ++ events) w' := by
  cases hm with
  | close pending name p kept rest below hmem => exact h.move_of_close hwl hmem
  | start node pending => exact h.move_of_quiet hwl (.start node pending) rfl
  | descend pending name kept rest below node hmem hfind =>
    exact h.move_of_quiet hwl (.descend pending name kept rest below node hmem hfind) rfl
  | keep pending name p kept rest below hmem hfind =>
    exact h.move_of_quiet hwl (.keep pending name p kept rest below hmem hfind) rfl
  | finish pending name kept => exact h.move_of_quiet hwl (.finish pending name kept) rfl
  | leave pending name kept g below =>
    exact h.move_of_quiet hwl (.leave pending name kept g below) rfl

end Inv

/-! ## The whole walk -/

theorem events_of_none {w : Walk} (h : w.step = none) : w.events = [] := by
  rw [Walk.events]
  split
  · rfl
  · next h' => rw [h] at h'; cases h'

theorem events_of_some {w w' : Walk} {events : List Event} (h : w.step = some (events, w')) :
    w.events = events ++ w'.events := by
  rw [Walk.events]
  split
  · next h' => rw [h] at h'; cases h'
  · next events' w'' h' =>
    rw [h] at h'
    obtain ⟨rfl, rfl⟩ := Prod.mk.inj (Option.some.inj h')
    rfl

theorem eq_end_of_step_eq_none {w : Walk} (h : w.step = none) : w = ⟨[], []⟩ := by
  obtain ⟨pending, stack⟩ := w
  cases stack with
  | nil =>
    cases pending with
    | nil => rfl
    | cons node pending => simp [step] at h
  | cons f below =>
    obtain ⟨name, kept, todo⟩ := f
    cases todo with
    | nil => simp [step] at h
    | cons p rest => simp [step] at h

/-- **The invariant holds at the end of the walk.** Induction on the steps that are left. -/
theorem Inv.events {nodes : List Node} {past : List Event} {w : Walk} (h : Inv nodes past w)
    (hwl : WellLinked nodes) : Inv nodes (past ++ w.events) ⟨[], []⟩ := by
  induction hw : w.weight using Nat.strong_induction_on generalizing past w with
  | _ weight ih =>
    subst hw
    cases hstep : w.step with
    | none =>
      obtain rfl := eq_end_of_step_eq_none hstep
      rwa [events_of_none hstep, List.append_nil]
    | some result =>
      obtain ⟨events, w'⟩ := result
      rw [events_of_some hstep, ← List.append_assoc]
      exact ih _ (weight_step_lt hstep) (h.move hwl (move_of_step hstep)) rfl

theorem inv_start (nodes : List Node) : Inv nodes [] ⟨nodes, []⟩ where
  names := by simp [outlook, frameNodes]
  linked n hn := ⟨n, by simpa [outlook, frameNodes] using hn, rfl, .refl _, by simp [droppedBy]⟩
  dropped_nodup := .nil
  dropped_known := by simp
  ordered := .nil
  kept_finished := by simp
  inherits := by simp [touched, not_inherits_nil]
  cycles := by simp

end Walk

/-- The trace of a walk satisfies the invariant, with nothing pending and nothing on the stack. -/
theorem inv_trace {nodes : List Node} (hwl : WellLinked nodes) :
    Walk.Inv nodes (trace nodes) ⟨[], []⟩ := by
  exact (Walk.inv_start nodes).events hwl

end WireModel.Hierarchy
