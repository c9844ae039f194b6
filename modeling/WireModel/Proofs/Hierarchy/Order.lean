import Mathlib.Data.List.Nodup
import Mathlib.Logic.Relation
import Mathlib.Order.WellFounded
import WireModel.Proofs.Hierarchy.Walk
import WireModel.Proofs.Sequence

/-!
# The order that the walk leaves

The nodes that the walk finishes list every class once, parents first, with the parents that it
keeps. This module draws the consequences for the relation between classes and parents, `Edge`:

* **`edge_order_iff`**: the classes keep exactly the declared edges that the trace does not drop.
* **`wellFounded_edge`**: what they keep is acyclic.
* **`reflTransGen_of_mem_dropped`**: along kept edges, a dropped parent leads back to the class
  that dropped it.
* **`dropped_eq_nil_iff`**: nothing is dropped iff the declared edges have no cycle.

Parents first also means that a table computed along the order satisfies its defining equation
everywhere (`lookup_tabulate`), and that the table of ancestors is the transitive closure
(`mem_ancestors_iff`).
-/

namespace WireModel.Hierarchy

/-- Among `nodes`, the class `child` has the parent `parent`. -/
def Edge (nodes : List Node) (child parent : String) : Prop :=
  ∃ n ∈ nodes, n.name = child ∧ parent ∈ n.parents

/-- Names tell nodes apart. -/
theorem eq_of_name_eq {nodes : List Node} (hnodup : (nodes.map (·.name)).Nodup) {m n : Node}
    (hm : m ∈ nodes) (hn : n ∈ nodes) (h : m.name = n.name) : m = n :=
  List.inj_on_of_nodup_map hnodup hm hn h

/-! ## Parents first -/

namespace ParentsFirst

variable {nodes : List Node}

theorem names_nodup (h : ParentsFirst nodes) : (nodes.map (·.name)).Nodup := by
  induction h with
  | nil => exact .nil
  | snoc _ hname _ ih =>
    rw [List.map_append, List.nodup_append]
    refine ⟨ih, by simp, ?_⟩
    rintro a ha b hb rfl
    rw [List.mem_singleton.mp hb] at ha
    exact hname ha

theorem parents_known (h : ParentsFirst nodes) :
    ∀ n ∈ nodes, ∀ p ∈ n.parents, p ∈ nodes.map (·.name) := by
  induction h with
  | nil => simp
  | snoc _ _ hparents ih =>
    intro n hn p hp
    rw [List.map_append]
    rcases List.mem_append.mp hn with hn | hn
    · exact List.mem_append_left _ (ih n hn p hp)
    · obtain rfl := List.mem_singleton.mp hn
      exact List.mem_append_left _ (hparents p hp)

/-- **Induction along the order**: what goes from the parents of a node to the node holds of all
nodes. -/
theorem induction {P : String → Prop} (h : ParentsFirst nodes)
    (step : ∀ n ∈ nodes, (∀ p ∈ n.parents, P p) → P n.name) : ∀ n ∈ nodes, P n.name := by
  induction h with
  | nil => simp
  | @snoc before node _ _ hparents ih =>
    have hbefore := ih fun n hn => step n (List.mem_append_left _ hn)
    intro n hn
    rcases List.mem_append.mp hn with hn | hn
    · exact hbefore n hn
    · obtain rfl := List.mem_singleton.mp hn
      refine step n (by simp) fun p hp => ?_
      obtain ⟨m, hm, rfl⟩ := List.mem_map.mp (hparents p hp)
      exact hbefore m hm

/-- The edges of an order in which parents come first are well founded. -/
theorem wellFounded_edge (h : ParentsFirst nodes) :
    WellFounded fun parent child => Edge nodes child parent := by
  have hnodes : ∀ n ∈ nodes, Acc (fun parent child => Edge nodes child parent) n.name := by
    refine h.induction fun n hn ih => ⟨_, fun p hp => ?_⟩
    obtain ⟨m, hm, hname, hp⟩ := hp
    obtain rfl := eq_of_name_eq h.names_nodup hm hn hname
    exact ih p hp
  refine ⟨fun c => ⟨c, fun p hp => ?_⟩⟩
  obtain ⟨n, hn, -, hp⟩ := hp
  obtain ⟨m, hm, rfl⟩ := List.mem_map.mp (h.parents_known n hn p hp)
  exact hnodes m hm

theorem acyclic (h : ParentsFirst nodes) (c : String) :
    ¬Relation.TransGen (Edge nodes) c c := by
  intro hc
  have hc := Relation.transGen_swap.mpr hc
  exact h.wellFounded_edge.transGen.irrefl.irrefl c hc

end ParentsFirst

/-! ## Tables along the order -/

section Tabulate

variable {α : Type} (value : Node → List α → α)

theorem tabulate_concat (nodes : List Node) (node : Node) :
    tabulate value (nodes ++ [node]) = tabulate value nodes
      ++ [(node.name, value node (node.parents.filterMap fun p =>
        (tabulate value nodes).lookup p))] := by
  simp [tabulate, List.foldl_append]

theorem keys_tabulate (nodes : List Node) :
    (tabulate value nodes).map (·.1) = nodes.map (·.name) := by
  induction nodes using List.reverseRecOn with
  | nil => rfl
  | append_singleton nodes node ih => simp [tabulate_concat, ih]

theorem lookup_eq_none {table : List (String × α)} {name : String}
    (h : name ∉ table.map (·.1)) : table.lookup name = none := by
  rw [List.lookup_eq_none_iff]
  intro entry hentry
  have hne : name ≠ entry.1 := fun heq => h (heq ▸ List.mem_map_of_mem hentry)
  simpa using hne

theorem isSome_lookup {table : List (String × α)} {name : String}
    (h : name ∈ table.map (·.1)) : (table.lookup name).isSome := by
  by_contra hnone
  rw [Option.not_isSome_iff_eq_none, List.lookup_eq_none_iff] at hnone
  obtain ⟨entry, hentry, rfl⟩ := List.mem_map.mp h
  simpa using hnone entry hentry

/-- **The table satisfies its defining equation at every node**, with the values of the parents
read from the finished table: entries after a node do not concern it. -/
theorem lookup_tabulate {nodes : List Node} (h : ParentsFirst nodes) :
    ∀ n ∈ nodes, (tabulate value nodes).lookup n.name
      = some (value n (n.parents.filterMap fun p => (tabulate value nodes).lookup p)) := by
  induction h with
  | nil => simp
  | @snoc before node hbefore hname hparents ih =>
    -- an entry that is there already is not changed by the one at the end
    have hstable : ∀ p ∈ before.map (·.name),
        (tabulate value (before ++ [node])).lookup p = (tabulate value before).lookup p := by
      intro p hp
      rw [tabulate_concat, List.lookup_append]
      have hsome : ((tabulate value before).lookup p).isSome :=
        isSome_lookup (by rw [keys_tabulate]; exact hp)
      obtain ⟨v, hv⟩ := Option.isSome_iff_exists.mp hsome
      simp [hv]
    intro n hn
    have hvalues : ∀ ps : List String, (∀ p ∈ ps, p ∈ before.map (·.name)) →
        (ps.filterMap fun p => (tabulate value (before ++ [node])).lookup p)
          = ps.filterMap fun p => (tabulate value before).lookup p :=
      fun ps hps => List.filterMap_congr fun p hp => hstable p (hps p hp)
    -- parents stand before, so their values are those of the shorter table
    rcases List.mem_append.mp hn with hn | hn
    · rw [hstable _ (List.mem_map_of_mem hn), ih n hn, hvalues _ (hbefore.parents_known n hn)]
    · obtain rfl := List.mem_singleton.mp hn
      rw [hvalues _ hparents, tabulate_concat, List.lookup_append,
        lookup_eq_none (by rw [keys_tabulate]; exact hname)]
      simp

end Tabulate

/-! ## Ancestors -/

/-- **The ancestors of a class are its transitive parents.** -/
theorem mem_ancestors_iff {nodes : List Node} (h : ParentsFirst nodes) :
    ∀ n ∈ nodes, ∀ a, a ∈ ((ancestors nodes).lookup n.name).getD []
      ↔ Relation.TransGen (Edge nodes) n.name a := by
  refine h.induction (P := fun c => ∀ a, a ∈ ((ancestors nodes).lookup c).getD []
    ↔ Relation.TransGen (Edge nodes) c a) fun n hn ih a => ?_
  rw [ancestors, lookup_tabulate ancestorsOf h n hn, Option.getD_some, ancestorsOf,
    mem_distinctBy_id, List.mem_append, List.mem_flatten]
  constructor
  · rintro (ha | ⟨as, has, ha⟩)
    · exact .single ⟨n, hn, rfl, ha⟩
    · obtain ⟨p, hp, hlookup⟩ := List.mem_filterMap.mp has
      refine .head ⟨n, hn, rfl, hp⟩ ((ih p hp a).mp ?_)
      rw [ancestors, hlookup]
      exact ha
  · -- the first step of the chain leads to a parent, the rest is known of it
    intro ha
    obtain ⟨p, ⟨m, hm, hname, hp⟩, hpa⟩ := Relation.TransGen.head'_iff.mp ha
    obtain rfl := eq_of_name_eq h.names_nodup hm hn hname
    rcases hpa.cases_head with rfl | ⟨q, hq, hqa⟩
    · exact .inl hp
    · right
      have hmem := (ih p hp a).mpr (Relation.TransGen.head' hq hqa)
      cases hlookup : (ancestors nodes).lookup p with
      | none => rw [hlookup] at hmem; simp at hmem
      | some as =>
        rw [hlookup, Option.getD_some] at hmem
        exact ⟨as, List.mem_filterMap.mpr ⟨p, hp, hlookup⟩, hmem⟩

/-! ## What the walk drops -/

section Trace

variable {nodes : List Node}

theorem parentsFirst_trace (hwl : WellLinked nodes) : ParentsFirst (order (trace nodes)) :=
  (inv_trace hwl).ordered

theorem outlook_end (past : List Event) : Walk.outlook past ⟨[], []⟩ = order past := by
  simp [Walk.outlook, frameNodes]

/-- The walk finishes every class once. -/
theorem order_names_perm (hwl : WellLinked nodes) :
    ((order (trace nodes)).map (·.name)).Perm (nodes.map (·.name)) := by
  have h := (inv_trace hwl).names
  rwa [outlook_end] at h

/-- A class keeps its declared parents in order, but for those that it drops. -/
theorem parents_of_mem_order (hwl : WellLinked nodes) {n d : Node}
    (hn : n ∈ order (trace nodes)) (hd : d ∈ nodes) (hname : n.name = d.name) :
    n.parents.Sublist d.parents
      ∧ (n.parents ++ droppedBy (trace nodes) n.name).Perm d.parents := by
  obtain ⟨d', hd', hname', hsub, hperm⟩ := (inv_trace hwl).linked n (by rwa [outlook_end])
  obtain rfl := eq_of_name_eq hwl.names hd' hd (hname'.trans hname)
  exact ⟨hsub, hperm⟩

theorem exists_mem_order (hwl : WellLinked nodes) {d : Node} (hd : d ∈ nodes) :
    ∃ n ∈ order (trace nodes), n.name = d.name :=
  List.mem_map.mp ((order_names_perm hwl).mem_iff.mpr (List.mem_map_of_mem hd))

theorem exists_mem_nodes (hwl : WellLinked nodes) {n : Node} (hn : n ∈ order (trace nodes)) :
    ∃ d ∈ nodes, d.name = n.name :=
  List.mem_map.mp ((order_names_perm hwl).mem_iff.mp (List.mem_map_of_mem hn))

theorem mem_droppedBy {events : List Event} {child parent : String} :
    parent ∈ droppedBy events child ↔ (child, parent) ∈ dropped events := by
  simp [droppedBy]

/-- **The classes keep exactly the declared edges that are not dropped.** -/
theorem edge_order_iff (hwl : WellLinked nodes) {child parent : String} :
    Edge (order (trace nodes)) child parent ↔
      Edge nodes child parent ∧ (child, parent) ∉ dropped (trace nodes) := by
  constructor
  · rintro ⟨n, hn, rfl, hp⟩
    obtain ⟨d, hd, hname⟩ := exists_mem_nodes hwl hn
    obtain ⟨hsub, hperm⟩ := parents_of_mem_order hwl hn hd hname.symm
    refine ⟨⟨d, hd, hname, hsub.subset hp⟩, ?_⟩
    have hnodup := hperm.nodup_iff.mpr (hwl.parents d hd)
    rw [← mem_droppedBy]
    exact fun hdrop => (List.nodup_append.mp hnodup).2.2 parent hp parent hdrop rfl
  · rintro ⟨⟨d, hd, rfl, hp⟩, hdrop⟩
    obtain ⟨n, hn, hname⟩ := exists_mem_order hwl hd
    obtain ⟨-, hperm⟩ := parents_of_mem_order hwl hn hd hname
    refine ⟨n, hn, hname, ?_⟩
    rcases List.mem_append.mp (hperm.mem_iff.mpr hp) with hp | hp
    · exact hp
    · rw [mem_droppedBy, hname] at hp
      exact absurd hp hdrop

theorem edge_of_mem_dropped (hwl : WellLinked nodes) {child parent : String}
    (h : (child, parent) ∈ dropped (trace nodes)) : Edge nodes child parent := by
  obtain ⟨d, hd, rfl⟩ := List.mem_map.mp ((inv_trace hwl).dropped_known _ h)
  obtain ⟨n, hn, hname⟩ := exists_mem_order hwl hd
  obtain ⟨-, hperm⟩ := parents_of_mem_order hwl hn hd hname
  refine ⟨d, hd, rfl, hperm.mem_iff.mp (List.mem_append_right _ ?_)⟩
  rw [mem_droppedBy, hname]
  exact h

/-- The trace records every parent that a class keeps, with the parents kept before it. -/
theorem inherit_mem_trace_iff (hwl : WellLinked nodes) {child parent : String}
    {earlier : List String} : Event.inherit child earlier parent ∈ trace nodes ↔
      ∃ n ∈ order (trace nodes), n.name = child ∧ earlier ++ [parent] <+: n.parents := by
  have h := (inv_trace hwl).inherits child earlier parent
  rwa [Walk.Inherits, Walk.touched, List.map_nil, List.append_nil] at h

theorem finish_mem_trace_iff {n : Node} :
    Event.finish n ∈ trace nodes ↔ n ∈ order (trace nodes) := by
  rw [order, List.mem_filterMap]
  constructor
  · exact fun h => ⟨_, h, rfl⟩
  · rintro ⟨event, hevent, hn⟩
    cases event with
    | finish m => exact Option.some.inj hn ▸ hevent
    | cycle | inherit => cases hn

/-- A recorded cycle is a simple path of kept edges, closed by an edge that is dropped. -/
theorem cycle_of_mem_trace (hwl : WellLinked nodes) {first : String} {path : List String}
    (h : Event.cycle first path ∈ trace nodes) :
    ∃ mid, path = mid ++ [first] ∧ (first :: mid).Nodup
      ∧ (first :: mid).IsChain (Edge (order (trace nodes)))
      ∧ (mid.getLastD first, first) ∈ dropped (trace nodes) := by
  obtain ⟨mid, rfl, hnodup, hchain⟩ := (inv_trace hwl).cycles first path h
  refine ⟨mid, rfl, hnodup, hchain.imp fun child parent hs => ?_, ?_⟩
  · obtain ⟨n, hn, hnp⟩ := hs
    exact ⟨n, by simpa [Walk.settled, frameNodes] using hn, hnp⟩
  · exact List.mem_filterMap.mpr ⟨_, h, by simp [Event.dropped?]⟩

/-- **A dropped parent leads back, along kept edges, to the class that dropped it.** -/
theorem reflTransGen_of_mem_dropped (hwl : WellLinked nodes) {child parent : String}
    (h : (child, parent) ∈ dropped (trace nodes)) :
    Relation.ReflTransGen (Edge (order (trace nodes))) parent child := by
  obtain ⟨event, hevent, hdrop⟩ := List.mem_filterMap.mp h
  cases event with
  | cycle first path =>
    obtain ⟨mid, rfl, -, hchain, -⟩ := cycle_of_mem_trace hwl hevent
    obtain ⟨rfl, rfl⟩ : mid.getLastD first = child ∧ first = parent := by
      simpa [Event.dropped?] using hdrop
    refine List.relationReflTransGen_of_exists_isChain_cons mid hchain ?_
    rw [List.getLastD_eq_getLast?]
    cases mid using List.reverseRecOn <;> simp
  | inherit | finish => simp [Event.dropped?] at hdrop

/-- **Nothing is dropped iff the declared edges have no cycle.** -/
theorem dropped_eq_nil_iff (hwl : WellLinked nodes) :
    dropped (trace nodes) = [] ↔ ∀ c, ¬Relation.TransGen (Edge nodes) c c := by
  constructor
  · -- all edges are kept, and those have no cycle
    intro hnil c hc
    refine (parentsFirst_trace hwl).acyclic c (Relation.TransGen.mono ?_ c c hc)
    exact fun child parent hedge => (edge_order_iff hwl).mpr ⟨hedge, by simp [hnil]⟩
  · -- a dropped edge and the way back along kept ones are a cycle of declared edges
    intro hacyclic
    by_contra hne
    obtain ⟨⟨child, parent⟩, h⟩ := List.exists_mem_of_ne_nil _ hne
    have hpath : Relation.ReflTransGen (Edge nodes) parent child :=
      Relation.ReflTransGen.mono (fun _ _ hedge => ((edge_order_iff hwl).mp hedge).1) _ _
        (reflTransGen_of_mem_dropped hwl h)
    exact hacyclic child (.head' (edge_of_mem_dropped hwl h) hpath)

end Trace

end WireModel.Hierarchy
