import Mathlib.Data.List.Basic
import Mathlib.Data.List.Nodup
import Mathlib.Logic.Relation

/-!
# Listing ancestors depth first

The ancestors of a class can be listed by going through its parents in order, and from each
parent through its own parents first; a class is listed when it is left, and never again. The
listing does not care how parents are found, so it is stated for any function `parents`.

## The architecture

* **`Visits`**: the listing as a relation between what is listed already, the classes still to
  be gone through, and what is listed in the end. It is deterministic (`Visits.unique`).
* **`Visits.restart`**: the crux. What a listing adds does not depend on where it begins, but for
  the classes that are listed already: after a listing `K` that holds the parents of all its
  classes, one goes on as if `K` had been empty and leaves out what is in `K`.
* **`Visits.snoc`**: hence a listing of several classes is made of the listings of each of them,
  by appending each time what is new. That is how flattened lists of parents are merged.
* **`Visits.mem_iff`**, **`Visits.nodup`**: the listing of a class holds the class and its
  ancestors, and where parents have no cycle it holds each of them once.
-/

namespace WireModel.Hierarchy

/-- `Visits parents seen todo listed`: going depth first through `todo`, where every class comes
after its parents and is passed over if it is listed, leads from the listing `seen` to `listed`. -/
inductive Visits (parents : String → List String) :
    List String → List String → List String → Prop where
  | done (seen : List String) : Visits parents seen [] seen
  | skip {seen todo listed : List String} {name : String} (h : name ∈ seen)
      (hrest : Visits parents seen todo listed) : Visits parents seen (name :: todo) listed
  | visit {seen mid todo listed : List String} {name : String} (h : name ∉ seen)
      (hparents : Visits parents seen (parents name) mid)
      (hrest : Visits parents (mid ++ [name]) todo listed) :
      Visits parents seen (name :: todo) listed

/-- A list of classes that holds their parents, too. -/
def Closed (parents : String → List String) (names : List String) : Prop :=
  ∀ name ∈ names, ∀ p ∈ parents name, p ∈ names

namespace Visits

variable {parents : String → List String} {seen mid todo more listed : List String}

theorem unique (h : Visits parents seen todo listed) {listed' : List String}
    (h' : Visits parents seen todo listed') : listed' = listed := by
  induction h generalizing listed' with
  | done seen => cases h'; rfl
  | skip h _ ih =>
    cases h' with
    | skip _ hrest => exact ih hrest
    | visit hnot => exact absurd h hnot
  | visit hnot _ _ ihparents ihrest =>
    cases h' with
    | skip h => exact absurd h hnot
    | visit _ hparents hrest =>
      obtain rfl := ihparents hparents
      exact ihrest hrest

theorem append (h : Visits parents seen todo mid) (hmore : Visits parents mid more listed) :
    Visits parents seen (todo ++ more) listed := by
  induction h with
  | done seen => exact hmore
  | skip h _ ih => exact .skip h (ih hmore)
  | visit hnot hparents _ _ ih => exact .visit hnot hparents (ih hmore)

theorem seen_subset (h : Visits parents seen todo listed) : seen ⊆ listed := by
  induction h with
  | done seen => exact List.Subset.refl seen
  | skip _ _ ih => exact ih
  | visit _ _ _ ihparents ihrest =>
    exact List.Subset.trans ihparents (List.Subset.trans (List.subset_append_left _ _) ihrest)

theorem todo_subset (h : Visits parents seen todo listed) : todo ⊆ listed := by
  induction h with
  | done => exact List.nil_subset _
  | skip h hrest ih => exact List.cons_subset.mpr ⟨hrest.seen_subset h, ih⟩
  | visit _ _ hrest _ ih => exact List.cons_subset.mpr ⟨hrest.seen_subset (by simp), ih⟩

theorem closed (h : Visits parents seen todo listed) (hseen : Closed parents seen) :
    Closed parents listed := by
  induction h with
  | done => exact hseen
  | skip _ _ ih => exact ih hseen
  | @visit seen mid todo listed name _ hparents _ ihparents ihrest =>
    refine ihrest fun a ha p hp => ?_
    rcases List.mem_append.mp ha with ha | ha
    · exact List.mem_append_left _ (ihparents hseen a ha p hp)
    · rw [List.mem_singleton.mp ha] at hp
      exact List.mem_append_left _ (hparents.todo_subset hp)

/-- What is listed was listed before, or is one of the classes gone through or an ancestor. -/
theorem reachable (h : Visits parents seen todo listed) {a : String} (ha : a ∈ listed) :
    a ∈ seen ∨ ∃ name ∈ todo, Relation.ReflTransGen (fun c p => p ∈ parents c) name a := by
  induction h with
  | done => exact .inl ha
  | skip _ _ ih => exact (ih ha).imp_right fun ⟨t, ht, hta⟩ => ⟨t, List.mem_cons_of_mem _ ht, hta⟩
  | @visit seen mid todo listed name _ _ _ ihparents ihrest =>
    rcases ihrest ha with hmid | ⟨t, ht, hta⟩
    · rcases List.mem_append.mp hmid with hmid | hname
      · refine (ihparents hmid).imp_right fun ⟨p, hp, hpa⟩ => ?_
        exact ⟨name, List.mem_cons_self, .head hp hpa⟩
      · rw [List.mem_singleton.mp hname]
        exact .inr ⟨name, List.mem_cons_self, .refl⟩
    · exact .inr ⟨t, List.mem_cons_of_mem _ ht, hta⟩

/-- The listing of a class holds the class and its ancestors. -/
theorem mem_iff {name : String} (h : Visits parents [] [name] listed) {a : String} :
    a ∈ listed ↔ Relation.ReflTransGen (fun c p => p ∈ parents c) name a := by
  constructor
  · intro ha
    obtain ⟨t, ht, hta⟩ := (h.reachable ha).resolve_left List.not_mem_nil
    rwa [List.mem_singleton.mp ht] at hta
  · intro hreach
    have hclosed : Closed parents listed := h.closed fun _ ha => absurd ha List.not_mem_nil
    induction hreach with
    | refl => exact h.todo_subset List.mem_cons_self
    | tail _ hp ih => exact hclosed _ ih _ hp

theorem getLast?_eq {name : String} (h : Visits parents [] [name] listed) :
    listed.getLast? = some name := by
  cases h with
  | skip hmem => cases hmem
  | visit _ _ hrest =>
    cases hrest
    exact List.getLast?_concat

theorem nodup (hacyclic : ∀ a, ¬Relation.TransGen (fun c p => p ∈ parents c) a a)
    (h : Visits parents seen todo listed) (hseen : seen.Nodup) : listed.Nodup := by
  induction h with
  | done => exact hseen
  | skip _ _ ih => exact ih hseen
  | @visit seen mid todo listed name hnot hparents _ ihparents ihrest =>
    refine ihrest (List.nodup_append.mpr ⟨ihparents hseen, by simp, ?_⟩)
    -- a class that is listed on the way through its own parents is on a cycle
    rintro a ha b hb rfl
    rw [List.mem_singleton.mp hb] at ha
    rcases hparents.reachable ha with ha | ⟨p, hp, hpa⟩
    · exact hnot ha
    · exact hacyclic name (.head' hp hpa)

/-- Only the parents of the classes that are listed matter. -/
theorem congr {parents' : String → List String} (h : Visits parents seen todo listed)
    (hsame : ∀ name ∈ listed, parents' name = parents name) : Visits parents' seen todo listed := by
  induction h with
  | done seen => exact .done seen
  | skip h _ ih => exact .skip h (ih hsame)
  | @visit seen mid todo listed name hnot _ hrest ihparents ihrest =>
    have hlisted : mid ++ [name] ⊆ listed := hrest.seen_subset
    refine .visit hnot ?_ (ihrest hsame)
    rw [hsame name (hlisted (by simp))]
    exact ihparents fun a ha => hsame a (hlisted (List.mem_append_left _ ha))

/-! ## Beginning with a listing -/

section Restart

variable {K : List String}

/-- Nothing new is listed if all classes to go through are listed with all their ancestors. -/
theorem filter_eq (hK : Closed parents K) (h : Visits parents seen todo listed) (htodo : todo ⊆ K) :
    listed.filter (· ∉ K) = seen.filter (· ∉ K) := by
  induction h with
  | done => rfl
  | skip _ _ ih => exact ih (List.cons_subset.mp htodo).2
  | @visit seen mid todo listed name _ _ _ ihparents ihrest =>
    obtain ⟨hname, htodo⟩ := List.cons_subset.mp htodo
    have hmid := ihparents fun p hp => hK name hname p hp
    rw [ihrest htodo, List.filter_append, hmid]
    simp [hname]

/-- **A listing can begin after any other**, and then leaves out what that one holds. -/
theorem restart (hK : Closed parents K) (h : Visits parents seen todo listed) :
    Visits parents (K ++ seen.filter (· ∉ K)) todo (K ++ listed.filter (· ∉ K)) := by
  have hmem : ∀ (names : List String) (a : String),
      a ∈ K ++ names.filter (· ∉ K) ↔ a ∈ K ∨ a ∈ names := by
    intro names a
    by_cases ha : a ∈ K <;> simp [ha]
  induction h with
  | done => exact .done _
  | @skip seen todo listed name h _ ih => exact .skip ((hmem seen name).mpr (.inr h)) ih
  | @visit seen mid todo listed name hnot hparents _ ihparents ihrest =>
    by_cases hname : name ∈ K
    · -- all ancestors are in `K`, too, so the visit lists nothing that is not
      refine .skip ((hmem seen name).mpr (.inl hname)) ?_
      have hmid := filter_eq hK hparents fun p hp => hK name hname p hp
      rw [List.filter_append, hmid] at ihrest
      simpa [hname] using ihrest
    · refine .visit (fun h => ((hmem seen name).mp h).elim hname hnot) ihparents ?_
      rw [List.filter_append] at ihrest
      simpa [hname] using ihrest

end Restart

/-- **One more class adds what is new of its own listing.** -/
theorem snoc {name : String} {before : List String} (h : Visits parents [] todo before)
    (hname : Visits parents [] [name] listed) :
    Visits parents [] (todo ++ [name]) (before ++ listed.filter (· ∉ before)) := by
  have hclosed : Closed parents before := h.closed fun _ ha => absurd ha List.not_mem_nil
  have hrestart := restart hclosed hname
  rw [List.filter_nil, List.append_nil] at hrestart
  exact h.append hrestart

/-- A class is listed after what its parents list. -/
theorem leave {name : String} (h : Visits parents [] (parents name) listed) :
    Visits parents [] [name] (listed ++ [name]) :=
  .visit List.not_mem_nil h (.done _)

end Visits

end WireModel.Hierarchy
