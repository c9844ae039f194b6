import Mathlib.Data.List.Nodup
import WireModel.Json.Basic
import WireModel.Proofs.Sequence

/-!
# Members after assignments

An object is made by assigning pairs one after the other. Where a member stands depends on its key,
and nothing below depends on where it stands: an object is known by its members
(`Json.Members.mem_set`), and no key has two of them (`Json.Members.keys_set_nodup`).

**`Json.Members.perm_ofList_append`** is the form in which assignments are used: the second of two
lists of pairs replaces what the first has under its keys, and keeps the rest.
-/

namespace WireModel.Json.Members

/-- The keys of an object. -/
def keys (members : Members) : List String := members.map (·.1)

theorem has_iff {members : Members} {key : String} :
    members.has key = true ↔ key ∈ members.keys := by
  simp [has, keys]

theorem get?_eq_none_iff {members : Members} {key : String} :
    members.get? key = none ↔ key ∉ members.keys := by
  unfold get? keys
  rw [List.lookup_eq_none_iff]
  constructor
  · rintro h hkey
    obtain ⟨m, hm, rfl⟩ := List.mem_map.mp hkey
    simpa using h m hm
  · intro h m hm
    refine bne_iff_ne.mpr ?_
    rintro rfl
    exact h (List.mem_map_of_mem hm)

theorem get?_eq_some_iff {members : Members} (h : members.keys.Nodup) {key : String}
    {value : Json} : members.get? key = some value ↔ (key, value) ∈ members := by
  unfold get?
  rw [List.lookup_eq_some_iff]
  constructor
  · rintro ⟨before, after, rfl, -⟩
    simp
  · intro hmem
    obtain ⟨before, after, rfl⟩ := List.append_of_mem hmem
    refine ⟨before, after, rfl, fun m hm => ?_⟩
    unfold keys at h
    rw [List.map_append, List.nodup_append] at h
    have hne := h.2.2 m.1 (List.mem_map_of_mem hm) key (by simp)
    exact bne_iff_ne.mpr hne.symm

/-! ## One assignment -/

/-- A key that is new is put somewhere. -/
theorem perm_set {members : Members} {key : String} {value : Json} (h : key ∉ members.keys) :
    (members.set key value).Perm ((key, value) :: members) := by
  have hnew : ¬ members.has key = true := fun hhas => h (has_iff.mp hhas)
  unfold set
  rw [if_neg hnew]
  split
  · next n _ =>
    have hperm : (members.takeWhile (indexBelow n)
          ++ (key, value) :: members.dropWhile (indexBelow n)).Perm
        ((key, value) :: (members.takeWhile (indexBelow n)
          ++ members.dropWhile (indexBelow n))) := List.perm_middle
    rwa [List.takeWhile_append_dropWhile] at hperm
  · exact List.perm_append_comm

/-- A key that is there already keeps its place. -/
theorem keys_set_of_mem {members : Members} {key : String} {value : Json}
    (h : key ∈ members.keys) : (members.set key value).keys = members.keys := by
  unfold set keys
  rw [if_pos (has_iff.mpr h), List.map_map]
  refine List.map_congr_left fun m _ => ?_
  by_cases hm : m.1 = key
  · simp [hm]
  · simp [hm]

theorem mem_set {members : Members} {key : String} {value : Json} {m : String × Json} :
    m ∈ members.set key value ↔ m = (key, value) ∨ (m.1 ≠ key ∧ m ∈ members) := by
  by_cases hkey : key ∈ members.keys
  · unfold set
    rw [if_pos (has_iff.mpr hkey), List.mem_map]
    constructor
    · rintro ⟨old, hold, rfl⟩
      by_cases hm : old.1 = key
      · simp [hm]
      · simp [hm, hold]
    · rintro (rfl | ⟨hne, hm⟩)
      · obtain ⟨old, hold, hname⟩ := List.mem_map.mp hkey
        exact ⟨old, hold, by simp [hname]⟩
      · exact ⟨m, hm, by simp [hne]⟩
  · rw [(perm_set hkey).mem_iff, List.mem_cons]
    refine or_congr_right ?_
    rw [and_iff_right_of_imp]
    rintro hm rfl
    exact hkey (List.mem_map_of_mem hm)

/-- An assignment is seen under its key and nowhere else. -/
theorem get?_set_of_mem {members : Members} {key : String} (h : key ∈ members.keys)
    (value : Json) (other : String) :
    (members.set key value).get? other
      = if other = key then some value else members.get? other := by
  have hold : (members.lookup key).isSome = true :=
    Option.isSome_iff_ne_none.mpr (mt get?_eq_none_iff.mp (not_not_intro h))
  unfold set get?
  rw [if_pos (has_iff.mpr h), lookup_replace_of_isSome hold]

theorem keys_set_nodup {members : Members} (h : members.keys.Nodup) (key : String) (value : Json) :
    (members.set key value).keys.Nodup := by
  by_cases hkey : key ∈ members.keys
  · rwa [keys_set_of_mem hkey]
  · rw [keys, ((perm_set hkey).map _).nodup_iff]
    exact List.nodup_cons.mpr ⟨hkey, h⟩

/-! ## Many assignments -/

/-- The members after further assignments. -/
def assign (members : Members) (pairs : List (String × Json)) : Members :=
  pairs.foldl (fun members p => set members p.1 p.2) members

theorem ofList_append (first second : List (String × Json)) :
    ofList (first ++ second) = (ofList first).assign second :=
  List.foldl_append

theorem keys_assign_nodup {members : Members} (h : members.keys.Nodup)
    (pairs : List (String × Json)) : (members.assign pairs).keys.Nodup := by
  induction pairs generalizing members with
  | nil => exact h
  | cons p pairs ih => exact ih (keys_set_nodup h p.1 p.2)

theorem keys_ofList_nodup (pairs : List (String × Json)) : (ofList pairs).keys.Nodup := by
  have hnil : (keys []).Nodup := List.nodup_nil
  exact keys_assign_nodup hnil pairs

theorem mem_keys_set {members : Members} {key other : String} {value : Json} :
    other ∈ (members.set key value).keys ↔ other = key ∨ other ∈ members.keys := by
  by_cases hkey : key ∈ members.keys
  · rw [keys_set_of_mem hkey]
    refine ⟨.inr, ?_⟩
    rintro (rfl | hother)
    · exact hkey
    · exact hother
  · rw [keys, ((perm_set hkey).map _).mem_iff]
    exact List.mem_cons

/-- The keys of an object are those that are assigned. -/
theorem mem_keys_assign {members : Members} {pairs : List (String × Json)} {key : String} :
    key ∈ (members.assign pairs).keys ↔ key ∈ keys pairs ∨ key ∈ members.keys := by
  induction pairs generalizing members with
  | nil => simp [assign, keys]
  | cons p pairs ih =>
    show key ∈ ((members.set p.1 p.2).assign pairs).keys ↔ key ∈ p.1 :: keys pairs ∨ _
    rw [ih, mem_keys_set, List.mem_cons]
    tauto

theorem mem_keys_ofList {pairs : List (String × Json)} {key : String} :
    key ∈ (ofList pairs).keys ↔ key ∈ keys pairs := by
  rw [show ofList pairs = assign [] pairs from rfl, mem_keys_assign]
  simp [keys]

/-- A member that was not there has been assigned. -/
theorem mem_of_mem_assign {members : Members} {pairs : List (String × Json)} {m : String × Json}
    (h : m ∈ members.assign pairs) : m ∈ pairs ∨ m ∈ members := by
  induction pairs generalizing members with
  | nil => exact .inr h
  | cons p pairs ih =>
    rcases ih h with hm | hm
    · exact .inl (List.mem_cons_of_mem p hm)
    · rcases mem_set.mp hm with rfl | ⟨-, hm⟩
      · exact .inl List.mem_cons_self
      · exact .inr hm

theorem mem_of_mem_ofList {pairs : List (String × Json)} {m : String × Json}
    (h : m ∈ ofList pairs) : m ∈ pairs :=
  (mem_of_mem_assign h).resolve_right List.not_mem_nil

theorem mem_assign {members : Members} {pairs : List (String × Json)} (h : (keys pairs).Nodup)
    {m : String × Json} :
    m ∈ members.assign pairs ↔ m ∈ pairs ∨ (m.1 ∉ keys pairs ∧ m ∈ members) := by
  induction pairs generalizing members with
  | nil => simp [assign, keys]
  | cons p pairs ih =>
    obtain ⟨hp, hpairs⟩ := List.nodup_cons.mp h
    show m ∈ (members.set p.1 p.2).assign pairs ↔ _
    rw [ih hpairs, mem_set]
    show m ∈ pairs ∨ m.1 ∉ keys pairs ∧ (m = p ∨ m.1 ≠ p.1 ∧ m ∈ members)
      ↔ m ∈ p :: pairs ∨ m.1 ∉ p.1 :: keys pairs ∧ m ∈ members
    -- the key of the first pair is not assigned again
    have hkept : m = p → m.1 ∉ keys pairs := by
      rintro rfl
      exact hp
    rw [List.mem_cons, List.mem_cons]
    tauto

/-- **The second of two lists of assignments replaces what the first has under its keys.** -/
theorem perm_ofList_append {first second : List (String × Json)} (hfirst : (keys first).Nodup)
    (hsecond : (keys second).Nodup) :
    (ofList (first ++ second)).Perm
      (second ++ first.filter fun m => decide (m.1 ∉ keys second)) := by
  have hkeys := keys_ofList_nodup (first ++ second)
  have hrest : (second ++ first.filter fun m => decide (m.1 ∉ keys second)).Nodup := by
    refine List.nodup_append.mpr ⟨hsecond.of_map, hfirst.of_map.filter _, ?_⟩
    rintro m hm m' hm' rfl
    have hkept := (List.mem_filter.mp hm').2
    exact of_decide_eq_true hkept (List.mem_map_of_mem hm)
  refine (List.perm_ext_iff_of_nodup hkeys.of_map hrest).mpr fun m => ?_
  rw [ofList_append, mem_assign hsecond, show ofList first = assign [] first from rfl,
    mem_assign hfirst, List.mem_append, List.mem_filter, decide_eq_true_eq]
  simp [and_comm]

theorem perm_ofList {pairs : List (String × Json)} (h : (keys pairs).Nodup) :
    (ofList pairs).Perm pairs := by
  have hnil : (keys []).Nodup := List.nodup_nil
  have hperm := perm_ofList_append hnil h
  rwa [List.nil_append, List.filter_nil, List.append_nil] at hperm

end WireModel.Json.Members
