import Mathlib.Data.List.Basic
import Mathlib.Data.List.Induction
import Mathlib.Data.List.Nodup
import WireModel.Sequence

/-!
# Going through a list once: what comes out

The passes over a document are calls of `sift`, each with a step of its own. What such a pass
does to a list that it has nothing to say about is the same for all of them, and is said here
once:

* **`Sieve`** describes a step: an item is passed over in silence iff it is sound by itself and
  apart from every result before it, and it then gives its value.
* **`Sieve.silent_iff`**: the whole pass is silent iff every item is sound and the items are
  pairwise apart.
* **`Sieve.result_of_silent`**: a silent pass keeps every item.
* **`sift_keys_nodup`**, **`sift_result_of_mem`**: what holds of the results whether or not the
  pass is silent.

The lemmas on `distinctBy` say which items stay, and when all of them do; those on `find?` that
a search by a key finds the one item that has it; those on `lookup` what is found after a value has
been replaced; and those on `intercalate` what joined lists are made of.
-/

namespace WireModel

section Sift

variable {α β ε : Type} {step : List β → α → Option β × List ε}

@[simp] theorem sift_nil (kept : List β) : sift step kept [] = (kept, []) := rfl

theorem sift_cons (kept : List β) (a : α) (rest : List α) :
    sift step kept (a :: rest)
      = ((sift step (kept ++ (step kept a).1.toList) rest).1,
          (step kept a).2 ++ (sift step (kept ++ (step kept a).1.toList) rest).2) := rfl

theorem sift_append (kept : List β) (before after : List α) :
    sift step kept (before ++ after)
      = ((sift step (sift step kept before).1 after).1,
          (sift step kept before).2 ++ (sift step (sift step kept before).1 after).2) := by
  induction before generalizing kept with
  | nil => rfl
  | cons a before ih =>
    rw [List.cons_append, sift_cons, ih, sift_cons]
    simp only [List.append_assoc]

/-- What a step reports about an item is reported, in view of the results before it. -/
theorem mem_sift_report {kept : List β} {before after : List α} {a : α} {r : ε}
    (h : r ∈ (step (sift step kept before).1 a).2) :
    r ∈ (sift step kept (before ++ a :: after)).2 := by
  rw [sift_append, sift_cons]
  exact List.mem_append_right _ (List.mem_append_left _ h)

theorem subset_sift_result (kept : List β) (items : List α) : kept ⊆ (sift step kept items).1 := by
  induction items generalizing kept with
  | nil => exact List.Subset.refl kept
  | cons a rest ih => exact List.Subset.trans (List.subset_append_left _ _) (ih _)

/-- What a step keeps of an item stays. -/
theorem mem_sift_result_of_step {kept : List β} {before after : List α} {a : α} {b : β}
    (h : (step (sift step kept before).1 a).1 = some b) :
    b ∈ (sift step kept (before ++ a :: after)).1 := by
  rw [sift_append, sift_cons]
  refine subset_sift_result _ after (List.mem_append_right _ ?_)
  rw [h]
  exact List.mem_singleton.mpr rfl

/-- A step that keeps `value a` of an item `a` without a report iff `a` is `Sound` and `Apart`
from every result that was kept before. -/
structure Sieve (step : List β → α → Option β × List ε) (value : α → β) (Sound : α → Prop)
    (Apart : β → α → Prop) : Prop where
  silent : ∀ kept a, (step kept a).2 = [] ↔ Sound a ∧ ∀ k ∈ kept, Apart k a
  keeps : ∀ kept a, (step kept a).2 = [] → (step kept a).1 = some (value a)

namespace Sieve

variable {value : α → β} {Sound : α → Prop} {Apart : β → α → Prop}

/-- A pass without a report keeps the value of every item. -/
theorem result_of_silent (h : Sieve step value Sound Apart) {kept : List β} {items : List α}
    (hs : (sift step kept items).2 = []) :
    (sift step kept items).1 = kept ++ items.map value := by
  induction items generalizing kept with
  | nil => simp
  | cons a rest ih =>
    rw [sift_cons] at hs ⊢
    obtain ⟨hhead, hrest⟩ := List.append_eq_nil_iff.mp hs
    have hkeep := h.keeps kept a hhead
    rw [hkeep] at hrest ⊢
    rw [ih hrest]
    simp

/-- **A pass is silent iff its items are sound and pairwise apart**, also from the results that
it starts with. -/
theorem silent_iff_from (h : Sieve step value Sound Apart) (kept : List β) (items : List α) :
    (sift step kept items).2 = [] ↔
      (∀ a ∈ items, Sound a) ∧ (∀ k ∈ kept, ∀ a ∈ items, Apart k a)
        ∧ items.Pairwise fun a b => Apart (value a) b := by
  induction items generalizing kept with
  | nil => simp
  | cons a rest ih =>
    rw [sift_cons, List.append_eq_nil_iff, h.silent kept a]
    constructor
    · -- the head is kept, so the rest is apart from its value, too
      rintro ⟨⟨hsound, hapart⟩, hrest⟩
      rw [h.keeps kept a ((h.silent kept a).mpr ⟨hsound, hapart⟩), ih] at hrest
      obtain ⟨hs, hk, hp⟩ := hrest
      refine ⟨by simpa using ⟨hsound, hs⟩, ?_, ?_⟩
      · intro k hkept b hb
        rcases List.mem_cons.mp hb with rfl | hb
        · exact hapart k hkept
        · exact hk k (by simp [hkept]) b hb
      · exact List.pairwise_cons.mpr ⟨fun b hb => hk (value a) (by simp) b hb, hp⟩
    · rintro ⟨hs, hk, hp⟩
      obtain ⟨hpa, hp⟩ := List.pairwise_cons.mp hp
      have hhead : Sound a ∧ ∀ k ∈ kept, Apart k a :=
        ⟨hs a (by simp), fun k hkept => hk k hkept a (by simp)⟩
      refine ⟨hhead, ?_⟩
      rw [h.keeps kept a ((h.silent kept a).mpr hhead), ih]
      refine ⟨fun b hb => hs b (by simp [hb]), ?_, hp⟩
      intro k hkept b hb
      rcases List.mem_append.mp hkept with hkept | hkept
      · exact hk k hkept b (by simp [hb])
      · obtain rfl : k = value a := by simpa using hkept
        exact hpa b hb

theorem silent_iff (h : Sieve step value Sound Apart) (items : List α) :
    (sift step [] items).2 = [] ↔
      (∀ a ∈ items, Sound a) ∧ items.Pairwise fun a b => Apart (value a) b := by
  rw [h.silent_iff_from]
  simp

end Sieve

/-- What holds at the start, and after every result that a step adds, holds of all results. -/
theorem sift_result_induction {P : List β → Prop} {kept : List β} {items : List α} (h0 : P kept)
    (hstep : ∀ kept, ∀ a ∈ items, ∀ b, P kept → (step kept a).1 = some b → P (kept ++ [b])) :
    P (sift step kept items).1 := by
  induction items generalizing kept with
  | nil => exact h0
  | cons a rest ih =>
    rw [sift_cons]
    refine ih ?_ fun kept b hb => hstep kept b (by simp [hb])
    cases hres : (step kept a).1 with
    | none => simpa using h0
    | some b => exact hstep kept a (by simp) b h0 hres

/-- Results whose keys are new when they are kept have different keys. -/
theorem sift_keys_nodup {κ : Type} (key : β → κ)
    (hnew : ∀ kept a b, (step kept a).1 = some b → key b ∉ kept.map key) (items : List α) :
    ((sift step [] items).1.map key).Nodup := by
  refine sift_result_induction (P := fun kept => (kept.map key).Nodup) (by simp) ?_
  intro kept a _ b hkept hb
  rw [List.map_append, List.nodup_append]
  refine ⟨hkept, by simp, ?_⟩
  intro k hk k' hk' heq
  rw [List.map_singleton, List.mem_singleton] at hk'
  exact hnew kept a b hb (hk' ▸ heq ▸ hk)

/-- Every result is kept on account of an item. -/
theorem sift_result_of_mem {Q : α → β → Prop}
    (hkeep : ∀ kept a b, (step kept a).1 = some b → Q a b) {items : List α} {b : β}
    (hb : b ∈ (sift step [] items).1) : ∃ a ∈ items, Q a b := by
  refine sift_result_induction (P := fun kept => ∀ b ∈ kept, ∃ a ∈ items, Q a b) (by simp) ?_ b hb
  intro kept a ha b hkept hstep b' hb'
  rcases List.mem_append.mp hb' with hb' | hb'
  · exact hkept b' hb'
  · obtain rfl := List.mem_singleton.mp hb'
    exact ⟨a, ha, hkeep kept a b' hstep⟩

/-- An item that is good and not yet among the results becomes one. -/
theorem mem_sift_result {step : List α → α → Option α × List ε} {Good : α → Prop}
    (hkeep : ∀ kept a, Good a → a ∉ kept → (step kept a).1 = some a) {kept items : List α} {a : α}
    (ha : a ∈ kept ∨ a ∈ items) (hgood : Good a) : a ∈ (sift step kept items).1 := by
  induction items generalizing kept with
  | nil => simpa using ha
  | cons b rest ih =>
    rw [sift_cons]
    refine ih ?_
    by_cases hkept : a ∈ kept
    · exact .inl (List.mem_append_left _ hkept)
    · rcases List.mem_cons.mp (ha.resolve_left hkept) with rfl | ha
      · exact .inl (by simp [hkeep kept a hgood hkept])
      · exact .inr ha

/-- Results that are items of the list stand in its order. -/
theorem sift_result_sublist {step : List α → α → Option α × List ε}
    (hkeep : ∀ kept a b, (step kept a).1 = some b → b = a) (kept items : List α) :
    ∃ results, (sift step kept items).1 = kept ++ results ∧ results.Sublist items := by
  induction items generalizing kept with
  | nil => exact ⟨[], by simp, .slnil⟩
  | cons a rest ih =>
    obtain ⟨results, heq, hsub⟩ := ih (kept ++ (step kept a).1.toList)
    rw [sift_cons, heq]
    cases hres : (step kept a).1 with
    | none => exact ⟨results, by simp, hsub.cons a⟩
    | some b =>
      obtain rfl := hkeep kept a b hres
      exact ⟨b :: results, by simp, hsub.cons_cons b⟩

/-- Every report is about an item, in view of some results. -/
theorem sift_report_of_mem {kept : List β} {items : List α} {r : ε}
    (hr : r ∈ (sift step kept items).2) : ∃ kept, ∃ a ∈ items, r ∈ (step kept a).2 := by
  induction items generalizing kept with
  | nil => simp at hr
  | cons a rest ih =>
    rw [sift_cons] at hr
    rcases List.mem_append.mp hr with hr | hr
    · exact ⟨kept, a, by simp, hr⟩
    · obtain ⟨kept', b, hb, hrb⟩ := ih hr
      exact ⟨kept', b, by simp [hb], hrb⟩

end Sift

section Distinct

variable {α κ : Type} [BEq κ] {key : α → κ}

theorem distinctFrom_sublist (key : α → κ) (seen : List κ) (items : List α) :
    (distinctFrom key seen items).Sublist items := by
  induction items generalizing seen with
  | nil => exact .slnil
  | cons a rest ih =>
    rw [distinctFrom]
    split
    · exact (ih seen).cons a
    · exact (ih _).cons_cons a

theorem distinctBy_sublist (key : α → κ) (items : List α) :
    (distinctBy key items).Sublist items :=
  distinctFrom_sublist key [] items

variable [LawfulBEq κ]

/-- For each key that occurs and has not been seen, an item stays. -/
theorem exists_mem_distinctFrom {seen : List κ} {items : List α} {a : α} (ha : a ∈ items)
    (hseen : key a ∉ seen) : ∃ b ∈ distinctFrom key seen items, key b = key a := by
  induction items generalizing seen with
  | nil => simp at ha
  | cons c rest ih =>
    rw [distinctFrom]
    split
    · next hc =>
      rcases List.mem_cons.mp ha with rfl | ha
      · exact absurd (List.contains_iff_mem.mp hc) hseen
      · exact ih ha hseen
    · by_cases hk : key a = key c
      · exact ⟨c, by simp, hk.symm⟩
      · rcases List.mem_cons.mp ha with rfl | ha
        · exact absurd rfl hk
        · have hseen' : key a ∉ key c :: seen := by simp [hk, hseen]
          obtain ⟨b, hb, hkey⟩ := ih ha hseen'
          exact ⟨b, by simp [hb], hkey⟩

theorem exists_mem_distinctBy (key : α → κ) {items : List α} {a : α} (ha : a ∈ items) :
    ∃ b ∈ distinctBy key items, key b = key a :=
  exists_mem_distinctFrom ha List.not_mem_nil

/-- With items as their own keys nothing is lost. -/
theorem mem_distinctBy_id {items : List κ} {a : κ} : a ∈ distinctBy id items ↔ a ∈ items := by
  constructor
  · exact fun h => (distinctBy_sublist id items).subset h
  · intro h
    obtain ⟨b, hb, hba⟩ := exists_mem_distinctBy id h
    rw [id_eq, id_eq] at hba
    exact hba ▸ hb

/-- The items that stay have different keys, none of which had been seen. -/
theorem keys_distinctFrom_nodup (key : α → κ) (seen : List κ) (items : List α) :
    ((distinctFrom key seen items).map key).Nodup
      ∧ ∀ a ∈ distinctFrom key seen items, key a ∉ seen := by
  induction items generalizing seen with
  | nil => simp [distinctFrom]
  | cons a rest ih =>
    rw [distinctFrom]
    split
    · exact ih seen
    · next ha =>
      obtain ⟨hnodup, hseen⟩ := ih (key a :: seen)
      rw [List.map_cons, List.nodup_cons, List.forall_mem_cons]
      refine ⟨⟨?_, hnodup⟩, by simpa using ha, fun b hb hmem =>
        hseen b hb (List.mem_cons_of_mem _ hmem)⟩
      intro hmem
      obtain ⟨b, hb, hkey⟩ := List.mem_map.mp hmem
      exact hseen b hb (hkey ▸ List.mem_cons_self)

theorem keys_distinctBy_nodup (key : α → κ) (items : List α) :
    ((distinctBy key items).map key).Nodup :=
  (keys_distinctFrom_nodup key [] items).1

/-- An item at the end stays iff its key has not occurred. -/
theorem distinctFrom_concat [DecidableEq κ] (key : α → κ) (seen : List κ) (items : List α)
    (a : α) : distinctFrom key seen (items ++ [a])
      = distinctFrom key seen items
        ++ if key a ∈ seen ∨ key a ∈ items.map key then [] else [a] := by
  induction items generalizing seen with
  | nil =>
    by_cases ha : key a ∈ seen
    · simp [distinctFrom, ha]
    · simp [distinctFrom, ha]
  | cons b rest ih =>
    rw [List.cons_append, distinctFrom, distinctFrom, List.map_cons]
    by_cases hb : key b ∈ seen
    · have hmem : key a ∈ seen ∨ key a ∈ key b :: rest.map key
          ↔ key a ∈ seen ∨ key a ∈ rest.map key := by
        rw [List.mem_cons]
        grind
      rw [if_pos (List.contains_iff_mem.mpr hb), if_pos (List.contains_iff_mem.mpr hb), ih,
        if_congr hmem rfl rfl]
    · have hmem : key a ∈ seen ∨ key a ∈ key b :: rest.map key
          ↔ key a ∈ key b :: seen ∨ key a ∈ rest.map key := by
        rw [List.mem_cons, List.mem_cons]
        grind
      rw [if_neg (by simpa using hb), if_neg (by simpa using hb), ih, List.cons_append,
        if_congr hmem rfl rfl]

/-- The items whose key is not the key of an item before them. -/
def firstPlaces [DecidableEq κ] (key : α → κ) (items : List α) : List α :=
  (items.zipIdx.filter fun p => key p.1 ∉ (items.take p.2).map key).map (·.1)

/-- **An item stays iff no item before it has its key.** -/
theorem distinctBy_eq_firstPlaces [DecidableEq κ] (key : α → κ) (items : List α) :
    distinctBy key items = firstPlaces key items := by
  induction items using List.reverseRecOn with
  | nil => rfl
  | append_singleton items a ih =>
    have hbefore : (items.zipIdx.filter fun p => key p.1 ∉ ((items ++ [a]).take p.2).map key)
        = items.zipIdx.filter fun p => key p.1 ∉ (items.take p.2).map key := by
      refine List.filter_congr fun p hp => ?_
      have hlt : p.2 < items.length := by simpa using (List.mem_zipIdx hp).2.1
      rw [List.take_append_of_le_length (Nat.le_of_lt hlt)]
    rw [firstPlaces, List.zipIdx_append, List.filter_append, List.map_append, hbefore,
      ← firstPlaces, ← ih, distinctBy, distinctBy, distinctFrom_concat]
    congr 1
    by_cases ha : key a ∈ items.map key
    · simp [ha]
    · simp [ha]

/-- Items whose keys differ all stay. -/
theorem distinctFrom_eq_self {seen : List κ} {items : List α} (hnodup : (items.map key).Nodup)
    (hseen : ∀ a ∈ items, key a ∉ seen) : distinctFrom key seen items = items := by
  induction items generalizing seen with
  | nil => rfl
  | cons a rest ih =>
    rw [List.map_cons, List.nodup_cons] at hnodup
    rw [distinctFrom, if_neg (by simpa using hseen a (by simp))]
    congr 1
    refine ih hnodup.2 fun b hb => ?_
    rw [List.mem_cons, not_or]
    refine ⟨?_, hseen b (by simp [hb])⟩
    intro hba
    exact hnodup.1 (hba ▸ List.mem_map_of_mem hb)

theorem distinctBy_eq_self {items : List α} (hnodup : (items.map key).Nodup) :
    distinctBy key items = items :=
  distinctFrom_eq_self hnodup (by simp)

/-- A choice that the key decides can be made before repeated keys are dropped. Only the keys of
chosen items matter for what counts as seen. -/
theorem filter_distinctFrom {q : α → Bool} (hq : ∀ a b, key a = key b → q a = q b)
    {seen seen' : List κ} (items : List α)
    (hseen : ∀ a, q a = true → (key a ∈ seen ↔ key a ∈ seen')) :
    (distinctFrom key seen items).filter q = distinctFrom key seen' (items.filter q) := by
  induction items generalizing seen seen' with
  | nil => rfl
  | cons a rest ih =>
    by_cases hqa : q a = true
    · by_cases hmem : key a ∈ seen
      · have hmem' : key a ∈ seen' := (hseen a hqa).mp hmem
        simp only [distinctFrom, List.filter_cons_of_pos hqa, List.contains_iff_mem, hmem, hmem',
          if_true]
        exact ih hseen
      · have hmem' : key a ∉ seen' := fun h => hmem ((hseen a hqa).mpr h)
        simp only [distinctFrom, List.filter_cons_of_pos hqa, List.contains_iff_mem, hmem, hmem',
          if_false]
        congr 1
        refine ih fun b hqb => ?_
        simp [hseen b hqb]
    · have hqf : ¬q a = true := hqa
      rw [List.filter_cons_of_neg hqf, distinctFrom]
      split
      · exact ih hseen
      · rw [List.filter_cons_of_neg hqf]
        refine ih fun b hqb => ?_
        have hne : key b ≠ key a := fun h => hqa (hq b a h ▸ hqb)
        simp [hne, hseen b hqb]

theorem filter_distinctBy {q : α → Bool} (hq : ∀ a b, key a = key b → q a = q b)
    (items : List α) : (distinctBy key items).filter q = distinctBy key (items.filter q) :=
  filter_distinctFrom hq items fun _ _ => Iff.rfl

end Distinct

section Find

variable {α κ : Type} [BEq κ] [LawfulBEq κ] {key : α → κ}

/-- Where keys differ, a search by key finds the item that has it. -/
theorem find?_key_eq_some_iff {items : List α} (h : (items.map key).Nodup) {k : κ} {a : α} :
    items.find? (fun b => key b == k) = some a ↔ a ∈ items ∧ key a = k := by
  constructor
  · intro hf
    exact ⟨List.mem_of_find?_eq_some hf, by simpa using List.find?_some hf⟩
  · rintro ⟨ha, rfl⟩
    cases hf : items.find? fun b => key b == key a with
    | none => exact absurd (List.find?_eq_none.mp hf a ha) (by simp)
    | some b =>
      have hkey : key b = key a := by simpa using List.find?_some hf
      rw [List.inj_on_of_nodup_map h (List.mem_of_find?_eq_some hf) ha hkey]

theorem find?_key_eq_none_iff {items : List α} {k : κ} :
    items.find? (fun b => key b == k) = none ↔ k ∉ items.map key := by
  simp [List.find?_eq_none]

variable {β : Type} [DecidableEq κ]

theorem lookup_replace (pairs : List (κ × β)) (k other : κ) (value : β) :
    (pairs.map fun p => if p.1 == k then (k, value) else p).lookup other
      = (pairs.lookup other).map fun old => if other = k then value else old := by
  induction pairs with
  | nil => rfl
  | cons p rest ih =>
    obtain ⟨l, old⟩ := p
    by_cases hl : l = k <;> by_cases hother : other = l
    · simp [hl, hother]
    · subst hl
      simpa [List.lookup_cons, beq_false_of_ne hother] using ih
    · subst hother
      simp [hl]
    · simpa [hl, List.lookup_cons, beq_false_of_ne hother] using ih

/-- A value that is replaced is seen under its key, and no other one changes. -/
theorem lookup_replace_of_isSome {pairs : List (κ × β)} {k : κ}
    (h : (pairs.lookup k).isSome = true) (value : β) (other : κ) :
    (pairs.map fun p => if p.1 == k then (k, value) else p).lookup other
      = if other = k then some value else pairs.lookup other := by
  rw [lookup_replace]
  by_cases hother : other = k
  · subst hother
    obtain ⟨old, hold⟩ := Option.isSome_iff_exists.mp h
    simp [hold]
  · simp [hother]

end Find

section Join

variable {α : Type}

/-- What holds of lists and of the separator holds of the lists when they are joined. -/
theorem intercalate_induction {P : List α → Prop} {separator : List α}
    {parts : List (List α)} (hnil : P []) (hseparator : P separator)
    (happend : ∀ {xs ys}, P xs → P ys → P (xs ++ ys)) (h : ∀ xs ∈ parts, P xs) :
    P (separator.intercalate parts) := by
  induction parts with
  | nil => exact hnil
  | cons xs parts ih =>
    have hxs := h xs List.mem_cons_self
    cases parts with
    | nil => rwa [List.intercalate_singleton]
    | cons ys parts =>
      rw [List.intercalate_cons_cons]
      exact happend (happend hxs hseparator) (ih fun zs hzs => h zs (List.mem_cons_of_mem xs hzs))

theorem infix_intercalate (separator : List α) {xs : List α} {parts : List (List α)}
    (h : xs ∈ parts) : xs <:+: separator.intercalate parts := by
  induction parts with
  | nil => cases h
  | cons ys parts ih =>
    cases parts with
    | nil =>
      obtain rfl := List.mem_singleton.mp h
      exact (List.intercalate_singleton ..).symm ▸ List.infix_refl xs
    | cons zs parts =>
      rw [List.intercalate_cons_cons]
      rcases List.mem_cons.mp h with rfl | h
      · exact ((List.prefix_append _ _).trans (List.prefix_append _ _)).isInfix
      · exact (ih h).trans (List.suffix_append _ _).isInfix

/-- Between the items of a list stands nothing but the separator. -/
theorem mem_of_mem_intersperse {separator a : α} {items : List α}
    (h : a ∈ items.intersperse separator) : a = separator ∨ a ∈ items := by
  induction items with
  | nil => cases h
  | cons b rest ih =>
    cases rest with
    | nil => exact .inr h
    | cons c rest =>
      rw [List.intersperse_cons_cons, List.mem_cons, List.mem_cons] at h
      rcases h with rfl | rfl | h
      · exact .inr List.mem_cons_self
      · exact .inl rfl
      · exact (ih h).imp_right (List.mem_cons_of_mem b)

end Join

end WireModel
