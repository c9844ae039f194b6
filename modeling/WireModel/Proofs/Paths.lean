import WireModel.Proofs.Expressions
import WireModel.Proofs.Integers
import WireModel.Wire.ErrorPath

/-!
# Paths of failures

The path of a failure is written segment by segment, and no mark stands between two segments but
the one that a segment begins with. Names may hold any character, so a name such as `a.b` or `[0]`
must not be taken for several segments, or for an index.

* **`Text.quoteWith_append_inj`** (beside the literals): a quoted text shows where it ends.
* **`Binary64.eq_of_text_eq`**: two numbers have different texts, the two zeros apart.
* **`Wire.Segment.text_append_inj`**: so a segment shows where it ends, before the end of the path
  or before the mark of another segment.
* **`Wire.paths_determined`**: a path determines its segments, and grows at its front.
-/

namespace WireModel

/-- **Numbers are told apart by their texts**, except for the two zeros. -/
theorem Binary64.eq_of_text_eq {x y : Binary64} (hx : x.Normal) (hy : y.Normal)
    (hx0 : x ≠ .finite true 0 0) (hy0 : y ≠ .finite true 0 0) (h : x.text = y.text) : x = y := by
  obtain ⟨x', hreadx, heqx⟩ := Meaning.read?_text hx
  obtain ⟨y', hready, heqy⟩ := Meaning.read?_text hy
  rw [h, hready, Option.some.injEq, Meaning.number.injEq] at hreadx
  subst hreadx
  cases heqx with
  | refl =>
    cases heqy with
    | refl => rfl
    | zero negative negative' => cases negative <;> cases negative' <;> simp_all
  | zero negative negative' =>
    cases heqy with
    | refl => cases negative <;> cases negative' <;> simp_all
    | zero negative'' => cases negative <;> cases negative'' <;> simp_all

namespace Wire

/-- An index is a number other than negative zero, which is written as zero is. In particular it may
be any natural number. -/
def Segment.IsProper : Segment → Prop
  | .name _ => True
  | .index i => i.Normal ∧ i ≠ .finite true 0 0

theorem Segment.isProper_ofNat (n : Nat) : (index (.ofInt n)).IsProper := by
  refine ⟨Binary64.normal_ofInt n, ?_⟩
  rw [Binary64.ofInt, decide_eq_false (by omega), Binary64.ofRatio_withSign]
  cases Binary64.ofRatio false (n : Int).natAbs 1 <;> simp [Binary64.withSign]

/-- What may follow a segment: nothing, or the mark that another segment begins with. -/
def Opens (cs : List Char) : Prop := ∀ c ∈ cs.head?, c = '.' ∨ c = '['

namespace Segment

/-! ## Segments -/

/-- The three forms of a segment: a plain name behind a point, and a quoted name or an index in
brackets. -/
theorem text_forms (s : Segment) :
    (∃ a, s = name a ∧ Name.isPlain a = true ∧ s.text.toList = '.' :: a.toList)
      ∨ (∃ a, s = name a ∧ s.text.toList = '[' :: ((Text.quote a).toList ++ [']']))
      ∨ ∃ i, s = index i ∧ s.text.toList = '[' :: (i.text.toList ++ [']']) := by
  cases s with
  | name a =>
    cases hplain : Name.isPlain a with
    | true =>
      refine .inl ⟨a, rfl, hplain, ?_⟩
      rw [text, if_pos hplain, String.toList_append]
      rfl
    | false =>
      refine .inr (.inl ⟨a, rfl, ?_⟩)
      rw [text, hplain, if_neg Bool.false_ne_true, String.toList_append, String.toList_append]
      rfl
  | index i =>
    refine .inr (.inr ⟨i, rfl, ?_⟩)
    rw [text, String.toList_append, String.toList_append]
    rfl

theorem opens_text (s : Segment) (rest : List Char) : Opens (s.text.toList ++ rest) := by
  intro c hc
  rcases s.text_forms with ⟨a, -, -, hs⟩ | ⟨a, -, hs⟩ | ⟨i, -, hs⟩
  all_goals
    rw [hs] at hc
    obtain rfl := Option.some.inj hc
    decide

/-! ## Where a segment ends -/

theorem plain_append_inj {s t : String} (hs : Name.isPlain s = true) (ht : Name.isPlain t = true)
    {rest more : List Char} (hrest : Opens rest) (hmore : Opens more)
    (h : s.toList ++ rest = t.toList ++ more) : s = t ∧ rest = more := by
  have hmark {cs : List Char} (hcs : Opens cs) : ∀ c ∈ cs.head?, Name.isPlainChar c = false := by
    intro c hc
    rcases hcs c hc with rfl | rfl <;> decide
  obtain ⟨hsTake, hsDrop⟩ := Json.takeWhile_run (Name.isPlainChar_of_isPlain hs) (hmark hrest)
  obtain ⟨htTake, htDrop⟩ := Json.takeWhile_run (Name.isPlainChar_of_isPlain ht) (hmark hmore)
  rw [h] at hsTake hsDrop
  exact ⟨String.toList_inj.mp (hsTake.symm.trans htTake), hsDrop.symm.trans htDrop⟩

/-- No number holds a bracket. -/
theorem index_append_inj {i j : Binary64} (hi : (index i).IsProper) (hj : (index j).IsProper)
    {rest more : List Char} (h : i.text.toList ++ ']' :: rest = j.text.toList ++ ']' :: more) :
    i = j ∧ rest = more := by
  have hchars (x : Binary64) : ∀ c ∈ x.text.toList, (c != ']') = true := by
    intro c hc
    rw [bne_iff_ne]
    rintro rfl
    have := Binary64.mem_text hc
    revert this
    decide
  have hmark (cs : List Char) : ∀ c ∈ (']' :: cs).head?, (c != ']') = false := by
    rintro c ⟨⟩
    rfl
  obtain ⟨hiTake, hiDrop⟩ := Json.takeWhile_run (hchars i) (hmark rest)
  obtain ⟨hjTake, hjDrop⟩ := Json.takeWhile_run (hchars j) (hmark more)
  rw [h] at hiTake hiDrop
  have htext := String.toList_inj.mp (hiTake.symm.trans hjTake)
  exact ⟨Binary64.eq_of_text_eq hi.1 hj.1 hi.2 hj.2 htext,
    (List.cons.inj (hiDrop.symm.trans hjDrop)).2⟩

/-- A quoted name is no index. -/
theorem quoted_append_ne (s : String) (i : Binary64) (rest more : List Char) :
    (Text.quote s).toList ++ rest ≠ i.text.toList ++ ']' :: more := by
  intro h
  rw [Text.quote, Text.quoteWith, String.toList_ofList] at h
  cases hlist : i.text.toList with
  | nil =>
    rw [hlist] at h
    have := (List.cons.inj h).1
    revert this
    decide
  | cons c cs =>
    rw [hlist] at h
    have hc : c = Text.doubleQuote := (List.cons.inj h).1.symm
    have hnumeral := Binary64.mem_text (x := i) (hlist ▸ List.mem_cons_self)
    rw [hc] at hnumeral
    revert hnumeral
    decide

/-- **A segment shows where it ends**, and which segment it is. -/
theorem text_append_inj {s t : Segment} (hs : s.IsProper) (ht : t.IsProper)
    {rest more : List Char} (hrest : Opens rest) (hmore : Opens more)
    (h : s.text.toList ++ rest = t.text.toList ++ more) : s = t ∧ rest = more := by
  -- the first two characters tell the three forms apart
  rcases s.text_forms with ⟨a, rfl, ha, hs'⟩ | ⟨a, rfl, hs'⟩ | ⟨i, rfl, hs'⟩ <;>
    rcases t.text_forms with ⟨b, rfl, hb, ht'⟩ | ⟨b, rfl, ht'⟩ | ⟨j, rfl, ht'⟩ <;>
    simp only [hs', ht', List.cons_append, List.append_assoc, List.nil_append,
      List.cons.injEq] at h <;>
    obtain ⟨hfirst, hbehind⟩ := h
  case inl.inl =>
    obtain ⟨rfl, rfl⟩ := plain_append_inj ha hb hrest hmore hbehind
    exact ⟨rfl, rfl⟩
  case inr.inl.inr.inl =>
    obtain ⟨rfl, hclose⟩ := Text.quoteWith_append_inj (.inr rfl) hbehind
    exact ⟨rfl, (List.cons.inj hclose).2⟩
  case inr.inr.inr.inr =>
    obtain ⟨rfl, rfl⟩ := index_append_inj hs ht hbehind
    exact ⟨rfl, rfl⟩
  case inr.inl.inr.inr => exact absurd hbehind (quoted_append_ne _ _ _ _)
  case inr.inr.inr.inl => exact absurd hbehind.symm (quoted_append_ne _ _ _ _)
  -- a point is no bracket
  all_goals exact absurd hfirst (by decide)

end Segment

/-! ## Paths -/

namespace ErrorPath

theorem toList_pathText (e : ErrorPath) :
    e.pathText.toList = '$' :: e.segments.flatMap fun s => s.text.toList := by
  rw [pathText, String.toList_append, String.toList_join, List.flatMap_map]
  rfl

theorem opens_flatMap (segments : List Segment) :
    Opens (segments.flatMap fun s => s.text.toList) := by
  cases segments with
  | nil => exact nofun
  | cons s segments => exact s.opens_text _

theorem flatMap_cons_ne_nil (s : Segment) (segments : List Segment) :
    ((s :: segments).flatMap fun s => s.text.toList) ≠ [] := by
  rw [List.flatMap_cons]
  rcases s.text_forms with ⟨a, -, -, hs⟩ | ⟨a, -, hs⟩ | ⟨i, -, hs⟩
  all_goals
    rw [hs]
    exact List.cons_ne_nil _ _

/-- **The written segments show what they are.** -/
theorem segments_inj {segments others : List Segment} (h : ∀ s ∈ segments, s.IsProper)
    (hothers : ∀ s ∈ others, s.IsProper)
    (heq : (segments.flatMap fun s => s.text.toList) = others.flatMap fun s => s.text.toList) :
    segments = others := by
  induction segments generalizing others with
  | nil =>
    cases others with
    | nil => rfl
    | cons t others => exact absurd heq.symm (flatMap_cons_ne_nil t others)
  | cons s segments ih =>
    cases others with
    | nil => exact absurd heq (flatMap_cons_ne_nil s segments)
    | cons t others =>
      rw [List.flatMap_cons, List.flatMap_cons] at heq
      obtain ⟨rfl, hrest⟩ := Segment.text_append_inj (h s List.mem_cons_self)
        (hothers t List.mem_cons_self) (opens_flatMap _) (opens_flatMap _) heq
      rw [ih (fun s hs => h s (List.mem_cons_of_mem _ hs))
        (fun s hs => hothers s (List.mem_cons_of_mem _ hs)) hrest]

theorem foldl_prepend (steps : List Segment) (e : ErrorPath) :
    steps.foldl prepend e = ⟨steps.reverse ++ e.segments, e.cause⟩ := by
  induction steps generalizing e with
  | nil => rfl
  | cons s steps ih =>
    rw [List.foldl_cons, ih, List.reverse_cons, List.append_assoc]
    rfl

end ErrorPath

/-- **A path determines its segments, and grows at its front.** Two paths are written in the same
way iff their segments are the same, whatever their names hold. A failure that has been handed
outwards is written as the root and the steps, the last one first, and its cause stays. -/
theorem paths_determined :
    (∀ d e : ErrorPath, (∀ s ∈ d.segments, s.IsProper) → (∀ s ∈ e.segments, s.IsProper) →
        (d.pathText = e.pathText ↔ d.segments = e.segments))
      ∧ ∀ cause steps, (List.foldl ErrorPath.prepend (.new cause) steps).pathText
            = "$" ++ String.join (steps.reverse.map Segment.text)
          ∧ (List.foldl ErrorPath.prepend (.new cause) steps).cause = cause := by
  refine ⟨fun d e hd he => ⟨fun h => ?_, fun h => ?_⟩, fun cause steps => ?_⟩
  · have hlists := congrArg String.toList h
    rw [ErrorPath.toList_pathText, ErrorPath.toList_pathText] at hlists
    exact ErrorPath.segments_inj hd he (List.cons.inj hlists).2
  · rw [ErrorPath.pathText, ErrorPath.pathText, h]
  · rw [ErrorPath.foldl_prepend]
    exact ⟨by rw [ErrorPath.pathText, ErrorPath.new, List.append_nil], rfl⟩

/-- The path to the first of some items, and a name that spells it. -/
theorem paths_determined_spelled : ∃ d e : ErrorPath,
    d.segments = [.name "items", .index (.ofInt (0 : Nat)), .name "id"]
      ∧ e.segments = [.name "items[0].id"]
      ∧ (∀ s ∈ d.segments, s.IsProper) ∧ (∀ s ∈ e.segments, s.IsProper)
      ∧ d.pathText ≠ e.pathText := by
  refine ⟨⟨[.name "items", .index (.ofInt (0 : Nat)), .name "id"], ""⟩, ⟨[.name "items[0].id"], ""⟩,
    rfl, rfl, ?_⟩
  have hd : ∀ s ∈ [Segment.name "items", .index (.ofInt (0 : Nat)), .name "id"], s.IsProper := by
    intro s hs
    simp only [List.mem_cons, List.not_mem_nil, or_false] at hs
    obtain rfl | rfl | rfl := hs
    · exact trivial
    · exact Segment.isProper_ofNat 0
    · exact trivial
  have he : ∀ s ∈ [Segment.name "items[0].id"], s.IsProper := by
    intro s hs
    rw [List.mem_singleton.mp hs]
    exact trivial
  refine ⟨hd, he, ?_⟩
  rw [Ne, paths_determined.1 _ _ hd he]
  simp

end Wire
end WireModel
