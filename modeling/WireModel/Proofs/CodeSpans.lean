import Mathlib.Data.List.Basic
import WireModel.Reference.Markdown

/-!
# Where code spans end

A code span begins with a run of backquotes and ends with the next run of the same length; runs of
other lengths belong to its content. So a span is whole only if no run in the content is as long as
its fences.

* **`Markdown.readSpan_eq_some_iff`**: a reader that looks for the next run of the same length finds
  the contents that are delimited in this way, and no others.
* **`Markdown.toList_codeSpan`**: the fences are one backquote long around a text without any, and
  two around every other text.
* **`Markdown.codeSpan_whole_iff`**: so a code span is read as a whole iff its text has no run of
  exactly two backquotes.
-/

namespace WireModel.Reference.Markdown

/-! ## Runs -/

/-- The mark that fences are made of. -/
def backquote : Char := Char.ofNat 96

def fence (n : Nat) : List Char := List.replicate n backquote

/-- The lengths of the runs of backquotes in a text, each as long as it can be. -/
def runs (cs : List Char) : List Nat :=
  ((cs.splitOnP (· != backquote)).filter fun run => !run.isEmpty).map List.length

/-- A text between two runs of `n` backquotes that has no run of this length itself. -/
structure Delimited (n : Nat) (content : List Char) : Prop where
  pos : 0 < n
  ne_nil : content ≠ []
  head_ne : content.head? ≠ some backquote
  last_ne : content.getLast? ≠ some backquote
  free : n ∉ runs content

theorem runs_append_cons {c : Char} (hc : c ≠ backquote) (cs ds : List Char) :
    runs (cs ++ c :: ds) = runs cs ++ runs ds := by
  rw [runs, List.splitOnP_append_cons cs ds (by simpa using hc), List.filter_append,
    List.map_append]
  rfl

theorem runs_fence {n : Nat} (h : 0 < n) : runs (fence n) = [n] := by
  have hsplit : (fence n).splitOnP (· != backquote) = [fence n] :=
    List.splitOnP_eq_singleton fun c hc => by simp [List.eq_of_mem_replicate hc]
  rw [runs, hsplit, List.filter_singleton]
  simp [fence, Nat.pos_iff_ne_zero.mp h]

theorem runs_eq_nil {cs : List Char} (h : backquote ∉ cs) : runs cs = [] := by
  induction cs with
  | nil => rfl
  | cons c cs ih =>
    obtain ⟨hc, hcs⟩ := not_or.mp (List.mem_cons.not.mp h)
    exact (runs_append_cons (Ne.symm hc) [] cs).trans (ih hcs)

/-- Spaces around a text leave its runs as they are. -/
theorem runs_padded (cs : List Char) : runs (' ' :: (cs ++ [' '])) = runs cs := by
  have hspace : ' ' ≠ backquote := by decide
  have hlast := runs_append_cons hspace cs []
  rw [show runs [] = [] from rfl, List.append_nil] at hlast
  exact (runs_append_cons hspace [] (cs ++ [' '])).trans hlast

/-! ## The reader -/

/-- Looks for a run of `n` backquotes, `pending` of them having just been read: the content before
this run, and what follows it. -/
def seek (n pending : Nat) : List Char → Option (List Char × List Char)
  | [] => if pending = n then some ([], []) else none
  | c :: cs =>
    if c = backquote then seek n (pending + 1) cs
    else if pending = n then some ([], c :: cs)
    else (seek n 0 cs).map fun found => (fence pending ++ c :: found.1, found.2)

/-- Reads a code span behind `n` backquotes. -/
def readFrom (n : Nat) : List Char → Option (List Char × List Char)
  | [] => none
  | c :: cs =>
    if c = backquote then readFrom (n + 1) cs
    else if n = 0 then none
    else seek n 0 (c :: cs)

/-- The content of the code span that a text begins with, and what follows the span. -/
def readSpan (s : String) : Option (List Char × List Char) := readFrom 0 s.toList

theorem fence_append (m n : Nat) : fence m ++ fence n = fence (m + n) :=
  List.replicate_append_replicate

theorem fence_cons (n : Nat) (cs : List Char) :
    fence n ++ backquote :: cs = fence (n + 1) ++ cs := by
  rw [← fence_append, List.append_assoc]
  rfl

theorem seek_fence (n pending m : Nat) (cs : List Char) :
    seek n pending (fence m ++ cs) = seek n (pending + m) cs := by
  induction m generalizing pending with
  | zero => rfl
  | succ m ih =>
    show seek n pending (backquote :: (fence m ++ cs)) = _
    rw [seek, if_pos rfl, ih]
    congr 1
    omega

theorem readFrom_fence (n m : Nat) (cs : List Char) :
    readFrom n (fence m ++ cs) = readFrom (n + m) cs := by
  induction m generalizing n with
  | zero => rfl
  | succ m ih =>
    show readFrom n (backquote :: (fence m ++ cs)) = _
    rw [readFrom, if_pos rfl, ih]
    congr 1
    omega

/-- The run is found behind a content that has no other run of this length. -/
theorem seek_content {n pending : Nat} (hn : 0 < n) {content rest : List Char}
    (hfree : n ∉ runs (fence pending ++ content))
    (hlast : (fence pending ++ content).getLast? ≠ some backquote)
    (hrest : rest.head? ≠ some backquote) :
    seek n pending (content ++ (fence n ++ rest)) = some (fence pending ++ content, rest) := by
  induction content generalizing pending with
  | nil =>
    -- what is pending would be the end of the content
    have hpending : pending = 0 := by
      by_contra hne
      rw [List.append_nil, fence, List.getLast?_replicate, if_neg hne] at hlast
      exact hlast rfl
    subst hpending
    rw [List.nil_append, seek_fence, Nat.zero_add]
    cases rest with
    | nil => rw [seek, if_pos rfl]; rfl
    | cons c rest =>
      have hc : c ≠ backquote := by simpa using hrest
      rw [seek, if_neg hc, if_pos rfl]
      rfl
  | cons c content ih =>
    by_cases hc : c = backquote
    · subst hc
      rw [fence_cons] at hfree hlast ⊢
      rw [List.cons_append, seek, if_pos rfl]
      exact ih hfree hlast
    · rw [runs_append_cons hc, List.mem_append, not_or] at hfree
      have hpending : pending ≠ n := by
        rintro rfl
        exact hfree.1 (by simp [runs_fence hn])
      have hlast' : (fence 0 ++ content).getLast? ≠ some backquote := by
        cases content with
        | nil => nofun
        | cons d content => simpa [List.getLast?_append] using hlast
      have hfound : seek n 0 (content ++ (fence n ++ rest)) = some (content, rest) :=
        ih hfree.2 hlast'
      rw [List.cons_append, seek, if_neg hc, if_neg hpending, hfound]
      rfl

/-- What is found ends in the first run of this length. -/
theorem of_seek {n pending : Nat} {cs content rest : List Char}
    (h : seek n pending cs = some (content, rest)) :
    fence pending ++ cs = content ++ (fence n ++ rest) ∧ content.getLast? ≠ some backquote
      ∧ rest.head? ≠ some backquote ∧ (0 < n → n ∉ runs content) := by
  induction cs generalizing pending content with
  | nil =>
    rw [seek] at h
    split at h
    · next hpending =>
      cases h
      rw [hpending]
      exact ⟨rfl, nofun, nofun, fun _ => nofun⟩
    · cases h
  | cons c cs ih =>
    rw [seek] at h
    split at h
    · next hc =>
      obtain ⟨heq, hfound⟩ := ih h
      rw [hc, fence_cons]
      exact ⟨heq, hfound⟩
    · next hc =>
      split at h
      · next hpending =>
        cases h
        rw [hpending]
        exact ⟨rfl, nofun, by simpa using hc, fun _ => nofun⟩
      · next hpending =>
        obtain ⟨found, hfound, heq⟩ := Option.map_eq_some_iff.mp h
        cases heq
        obtain ⟨heq, hlast, hrest, hfree⟩ := ih hfound
        refine ⟨?_, ?_, hrest, fun hn => ?_⟩
        · rw [List.append_assoc, List.cons_append, ← heq]
          rfl
        · cases hcontent : found.1 with
          | nil => simpa [List.getLast?_append] using hc
          | cons d ds => simpa [hcontent, List.getLast?_append] using hlast
        · rw [runs_append_cons hc, List.mem_append, not_or]
          refine ⟨?_, hfree hn⟩
          cases pending with
          | zero => nofun
          | succ k => simpa [runs_fence (Nat.succ_pos k)] using Ne.symm hpending

/-- **The reader finds what is delimited.** A span ends at the first run that is as long as the one
that it begins with. -/
theorem readSpan_eq_some_iff {s : String} {content rest : List Char} :
    readSpan s = some (content, rest) ↔ ∃ n, Delimited n content
      ∧ s.toList = fence n ++ (content ++ (fence n ++ rest)) ∧ rest.head? ≠ some backquote := by
  have hread : ∀ {n : Nat} {cs : List Char}, readFrom n cs = some (content, rest) →
      ∃ m, Delimited m content ∧ fence n ++ cs = fence m ++ (content ++ (fence m ++ rest))
        ∧ rest.head? ≠ some backquote := by
    intro n cs h
    induction cs generalizing n with
    | nil => cases h
    | cons c cs ih =>
      rw [readFrom] at h
      split at h
      · next hc =>
        rw [hc, fence_cons]
        exact ih h
      · next hc =>
        split at h
        · cases h
        · next hn =>
          obtain ⟨heq, hlast, hrest, hfree⟩ := of_seek h
          have hpos := Nat.pos_of_ne_zero hn
          have hcontent : content.head? = some c := by
            cases content with
            | nil =>
              -- the content would begin with the run that ends it
              obtain ⟨m, rfl⟩ := Nat.exists_eq_succ_of_ne_zero hn
              exact absurd (List.cons.inj heq).1 hc
            | cons d ds => exact congrArg some (List.cons.inj heq).1.symm
          refine ⟨n, ⟨hpos, ?_, ?_, hlast, hfree hpos⟩, congrArg _ heq, hrest⟩
          · rintro rfl
            cases hcontent
          · rw [hcontent]
            simpa using hc
  constructor
  · exact hread
  · rintro ⟨n, hdelimited, hs, hrest⟩
    obtain ⟨c, cs, rfl⟩ := List.exists_cons_of_ne_nil hdelimited.ne_nil
    have hc : c ≠ backquote := by simpa using hdelimited.head_ne
    rw [readSpan, hs, readFrom_fence, Nat.zero_add, List.cons_append, readFrom, if_neg hc,
      if_neg (Nat.pos_iff_ne_zero.mp hdelimited.pos), ← List.cons_append]
    exact seek_content hdelimited.pos hdelimited.free hdelimited.last_ne hrest

/-- The first run of some length among those of a text. -/
theorem exists_first_run {n pending : Nat} {cs : List Char} (h : n ∈ runs (fence pending ++ cs)) :
    ∃ before after, fence pending ++ cs = before ++ (fence n ++ after) ∧ n ∉ runs before
      ∧ before.getLast? ≠ some backquote ∧ after.head? ≠ some backquote := by
  have hfence : ∀ {k : Nat}, n ∈ runs (fence k) → k = n := by
    intro k hk
    cases k with
    | zero => cases hk
    | succ k => simpa [runs_fence (Nat.succ_pos k), eq_comm] using hk
  induction cs generalizing pending with
  | nil =>
    rw [List.append_nil] at h
    rw [hfence h]
    exact ⟨[], [], rfl, nofun, nofun, nofun⟩
  | cons c cs ih =>
    by_cases hc : c = backquote
    · rw [hc, fence_cons] at h ⊢
      exact ih h
    · rw [runs_append_cons hc, List.mem_append] at h
      by_cases hpending : n ∈ runs (fence pending)
      · rw [hfence hpending]
        exact ⟨[], c :: cs, rfl, nofun, nofun, by simpa using hc⟩
      · obtain ⟨before, after, heq, hfree, hlast, hafter⟩ :=
          @ih 0 (h.resolve_left hpending)
        refine ⟨fence pending ++ c :: before, after, ?_, ?_, ?_, hafter⟩
        · rw [List.append_assoc, List.cons_append, ← heq]
          rfl
        · rw [runs_append_cons hc, List.mem_append, not_or]
          exact ⟨hpending, hfree⟩
        · cases before with
          | nil => simpa [List.getLast?_append] using hc
          | cons d before => simpa [List.getLast?_append] using hlast

/-! ## Code spans -/

/-- The number of backquotes on either side of a code span. -/
def fenceSize (v : String) : Nat := if backquote ∈ v.toList then 2 else 1

/-- What stands between the fences of a code span: the text, between two spaces if it has a
backquote. -/
def spanContent (v : String) : List Char :=
  if backquote ∈ v.toList then ' ' :: (v.toList ++ [' ']) else v.toList

theorem toList_codeSpan (v : String) :
    (codeSpan v).toList = fence (fenceSize v) ++ (spanContent v ++ fence (fenceSize v)) := by
  have hmark : (v.toList.any fun c => c.toNat == 96) = true ↔ backquote ∈ v.toList := by
    rw [List.any_eq_true]
    constructor
    · rintro ⟨c, hc, hmark⟩
      rwa [backquote, ← eq_of_beq hmark, Char.ofNat_toNat]
    · exact fun h => ⟨backquote, h, rfl⟩
  unfold codeSpan fenceSize spanContent
  by_cases h : backquote ∈ v.toList
  · rw [if_pos (hmark.mpr h), if_pos h, if_pos h]
    simp [fence, backquote, List.replicate]
  · rw [if_neg (mt hmark.mp h), if_neg h, if_neg h]
    simp [fence, backquote, List.replicate]

theorem delimited_spanContent_iff {v : String} (h : v ≠ "") :
    Delimited (fenceSize v) (spanContent v) ↔ 2 ∉ runs v.toList := by
  have hne : v.toList ≠ [] := by simpa using h
  unfold fenceSize spanContent
  by_cases hmem : backquote ∈ v.toList
  · rw [if_pos hmem, if_pos hmem, ← runs_padded]
    refine ⟨fun hdelimited => hdelimited.free, fun hfree => ⟨by decide, nofun, ?_, ?_, hfree⟩⟩
    · exact (by decide : some ' ' ≠ some backquote)
    · rw [← List.cons_append, List.getLast?_concat]
      decide
  · rw [if_neg hmem, if_neg hmem, runs_eq_nil hmem]
    refine ⟨fun _ => nofun, fun _ => ⟨by decide, hne, ?_, ?_, ?_⟩⟩
    · exact fun hhead => hmem (List.mem_of_head? hhead)
    · exact fun hlast => hmem (List.mem_of_getLast? hlast)
    · rw [runs_eq_nil hmem]
      nofun

/-- A fence shows how long it is. -/
theorem fence_append_inj {m n : Nat} {cs ds : List Char} (hcs : cs.head? ≠ some backquote)
    (hds : ds.head? ≠ some backquote) (h : fence m ++ cs = fence n ++ ds) : m = n ∧ cs = ds := by
  induction m generalizing n with
  | zero =>
    cases n with
    | zero => exact ⟨rfl, h⟩
    | succ n => exact absurd (congrArg List.head? h) hcs
  | succ m ih =>
    cases n with
    | zero => exact absurd (congrArg List.head? h.symm) hds
    | succ n =>
      obtain ⟨rfl, heq⟩ := ih (List.cons.inj h).2
      exact ⟨rfl, heq⟩

theorem Delimited.head?_append_ne {n : Nat} {content : List Char} (h : Delimited n content)
    (rest : List Char) : (content ++ rest).head? ≠ some backquote := by
  obtain ⟨c, cs, rfl⟩ := List.exists_cons_of_ne_nil h.ne_nil
  exact h.head_ne

/-- A text that begins and ends with a run of the same length, without such a run in between. -/
def IsWhole (s : String) : Prop :=
  ∃ n content, Delimited n content ∧ s.toList = fence n ++ (content ++ fence n)

theorem head?_spanContent_ne {v : String} (h : v ≠ "") (rest : List Char) :
    (spanContent v ++ rest).head? ≠ some backquote := by
  have hne : v.toList ≠ [] := by simpa using h
  unfold spanContent
  split
  · exact (by decide : some ' ' ≠ some backquote)
  · next hmem =>
    obtain ⟨c, cs, hv⟩ := List.exists_cons_of_ne_nil hne
    rw [hv, List.mem_cons, not_or] at hmem
    rw [hv]
    simpa using Ne.symm hmem.1

theorem isWhole_codeSpan_iff {v : String} (h : v ≠ "") :
    IsWhole (codeSpan v) ↔ Delimited (fenceSize v) (spanContent v) := by
  constructor
  · rintro ⟨n, content, hdelimited, hs⟩
    rw [toList_codeSpan] at hs
    obtain ⟨rfl, heq⟩ :=
      fence_append_inj (head?_spanContent_ne h _) (hdelimited.head?_append_ne _) hs
    rwa [List.append_cancel_right heq]
  · exact fun hdelimited => ⟨_, _, hdelimited, toList_codeSpan v⟩

/-- A span that is not whole ends at the first run of two backquotes in its text. -/
theorem readSpan_of_run {v : String} (h : 2 ∈ runs v.toList) :
    ∃ before after, v.toList = before ++ (fence 2 ++ after) ∧ 2 ∉ runs before
      ∧ readSpan (codeSpan v) = some (' ' :: before, after ++ ' ' :: fence 2) := by
  obtain ⟨before, after, hv, hfree, hlast, hafter⟩ := @exists_first_run 2 0 _ h
  have hv : v.toList = before ++ (fence 2 ++ after) := hv
  have hmem : backquote ∈ v.toList := by simp [hv, fence]
  refine ⟨before, after, hv, hfree, ?_⟩
  refine readSpan_eq_some_iff.mpr ⟨2, ⟨by decide, nofun, ?_, ?_, ?_⟩, ?_, ?_⟩
  · exact (by decide : some ' ' ≠ some backquote)
  · cases before with
    | nil => exact (by decide : some ' ' ≠ some backquote)
    | cons c before => simpa using hlast
  · have hspace : ' ' ≠ backquote := by decide
    exact fun hrun => hfree (runs_append_cons hspace [] before ▸ hrun)
  · rw [toList_codeSpan, fenceSize, spanContent, if_pos hmem, if_pos hmem, hv]
    simp
  · cases after with
    | nil => exact (by decide : some ' ' ≠ some backquote)
    | cons c after => exact hafter

/-- **Where code spans end.** Around a text that is not empty, a code span ends with a run as long
as the one it begins with, and no such run stands in between, iff the text has no run of exactly two
backquotes. Then a reader takes all of it for one span, and finds the text, or the text between two
spaces. Otherwise it takes the first run of two backquotes for the end of the span. -/
theorem codeSpan_whole_iff {v : String} (h : v ≠ "") :
    (IsWhole (codeSpan v) ↔ 2 ∉ runs v.toList)
      ∧ (readSpan (codeSpan v) = some (spanContent v, []) ↔ 2 ∉ runs v.toList)
      ∧ (spanContent v = v.toList ∨ spanContent v = ' ' :: (v.toList ++ [' ']))
      ∧ (2 ∈ runs v.toList → ∃ before after, v.toList = before ++ (fence 2 ++ after)
        ∧ 2 ∉ runs before
        ∧ readSpan (codeSpan v) = some (' ' :: before, after ++ ' ' :: fence 2)) := by
  refine ⟨(isWhole_codeSpan_iff h).trans (delimited_spanContent_iff h), ?_, ?_, readSpan_of_run⟩
  · rw [← delimited_spanContent_iff h, ← isWhole_codeSpan_iff h, readSpan_eq_some_iff]
    constructor
    · rintro ⟨n, hdelimited, hs, -⟩
      exact ⟨n, _, hdelimited, by rw [hs, List.append_nil]⟩
    · intro hwhole
      refine ⟨_, (isWhole_codeSpan_iff h).mp hwhole, ?_, nofun⟩
      rw [List.append_nil, toList_codeSpan]
  · unfold spanContent
    split
    · exact .inr rfl
    · exact .inl rfl

/-- Runs of one, three and four backquotes do no harm. -/
theorem codeSpan_whole_around_runs : "`x```y````" ≠ "" ∧ 2 ∉ runs "`x```y````".toList
    ∧ IsWhole (codeSpan "`x```y````")
    ∧ readSpan (codeSpan "`x```y````") = some (' ' :: ("`x```y````".toList ++ [' ']), []) := by
  have hne : "`x```y````" ≠ "" := by decide
  have hfree : 2 ∉ runs "`x```y````".toList := by decide
  obtain ⟨hwhole, hread, -, -⟩ := codeSpan_whole_iff hne
  exact ⟨hne, hfree, hwhole.mpr hfree, hread.mpr hfree⟩

/-- Two backquotes in the text end the span, and the rest of it is left outside. -/
theorem codeSpan_ends_early : "a``b" ≠ "" ∧ ¬ IsWhole (codeSpan "a``b")
    ∧ readSpan (codeSpan "a``b") = some (" a".toList, "b ``".toList) := by
  refine ⟨by decide, ?_, by decide⟩
  rw [isWhole_codeSpan_iff (by decide), delimited_spanContent_iff (by decide)]
  decide

end WireModel.Reference.Markdown
