import Mathlib.Data.List.Forall2
import Mathlib.Data.List.TakeWhile
import WireModel.Proofs.Numerals
import WireModel.Reference.Html
import WireModel.Text.Quoted

/-!
# Text and markup of the page

The page is put together from tags and from text that comes from the model. Text is escaped, so it
holds no mark that begins or ends a tag or a value. Two trees that differ in their texts only are
therefore rendered with the same tags.

* **`Html.unescape_escape`**: reading the entities gives back the text; and
  **`Html.escape_eq_passes`**: escaping is the same as replacing one kind of character after the
  other, the ampersand first.
* **`Html.tags_append`**: after text in which every tag is closed, tags are found as if nothing
  stood before. This is what lets the page be read piece by piece.
* **`Html.SameMarkup`** compares two texts by their tags, up to the values of anchors, and every
  function of the renderer keeps it.
* **`Reference.markup_determined`** puts this together for the page.
-/

namespace WireModel.Reference

namespace Html

/-! ## Entities -/

/-- The text that markup without tags stands for: each of the five entities is a character. -/
def unescape : List Char → List Char
  | '&' :: 'a' :: 'm' :: 'p' :: ';' :: cs => '&' :: unescape cs
  | '&' :: 'l' :: 't' :: ';' :: cs => '<' :: unescape cs
  | '&' :: 'g' :: 't' :: ';' :: cs => '>' :: unescape cs
  | '&' :: 'q' :: 'u' :: 'o' :: 't' :: ';' :: cs => '"' :: unescape cs
  | '&' :: '#' :: '3' :: '9' :: ';' :: cs => Text.apostrophe :: unescape cs
  | c :: cs => c :: unescape cs
  | [] => []

theorem unescape_cons {c : Char} (h : c ≠ '&') (cs : List Char) :
    unescape (c :: cs) = c :: unescape cs := by
  rw [unescape.eq_def]
  split
  case h_6 heq =>
    obtain ⟨rfl, rfl⟩ := List.cons.inj heq
    rfl
  case h_7 heq => cases heq
  -- an entity begins with an ampersand
  all_goals
    next heq => exact absurd (List.cons.inj heq).1 h

theorem unescape_escapeChar (c : Char) (rest : List Char) :
    unescape (escapeChar c ++ rest) = c :: unescape rest := by
  have hchar : Char.ofNat c.toNat = c := Char.ofNat_toNat c
  unfold escapeChar
  split_ifs with hamp hless hgreater hquote hapostrophe
  · subst hamp
    rfl
  · subst hless
    rfl
  · subst hgreater
    rfl
  · rw [← hchar, hquote]
    rfl
  · rw [← hchar, hapostrophe]
    rfl
  · exact unescape_cons hamp rest

/-- **Reading the entities gives back the text.** -/
theorem unescape_escape (s : String) : unescape (escape s).toList = s.toList := by
  rw [escape, String.toList_ofList]
  induction s.toList with
  | nil => rfl
  | cons c cs ih => rw [List.flatMap_cons, unescape_escapeChar, ih]

/-- Every occurrence of a character becomes an entity. -/
def replace (c : Char) (entity : String) (cs : List Char) : List Char :=
  cs.flatMap fun d => if d = c then entity.toList else [d]

theorem replace_append (c : Char) (entity : String) (cs ds : List Char) :
    replace c entity (cs ++ ds) = replace c entity cs ++ replace c entity ds := List.flatMap_append

theorem replace_of_ne {c d : Char} (h : d ≠ c) (entity : String) : replace c entity [d] = [d] := by
  rw [replace, List.flatMap_singleton, if_neg h]

/-- One pass for each character, the ampersand first, so that the ampersands of the entities
stay. -/
def passes (cs : List Char) : List Char :=
  replace Text.apostrophe "&#39;" (replace '"' "&quot;"
    (replace '>' "&gt;" (replace '<' "&lt;" (replace '&' "&amp;" cs))))

theorem passes_singleton (c : Char) : passes [c] = escapeChar c := by
  have hchar : Char.ofNat c.toNat = c := Char.ofNat_toNat c
  unfold escapeChar
  split_ifs with hamp hless hgreater hquote hapostrophe
  · subst hamp
    rfl
  · subst hless
    rfl
  · subst hgreater
    rfl
  · rw [← hchar, hquote]
    rfl
  · rw [← hchar, hapostrophe]
    rfl
  · have hquote' : c ≠ '"' := fun heq => hquote (by rw [heq]; rfl)
    have hapostrophe' : c ≠ Text.apostrophe := fun heq => hapostrophe (by rw [heq]; rfl)
    rw [passes, replace_of_ne hamp, replace_of_ne hless, replace_of_ne hgreater,
      replace_of_ne hquote', replace_of_ne hapostrophe']

/-- **Escaping goes over the text once for each character.** -/
theorem escape_eq_passes (s : String) : (escape s).toList = passes s.toList := by
  rw [escape, String.toList_ofList]
  induction s.toList with
  | nil => rfl
  | cons c cs ih =>
    have hsplit : passes ([c] ++ cs) = passes [c] ++ passes cs := by
      simp only [passes, replace_append]
    rw [List.flatMap_cons, ih, ← passes_singleton, ← hsplit]
    rfl

/-! ## Tags -/

/-- The tags of a text: from each `<` to the next `>`. -/
def tags : List Char → List (List Char)
  | [] => []
  | c :: cs =>
    if c = '<' ∧ '>' ∈ cs then (c :: cs.takeWhile (· != '>') ++ ['>']) :: tags cs else tags cs

/-- Every `<` has a `>` before the next `<`, and every `>` has a `<` of its own. `inside` says that
the text begins behind a `<`. -/
def isClosed (inside : Bool) : List Char → Bool
  | [] => !inside
  | c :: cs =>
    if c = '<' then !inside && isClosed true cs
    else if c = '>' then inside && isClosed false cs
    else isClosed inside cs

theorem mem_of_isClosed {cs : List Char} (h : isClosed true cs = true) : '>' ∈ cs := by
  induction cs with
  | nil => cases h
  | cons c cs ih =>
    unfold isClosed at h
    split_ifs at h with hless hgreater
    · cases h
    · rw [hgreater]
      exact List.mem_cons_self
    · exact List.mem_cons_of_mem c (ih h)

theorem takeWhile_append_of_mem {c : Char} {cs : List Char} (h : c ∈ cs) (rest : List Char) :
    (cs ++ rest).takeWhile (· != c) = cs.takeWhile (· != c) := by
  rw [List.takeWhile_append, if_neg]
  intro hlength
  have hself := (List.takeWhile_prefix _).eq_of_length hlength
  have hne := List.takeWhile_eq_self_iff.mp hself c h
  simp at hne

/-- **Tags are found piece by piece.** -/
theorem tags_append {inside : Bool} {cs : List Char} (h : isClosed inside cs = true)
    (rest : List Char) : tags (cs ++ rest) = tags cs ++ tags rest := by
  induction cs generalizing inside with
  | nil => rfl
  | cons c cs ih =>
    unfold isClosed at h
    rw [List.cons_append, tags, tags]
    split_ifs at h with hless hgreater
    · -- the tag ends before the rest begins
      have hclosed := (Bool.and_eq_true_iff.mp h).2
      have hmem := mem_of_isClosed hclosed
      rw [if_pos ⟨hless, List.mem_append_left _ hmem⟩, if_pos ⟨hless, hmem⟩,
        takeWhile_append_of_mem hmem, ih hclosed]
      rfl
    · rw [if_neg (fun hc => hless hc.1), if_neg (fun hc => hless hc.1)]
      exact ih (Bool.and_eq_true_iff.mp h).2
    · rw [if_neg (fun hc => hless hc.1), if_neg (fun hc => hless hc.1)]
      exact ih h

theorem isClosed_append {inside : Bool} {cs rest : List Char} (h : isClosed inside cs = true)
    (hrest : isClosed false rest = true) : isClosed inside (cs ++ rest) = true := by
  induction cs generalizing inside with
  | nil =>
    rw [isClosed, Bool.not_eq_true'] at h
    rw [h]
    exact hrest
  | cons c cs ih =>
    unfold isClosed at h
    rw [List.cons_append, isClosed]
    split_ifs at h ⊢ with hless hgreater
    · rw [Bool.and_eq_true] at h ⊢
      exact ⟨h.1, ih h.2⟩
    · rw [Bool.and_eq_true] at h ⊢
      exact ⟨h.1, ih h.2⟩
    · exact ih h

/-! ## Values -/

/-- The characters before a value, in reverse order, end in ` id=` or ` href=`. -/
def isAnchored (before : List Char) : Bool :=
  " id=".toList.reverse.isPrefixOf before || " href=".toList.reverse.isPrefixOf before

/-- The characters of a tag without those of the values of `id` and `href`. `before` is what has
been read, in reverse order; `value` says whether the reader is in a value, and then whether it is
one that is left out. -/
def withoutAnchors (before : List Char) (value : Option Bool) : List Char → List Char
  | [] => []
  | c :: cs =>
    match value with
    | none =>
      c :: withoutAnchors (c :: before) (if c = '"' then some (isAnchored before) else none) cs
    | some left =>
      if c = '"' then c :: withoutAnchors (c :: before) none cs
      else if left then withoutAnchors (c :: before) value cs
      else c :: withoutAnchors (c :: before) value cs

/-- A tag without the values of its anchors. -/
def bare (tag : List Char) : List Char := withoutAnchors [] none tag

/-- Everything between the first and the last double quote of a tag. -/
def quoted (tag : List Char) : List Char :=
  ((tag.dropWhile (· != '"')).tail.reverse.dropWhile (· != '"')).tail.reverse

/-- What stands before the value of an anchor: a name and the word that introduces the anchor. -/
structure Introduces (head : List Char) : Prop where
  anchored : isAnchored head.reverse = true
  quote_not_mem : '"' ∉ head

theorem withoutAnchors_head {head : List Char} (h : '"' ∉ head) (before rest : List Char) :
    withoutAnchors before none (head ++ rest)
      = head ++ withoutAnchors (head.reverse ++ before) none rest := by
  induction head generalizing before with
  | nil => rfl
  | cons c head ih =>
    obtain ⟨hc, hhead⟩ := not_or.mp (mt List.mem_cons.mpr h)
    rw [List.cons_append, withoutAnchors, if_neg (Ne.symm hc), ih hhead, List.reverse_cons,
      List.append_assoc]
    rfl

theorem withoutAnchors_value {value : List Char} (h : '"' ∉ value) (before rest : List Char) :
    withoutAnchors before (some true) (value ++ rest)
      = withoutAnchors (value.reverse ++ before) (some true) rest := by
  induction value generalizing before with
  | nil => rfl
  | cons c value ih =>
    obtain ⟨hc, hvalue⟩ := not_or.mp (mt List.mem_cons.mpr h)
    rw [List.cons_append, withoutAnchors, if_neg (Ne.symm hc), if_pos rfl, ih hvalue,
      List.reverse_cons, List.append_assoc]
    rfl

/-- The value of an anchor is left out, and nothing else. -/
theorem bare_anchor {head value : List Char} (h : Introduces head) (hvalue : '"' ∉ value) :
    bare (head ++ '"' :: (value ++ ['"', '>'])) = head ++ ['"', '"', '>'] := by
  rw [bare, withoutAnchors_head h.quote_not_mem, List.append_nil, withoutAnchors, if_pos rfl,
    h.anchored, withoutAnchors_value hvalue]
  rfl

theorem quoted_eq {head value : List Char} (hhead : '"' ∉ head) :
    quoted (head ++ '"' :: (value ++ ['"', '>'])) = value := by
  have hopen : (head ++ '"' :: (value ++ ['"', '>'])).dropWhile (· != '"')
      = '"' :: (value ++ ['"', '>']) := by
    rw [List.dropWhile_append_of_pos fun c hc => bne_iff_ne.mpr (ne_of_mem_of_not_mem hc hhead)]
    rfl
  rw [quoted, hopen, List.tail_cons, List.reverse_append]
  show (value.reverse).reverse = value
  exact List.reverse_reverse value

theorem quoted_of_not_mem {tag : List Char} (h : '"' ∉ tag) : quoted tag = [] := by
  have hnone : tag.dropWhile (· != '"') = [] :=
    List.dropWhile_eq_nil_iff.mpr fun c hc => bne_iff_ne.mpr (ne_of_mem_of_not_mem hc h)
  rw [quoted, hnone]
  rfl

/-! ## Two texts with the same tags -/

/-- Tags that differ in the value of an anchor at most, which holds no double quote. -/
inductive SameTag : List Char → List Char → Prop where
  | refl {tag : List Char} (h : '"' ∉ quoted tag) : SameTag tag tag
  | anchor {head value other : List Char} (h : Introduces head) (hvalue : '"' ∉ value)
      (hother : '"' ∉ other) :
      SameTag (head ++ '"' :: (value ++ ['"', '>'])) (head ++ '"' :: (other ++ ['"', '>']))

theorem SameTag.bare_eq {tag other : List Char} (h : SameTag tag other) :
    bare tag = bare other := by
  cases h with
  | refl => rfl
  | anchor h hvalue hother => rw [bare_anchor h hvalue, bare_anchor h hother]

theorem SameTag.quote_not_mem {tag other : List Char} (h : SameTag tag other) :
    '"' ∉ quoted tag := by
  cases h with
  | refl h => exact h
  | anchor h hvalue => rwa [quoted_eq h.quote_not_mem]

/-- Two texts in which every tag is closed, with the same tags. -/
structure SameMarkup (s t : String) : Prop where
  left : isClosed false s.toList = true
  right : isClosed false t.toList = true
  tags : List.Forall₂ SameTag (tags s.toList) (tags t.toList)

/-- Text without a mark of a tag. -/
def IsPlain (cs : List Char) : Prop := ∀ c ∈ cs, c ≠ '<' ∧ c ≠ '>'

instance : DecidablePred IsPlain := fun cs => List.decidableBAll _ cs

theorem isPlain_append {cs ds : List Char} : IsPlain (cs ++ ds) ↔ IsPlain cs ∧ IsPlain ds :=
  List.forall_mem_append

/-- A fixed text is plain if the characters that it is made of are. -/
theorem IsPlain.of_eq {s : String} {cs : List Char} (h : s = String.ofList cs) (hcs : IsPlain cs) :
    IsPlain s.toList := by
  rw [h, String.toList_ofList]
  exact hcs

theorem isClosed_of_isPlain {cs : List Char} (h : IsPlain cs) (inside : Bool) (rest : List Char) :
    isClosed inside (cs ++ rest) = isClosed inside rest := by
  induction cs with
  | nil => rfl
  | cons c cs ih =>
    obtain ⟨⟨hless, hgreater⟩, hcs⟩ := List.forall_mem_cons.mp h
    rw [List.cons_append, isClosed, if_neg hless, if_neg hgreater, ih hcs]

theorem tags_of_isPlain {cs : List Char} (h : IsPlain cs) (rest : List Char) :
    tags (cs ++ rest) = tags rest := by
  induction cs with
  | nil => rfl
  | cons c cs ih =>
    obtain ⟨⟨hless, -⟩, hcs⟩ := List.forall_mem_cons.mp h
    rw [List.cons_append, tags, if_neg fun hc => hless hc.1, ih hcs]

/-- One tag, and nothing else. -/
theorem tags_tag {body : List Char} (h : IsPlain body) :
    tags ('<' :: (body ++ ['>'])) = ['<' :: (body ++ ['>'])] := by
  have htake : (body ++ ['>']).takeWhile (· != '>') = body := by
    rw [List.takeWhile_append_of_pos fun c hc => bne_iff_ne.mpr (h c hc).2]
    exact List.append_nil body
  rw [tags, if_pos ⟨rfl, by simp⟩, htake, tags_of_isPlain h]
  rfl

theorem isClosed_tag {body : List Char} (h : IsPlain body) :
    isClosed false ('<' :: (body ++ ['>'])) = true := by
  rw [isClosed, if_pos rfl, isClosed_of_isPlain h]
  rfl

namespace SameMarkup

variable {s t u v : String}

theorem append (h : SameMarkup s t) (h' : SameMarkup u v) : SameMarkup (s ++ u) (t ++ v) where
  left := by
    rw [String.toList_append]
    exact isClosed_append h.left h'.left
  right := by
    rw [String.toList_append]
    exact isClosed_append h.right h'.right
  tags := by
    rw [String.toList_append, String.toList_append, tags_append h.left, tags_append h.right]
    exact List.rel_append h.tags h'.tags

theorem of_isPlain (hs : IsPlain s.toList) (ht : IsPlain t.toList) : SameMarkup s t where
  left := by rw [← List.append_nil s.toList, isClosed_of_isPlain hs]; rfl
  right := by rw [← List.append_nil t.toList, isClosed_of_isPlain ht]; rfl
  tags := by
    rw [← List.append_nil s.toList, ← List.append_nil t.toList, tags_of_isPlain hs,
      tags_of_isPlain ht]
    exact .nil

theorem of_sameTag {body other : List Char} (hbody : IsPlain body) (hother : IsPlain other)
    (hs : s.toList = '<' :: (body ++ ['>'])) (ht : t.toList = '<' :: (other ++ ['>']))
    (h : SameTag s.toList t.toList) : SameMarkup s t where
  left := hs ▸ isClosed_tag hbody
  right := ht ▸ isClosed_tag hother
  tags := by
    rw [hs, ht] at h ⊢
    rw [tags_tag hbody, tags_tag hother]
    exact .cons h .nil

/-- Fixed text. -/
theorem of_fixed (hclosed : isClosed false s.toList = true)
    (hquotes : ∀ tag ∈ Html.tags s.toList, '"' ∉ quoted tag) : SameMarkup s s :=
  ⟨hclosed, hclosed, List.forall₂_same.mpr fun tag htag => .refl (hquotes tag htag)⟩

variable {α : Type} {f : α → String} {xs ys : List α}

theorem join_map (h : List.Forall₂ (fun x y => SameMarkup (f x) (f y)) xs ys) :
    SameMarkup (String.join (xs.map f)) (String.join (ys.map f)) := by
  induction h with
  | nil => exact of_isPlain nofun nofun
  | cons hxy _ ih =>
    rw [List.map_cons, List.map_cons, String.join_cons, String.join_cons]
    exact hxy.append ih

theorem unlines {ls ms : List String} (h : List.Forall₂ SameMarkup ls ms) :
    SameMarkup (Text.unlines ls) (Text.unlines ms) := by
  have hbreak : SameMarkup "\n" "\n" := of_fixed rfl (by decide)
  induction h with
  | nil => exact of_isPlain nofun nofun
  | cons hlm htail ih =>
    cases htail with
    | nil => simpa [Text.unlines] using hlm
    | cons =>
      rw [Text.unlines, Text.unlines, String.intercalate_cons_cons, String.intercalate_cons_cons]
      exact (hlm.append hbreak).append ih

end SameMarkup

/-! ## The renderer -/

/-- Text that can stand between the double quotes of a tag. -/
def IsValue (cs : List Char) : Prop := ∀ c ∈ cs, c ≠ '<' ∧ c ≠ '>' ∧ c ≠ '"'

instance : DecidablePred IsValue := fun cs => List.decidableBAll _ cs

theorem IsValue.isPlain {cs : List Char} (h : IsValue cs) : IsPlain cs := fun c hc =>
  ⟨(h c hc).1, (h c hc).2.1⟩

theorem IsValue.quote_not_mem {cs : List Char} (h : IsValue cs) : '"' ∉ cs := fun hmem =>
  (h _ hmem).2.2 rfl

theorem IsValue.append {cs ds : List Char} (h : IsValue cs) (h' : IsValue ds) :
    IsValue (cs ++ ds) := List.forall_mem_append.mpr ⟨h, h'⟩

theorem isValue_escapeChar (c : Char) : IsValue (escapeChar c) := by
  unfold escapeChar
  split_ifs with hamp hless hgreater hquote hapostrophe
  case neg =>
    refine List.forall_mem_singleton.mpr ⟨hless, hgreater, ?_⟩
    rintro rfl
    exact hquote rfl
  -- an entity holds no mark either
  all_goals decide

/-- **Escaped text holds no mark.** -/
theorem isValue_escape (s : String) : IsValue (escape s).toList := by
  rw [escape, String.toList_ofList, IsValue, List.forall_mem_flatMap]
  exact fun c _ => isValue_escapeChar c

theorem sameMarkup_escape (s t : String) : SameMarkup (escape s) (escape t) :=
  .of_isPlain (isValue_escape s).isPlain (isValue_escape t).isPlain

/-- The name of a tag. -/
def IsTagName (tag : String) : Prop := ∀ c ∈ tag.toList, Text.isAlphanumeric c = true

instance : DecidablePred IsTagName := fun tag => List.decidableBAll _ tag.toList

theorem IsTagName.isValue {tag : String} (h : IsTagName tag) : IsValue tag.toList := by
  intro c hc
  have halpha := h c hc
  refine ⟨?_, ?_, ?_⟩
  all_goals
    rintro rfl
    cases halpha

theorem isTagName_heading (level : Nat) : IsTagName ("h" ++ toString level) := by
  intro c hc
  rw [String.toList_append, List.mem_append] at hc
  rcases hc with hh | hlevel
  · rw [List.mem_singleton.mp hh]
    rfl
  · have hdigits : c ∈ Nat.toDigits 10 level := Nat.toList_repr ▸ hlevel
    rw [Text.isAlphanumeric, Text.isDigit_of_mem_toDigits hdigits, Bool.or_true]

section Elements

variable {tag : String} (htag : IsTagName tag)

include htag

/-- A tag without a value, with or without the mark of an end. -/
theorem sameMarkup_tag {mark : String} (hmark : IsValue mark.toList) :
    SameMarkup ("<" ++ mark ++ tag ++ ">") ("<" ++ mark ++ tag ++ ">") := by
  have hlist : ("<" ++ mark ++ tag ++ ">").toList
      = '<' :: (mark.toList ++ tag.toList ++ ['>']) := by
    simp [String.toList_append]
  have hvalue := hmark.append htag.isValue
  have hquote : '"' ∉ '<' :: (mark.toList ++ tag.toList ++ ['>']) := by
    simpa using hvalue.quote_not_mem
  refine .of_sameTag hvalue.isPlain hvalue.isPlain hlist hlist (.refl ?_)
  rw [hlist, quoted_of_not_mem hquote]
  exact List.not_mem_nil

theorem sameMarkup_element {content other : String} (h : SameMarkup content other) :
    SameMarkup (element tag content) (element tag other) := by
  have hparts (inner : String) : element tag inner
      = ("<" ++ "" ++ tag ++ ">") ++ inner ++ ("<" ++ "/" ++ tag ++ ">") := by
    simp [element, ← String.toList_inj]
  rw [hparts, hparts]
  exact ((sameMarkup_tag htag (by decide)).append h).append (sameMarkup_tag htag (by decide))

/-- A tag with an anchor. -/
theorem sameMarkup_anchor {key value other : String} (hkey : key = "id" ∨ key = "href")
    (hvalue : IsValue value.toList) (hother : IsValue other.toList) :
    SameMarkup ("<" ++ tag ++ " " ++ key ++ "=\"" ++ value ++ "\">")
      ("<" ++ tag ++ " " ++ key ++ "=\"" ++ other ++ "\">") := by
  -- what stands between the first mark and the value
  have hkeyValue : IsValue (' ' :: (key.toList ++ ['='])) := by
    rcases hkey with rfl | rfl <;> decide
  have hhead := htag.isValue.append hkeyValue
  have hintroduces : Introduces ('<' :: (tag.toList ++ ' ' :: (key.toList ++ ['=']))) := by
    refine ⟨?_, by simpa using hhead.quote_not_mem⟩
    rcases hkey with rfl | rfl <;> simp [isAnchored, List.isPrefixOf]
  have hlist (value : String) : ("<" ++ tag ++ " " ++ key ++ "=\"" ++ value ++ "\">").toList
      = '<' :: (tag.toList ++ ' ' :: (key.toList ++ ['='])) ++ '"' :: (value.toList ++ ['"', '>'])
      := by simp
  have hbody {value : String} (h : IsValue value.toList) :
      IsPlain (tag.toList ++ ' ' :: (key.toList ++ ['=']) ++ '"' :: (value.toList ++ ['"'])) := by
    have hquote : IsPlain ['"'] := by decide
    exact isPlain_append.mpr ⟨hhead.isPlain,
      isPlain_append.mpr ⟨hquote, isPlain_append.mpr ⟨h.isPlain, hquote⟩⟩⟩
  refine .of_sameTag (hbody hvalue) (hbody hother) ?_ ?_ ?_
  · simp
  · simp
  · rw [hlist, hlist]
    exact .anchor hintroduces hvalue.quote_not_mem hother.quote_not_mem

theorem sameMarkup_elementWith {key value value' content other : String}
    (hkey : key = "id" ∨ key = "href") (hvalue : IsValue value.toList)
    (hvalue' : IsValue value'.toList) (h : SameMarkup content other) :
    SameMarkup (elementWith tag key value content) (elementWith tag key value' other) := by
  have hparts (value inner : String) : elementWith tag key value inner
      = ("<" ++ tag ++ " " ++ key ++ "=\"" ++ value ++ "\">") ++ inner
        ++ ("<" ++ "/" ++ tag ++ ">") := by
    simp [elementWith, ← String.toList_inj]
  rw [hparts value content, hparts value' other]
  exact ((sameMarkup_anchor htag hkey hvalue hvalue').append h).append
    (sameMarkup_tag htag (by decide))

end Elements

end Html

/-! ## Shapes -/

/-- A piece of running text without its text and its anchor. -/
def Span.shape : Span → Span
  | .text _ => .text ""
  | .code _ => .code ""
  | .link _ _ isCode => .link "" "" isCode
  | .target _ => .target ""

/-- A block without its texts and its anchor. -/
def Block.shape : Block → Block
  | .heading level _ _ => .heading level "" ""
  | .paragraph content => .paragraph (content.map Span.shape)
  | .list items => .list (items.map fun item => item.map Span.shape)
  | .table header rows =>
    .table (header.map fun _ => "") (rows.map fun row => row.map fun cell => cell.map Span.shape)

/-- A tree without its title, its texts and its anchors. What is left is the blocks, the levels of
headings, the sizes of lists and tables, the kinds of spans, and which links are code. -/
def Tree.shape (tree : Tree) : Tree := ⟨"", tree.blocks.map Block.shape⟩

/-- Lists with the same images have elements with the same images. -/
theorem forall₂_of_map_eq {α β : Type} {f : α → β} {xs ys : List α} (h : xs.map f = ys.map f) :
    List.Forall₂ (fun x y => f x = f y) xs ys := by
  rwa [← List.forall₂_eq_eq_eq, List.forall₂_map_left_iff, List.forall₂_map_right_iff] at h

namespace Html

/-! ## The renderer -/

theorem sameMarkup_code (s t : String) :
    SameMarkup (element "code" (escape s)) (element "code" (escape t)) :=
  sameMarkup_element (by decide) (sameMarkup_escape s t)

theorem sameMarkup_span {s t : Span} (h : s.shape = t.shape) : SameMarkup (span s) (span t) := by
  cases s with
  | text s =>
    cases t <;> cases h
    exact sameMarkup_escape _ _
  | code s =>
    cases t <;> cases h
    exact sameMarkup_code _ _
  | link s anchor isCode =>
    cases t <;> cases h
    have hvalue (anchor : String) : IsValue ("#" ++ escape anchor).toList := by
      rw [String.toList_append]
      exact IsValue.append (by decide) (isValue_escape anchor)
    refine sameMarkup_elementWith (by decide) (.inr rfl) (hvalue _) (hvalue _) ?_
    cases isCode
    · exact sameMarkup_escape _ _
    · exact sameMarkup_code _ _
  | target anchor =>
    cases t <;> cases h
    exact sameMarkup_elementWith (by decide) (.inl rfl) (isValue_escape _) (isValue_escape _)
      (.of_fixed rfl (by decide))

theorem sameMarkup_spans {content other : Spans}
    (h : content.map Span.shape = other.map Span.shape) :
    SameMarkup (spans content) (spans other) :=
  .join_map ((forall₂_of_map_eq h).imp fun _ _ => sameMarkup_span)

/-- Elements of one kind around running text. -/
theorem sameMarkup_elements {tag : String} (htag : IsTagName tag) {items others : List Spans}
    (h : (items.map fun item => item.map Span.shape) = others.map fun item => item.map Span.shape) :
    SameMarkup (String.join (items.map fun item => element tag (spans item)))
      (String.join (others.map fun item => element tag (spans item))) :=
  .join_map ((forall₂_of_map_eq h).imp fun _ _ hitem =>
    sameMarkup_element htag (sameMarkup_spans hitem))

theorem sameMarkup_block {b c : Block} (h : b.shape = c.shape) :
    SameMarkup (block b) (block c) := by
  cases b with
  | heading level text anchor =>
    cases c <;> cases h
    exact sameMarkup_elementWith (isTagName_heading level) (.inl rfl) (isValue_escape _)
      (isValue_escape _) (sameMarkup_escape _ _)
  | paragraph content =>
    cases c <;> simp only [Block.shape, Block.paragraph.injEq, reduceCtorEq] at h
    exact sameMarkup_element (by decide) (sameMarkup_spans h)
  | list items =>
    cases c <;> simp only [Block.shape, Block.list.injEq, reduceCtorEq] at h
    exact sameMarkup_element (by decide) (sameMarkup_elements (by decide) h)
  | table header rows =>
    cases c <;> simp only [Block.shape, Block.table.injEq, reduceCtorEq] at h
    obtain ⟨hheader, hrows⟩ := h
    have hhead : SameMarkup (String.join (header.map fun h => element "th" (escape h))) _ :=
      .join_map ((forall₂_of_map_eq hheader).imp fun _ _ _ =>
        sameMarkup_element (by decide) (sameMarkup_escape _ _))
    have hbody : SameMarkup (String.join (rows.map row)) _ :=
      .join_map ((forall₂_of_map_eq hrows).imp fun _ _ hrow =>
        sameMarkup_element (by decide) (sameMarkup_elements (by decide) hrow))
    exact sameMarkup_element (by decide)
      ((sameMarkup_element (by decide) (sameMarkup_element (by decide) hhead)).append
        (sameMarkup_element (by decide) hbody))

/-- The style sheet holds no mark. -/
theorem isPlain_styles : IsPlain styles.toList := by
  simp only [styles, rule, String.toList_append, isPlain_append]
  -- piece by piece, so that no long text has to be taken apart
  repeat' apply And.intro
  all_goals exact .of_eq rfl (by decide)

/-- **The page has the tags of its shape.** -/
theorem sameMarkup_render {a b : Tree} (h : a.shape = b.shape) :
    SameMarkup (render a) (render b) := by
  have hblocks : a.blocks.map Block.shape = b.blocks.map Block.shape := congrArg Tree.blocks h
  have hlines : List.Forall₂ SameMarkup (a.blocks.map fun b => "    " ++ block b)
      (b.blocks.map fun b => "    " ++ block b) := by
    rw [List.forall₂_map_left_iff, List.forall₂_map_right_iff]
    exact (forall₂_of_map_eq hblocks).imp fun _ _ hblock =>
      (SameMarkup.of_fixed rfl (by decide)).append (sameMarkup_block hblock)
  have htitle : SameMarkup ("  " ++ element "title" (escape a.title))
      ("  " ++ element "title" (escape b.title)) :=
    (SameMarkup.of_fixed rfl (by decide)).append
      (sameMarkup_element (by decide) (sameMarkup_escape _ _))
  have hstyle : SameMarkup ("  " ++ element "style" styles) ("  " ++ element "style" styles) :=
    (SameMarkup.of_fixed rfl (by decide)).append
      (sameMarkup_element (by decide) (.of_isPlain isPlain_styles isPlain_styles))
  have hfixed {line : String} (hclosed : isClosed false line.toList = true)
      (hquotes : ∀ tag ∈ Html.tags line.toList, '"' ∉ quoted tag) : SameMarkup line line :=
    .of_fixed hclosed hquotes
  unfold render
  refine SameMarkup.unlines ?_
  simp only [List.forall₂_cons]
  exact ⟨hfixed rfl (by decide), hfixed rfl (by decide), hfixed rfl (by decide),
    hfixed rfl (by decide), htitle, hstyle, hfixed rfl (by decide), hfixed rfl (by decide),
    hfixed rfl (by decide), .unlines hlines, hfixed rfl (by decide), hfixed rfl (by decide),
    hfixed rfl (by decide), .nil⟩

end Html

/-- **Text can not change the structure of the page.** Trees of one shape are rendered with the same
tags, up to the values of `id` and `href`. No mark of a tag stands outside a tag, and no value of a
tag holds a double quote. The entities stand for the text that was escaped. -/
theorem markup_determined :
    (∀ a b : Tree, a.shape = b.shape →
        (Html.tags (Html.render a).toList).map Html.bare
          = (Html.tags (Html.render b).toList).map Html.bare)
      ∧ (∀ tree : Tree, Html.isClosed false (Html.render tree).toList = true
        ∧ '"' ∉ (Html.tags (Html.render tree).toList).flatMap Html.quoted)
      ∧ ∀ s : String, Html.unescape (Html.escape s).toList = s.toList := by
  refine ⟨fun a b h => ?_, fun tree => ?_, Html.unescape_escape⟩
  · have htags := (Html.sameMarkup_render h).tags
    rw [← List.forall₂_eq_eq_eq, List.forall₂_map_left_iff, List.forall₂_map_right_iff]
    exact htags.imp fun _ _ => Html.SameTag.bare_eq
  · obtain ⟨hclosed, -, htags⟩ := Html.sameMarkup_render (rfl : tree.shape = tree.shape)
    refine ⟨hclosed, fun hmem => ?_⟩
    obtain ⟨tag, htag, hquote⟩ := List.mem_flatMap.mp hmem
    obtain ⟨i, hi, rfl⟩ := List.mem_iff_getElem.mp htag
    exact (htags.get hi hi).quote_not_mem hquote

/-- A tree with every kind of block and span, in which a text stands at every place. -/
def note (text : String) : Tree where
  title := text
  blocks :=
    [.heading 1 text text, .paragraph [.target text, .text text], .list [[.code text], []],
      .table [text, text] [[[.link text text true], [.link text text false]]]]

/-- Text that looks like the end of a value and like tags and entities. -/
theorem markup_determined_forged :
    (note "notes").shape = (note "\"><b id=\"x\">&lt;/p>").shape
      ∧ (Html.tags (Html.render (note "notes")).toList).map Html.bare
        = (Html.tags (Html.render (note "\"><b id=\"x\">&lt;/p>")).toList).map Html.bare :=
  ⟨rfl, markup_determined.1 _ _ rfl⟩

end WireModel.Reference
