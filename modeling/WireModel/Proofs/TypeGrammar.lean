import Mathlib.Data.List.DropRight
import WireModel.Proofs.Spelling

/-!
# The grammar of types

A type is written as an item, `List[item]`, `Optional[item]` or `Optional[List[item]]`, with any
number of spaces before, between and after the tokens. `FieldType.WrittenAs` says that without a
reader: the tokens of a type are listed, and `Spaced` puts spaces around them.

The reader knows no such list. It takes names as long as they go, opens a bracket wherever one
stands, to any depth, and closes as many; which of these terms are types is decided afterwards.

* **`Term.readNames_eq_ok_iff`**: one step of the reader takes a name that cannot go on, and then
  either goes into a bracket or is done.
* **`Term.parse_eq_ok_iff`**: so the reader accepts the nested terms of every depth, and nothing
  else. The induction is on the names that are read, for a text has no other measure of depth.
* **`FieldType.parse_eq_ok_iff`**: of these terms the second stage keeps the types.
-/

namespace WireModel

/-! ## Tokens and spaces -/

namespace Term

/-- A piece of the text of a type. -/
inductive Token where
  | word (name : String)
  | opening
  | closing
  deriving DecidableEq, Repr

def Token.chars : Token → List Char
  | .word name => name.toList
  | .opening => ['[']
  | .closing => [']']

/-- The text consists of the tokens, with any number of spaces before, between and after them. -/
inductive Spaced : List Token → List Char → Prop where
  | nil (n : Nat) : Spaced [] (List.replicate n ' ')
  | cons (n : Nat) (token : Token) {rest : List Token} {cs : List Char} (h : Spaced rest cs) :
      Spaced (token :: rest) (List.replicate n ' ' ++ (token.chars ++ cs))

end Term

/-- An item that can be written: a name that is none of the primitives and that is not taken by
the syntax itself. -/
def Atom.Proper : Atom → Prop
  | .primitive _ => True
  | .named name => Name.isPlain name = true ∧ name ≠ "List" ∧ name ≠ "Optional"
      ∧ ∀ kind : Primitive, kind.name ≠ name

namespace FieldType

/-- The tokens of a type. -/
def tokens (a : FieldType Atom) : List Term.Token :=
  let item := [.word a.item.text]
  let body := if a.isList then [.word "List", .opening] ++ item ++ [.closing] else item
  if a.isOptional then [.word "Optional", .opening] ++ body ++ [.closing] else body

/-- The text is one of the ways to write the type. -/
def WrittenAs (a : FieldType Atom) (text : String) : Prop :=
  a.item.Proper ∧ Term.Spaced a.tokens text.toList

end FieldType

namespace Term

/-! ## Spaces -/

theorem skipSpaces_replicate_append (n : Nat) {cs : List Char} (h : cs.head? ≠ some ' ') :
    skipSpaces (List.replicate n ' ' ++ cs) = cs := by
  unfold skipSpaces
  rw [List.dropWhile_append_of_pos (by simp)]
  cases cs with
  | nil => rfl
  | cons c cs => exact List.dropWhile_cons_of_neg (by simpa using h)

theorem exists_eq_replicate_append (cs : List Char) :
    ∃ n, cs = List.replicate n ' ' ++ skipSpaces cs := by
  have hspaces : cs.takeWhile (· == ' ') = List.replicate (cs.takeWhile (· == ' ')).length ' ' := by
    refine List.eq_replicate_iff.mpr ⟨rfl, fun c hc => ?_⟩
    simpa using List.mem_takeWhile_imp hc
  refine ⟨(cs.takeWhile (· == ' ')).length, ?_⟩
  rw [← hspaces, skipSpaces, List.takeWhile_append_dropWhile]

theorem spaced_nil_iff {cs : List Char} : Spaced [] cs ↔ skipSpaces cs = [] := by
  constructor
  · rintro ⟨n⟩
    simpa using skipSpaces_replicate_append n (show [].head? ≠ some ' ' by simp)
  · intro h
    obtain ⟨n, hn⟩ := exists_eq_replicate_append cs
    rw [hn, h, List.append_nil]
    exact .nil n

/-- The token begins with a character that is no space. -/
def Token.IsSolid (token : Token) : Prop := ∃ c more, token.chars = c :: more ∧ c ≠ ' '

theorem Token.isSolid_word {name : String} (h : Name.isPlain name = true) :
    (Token.word name).IsSolid := by
  obtain ⟨first, rest, hchars, hfirst, -⟩ := Name.isPlain_iff.mp h
  refine ⟨first, rest, hchars, ?_⟩
  rintro rfl
  cases hfirst

theorem Token.isSolid_opening : Token.opening.IsSolid := ⟨'[', [], rfl, by decide⟩

theorem Token.isSolid_closing : Token.closing.IsSolid := ⟨']', [], rfl, by decide⟩

theorem spaced_cons_iff {token : Token} (h : token.IsSolid) {rest : List Token}
    {cs : List Char} :
    Spaced (token :: rest) cs ↔ ∃ tail, skipSpaces cs = token.chars ++ tail ∧ Spaced rest tail := by
  obtain ⟨c, more, hchars, hc⟩ := h
  constructor
  · rintro ⟨⟩
    next n tail htail =>
    refine ⟨tail, skipSpaces_replicate_append n ?_, htail⟩
    simpa [hchars] using hc
  · rintro ⟨tail, hskip, htail⟩
    obtain ⟨n, hn⟩ := exists_eq_replicate_append cs
    rw [hn, hskip]
    exact .cons n token htail

theorem skipSpaces_skipSpaces (cs : List Char) : skipSpaces (skipSpaces cs) = skipSpaces cs :=
  List.dropWhile_idempotent _ cs

theorem spaced_skipSpaces_iff {tokens : List Token} (h : ∀ token ∈ tokens, token.IsSolid)
    {cs : List Char} : Spaced tokens (skipSpaces cs) ↔ Spaced tokens cs := by
  cases tokens with
  | nil => rw [spaced_nil_iff, spaced_nil_iff, skipSpaces_skipSpaces]
  | cons token rest =>
    have htoken := h token List.mem_cons_self
    rw [spaced_cons_iff htoken, spaced_cons_iff htoken, skipSpaces_skipSpaces]

/-! ## Names -/

/-- A name that stands before the text ends there. -/
def EndsName (cs : List Char) : Prop := ∀ c ∈ cs.head?, Name.isPlainChar c = false

/-- A name is taken as long as it goes. -/
theorem takeWhile_dropWhile_iff (cs : List Char) {taken rest : List Char} :
    cs.takeWhile Name.isPlainChar = taken ∧ cs.dropWhile Name.isPlainChar = rest ↔
      cs = taken ++ rest ∧ (∀ c ∈ taken, Name.isPlainChar c = true) ∧ EndsName rest := by
  constructor
  · rintro ⟨rfl, rfl⟩
    refine ⟨List.takeWhile_append_dropWhile.symm, fun c hc => List.mem_takeWhile_imp hc, ?_⟩
    intro c hc
    have hhead := List.head?_dropWhile_not Name.isPlainChar cs
    rw [Option.mem_def.mp hc] at hhead
    simpa using hhead
  · rintro ⟨rfl, htaken, hrest⟩
    rw [List.takeWhile_append_of_pos htaken, List.dropWhile_append_of_pos htaken]
    cases rest with
    | nil => simp
    | cons c rest => simp [hrest c rfl]

/-- **One step of the reader**: a name that cannot go on, and then a bracket or the end. -/
theorem readNames_eq_ok_iff {size : Nat} {cs rest : List Char} {names : List String} :
    readNames size cs = .ok (names, rest) ↔
      ∃ name tail, Name.isPlain name = true ∧ skipSpaces cs = name.toList ++ tail ∧ EndsName tail
        ∧ ((∃ inner others, skipSpaces tail = '[' :: inner
            ∧ readNames size inner = .ok (others, rest) ∧ names = name :: others)
          ∨ (skipSpaces tail = rest ∧ rest.head? ≠ some '[' ∧ names = [name])) := by
  constructor
  · intro h
    rw [readNames] at h
    split at h
    · cases h
    next first more hskip =>
    split at h
    · next hfirst =>
      obtain ⟨hmore, hword, hends⟩ := (takeWhile_dropWhile_iff more).mp ⟨rfl, rfl⟩
      refine ⟨_, more.dropWhile Name.isPlainChar,
        Name.isPlain_iff.mpr ⟨first, _, String.toList_ofList, hfirst, hword⟩, ?_, hends, ?_⟩
      · rw [hskip, String.toList_ofList, List.cons_append, ← hmore]
      · split at h
        · next inner htail =>
          refine .inl ⟨inner, ?_⟩
          split at h
          · next others final hothers =>
            cases h
            exact ⟨others, htail, hothers, rfl⟩
          · cases h
        · next hnot =>
          cases h
          refine .inr ⟨rfl, fun hhead => ?_, rfl⟩
          obtain ⟨inner, hinner⟩ := List.head?_eq_some_iff.mp hhead
          exact hnot inner hinner
    · cases h
  · rintro ⟨name, tail, hname, hskip, hends, hcases⟩
    obtain ⟨first, taken, hchars, hfirst, hword⟩ := Name.isPlain_iff.mp hname
    rw [hchars, List.cons_append] at hskip
    obtain ⟨htaken, htail⟩ := (takeWhile_dropWhile_iff _).mpr ⟨rfl, hword, hends⟩
    rw [readNames]
    split
    · next hnil =>
      rw [hnil] at hskip
      cases hskip
    next first' more hskip' =>
    obtain ⟨rfl, rfl⟩ := List.cons.inj (hskip'.symm.trans hskip)
    rw [if_pos hfirst, htaken, ← hchars, String.ofList_toList]
    split
    · next inner hinner =>
      rw [htail] at hinner
      rcases hcases with ⟨inner', others, hinner', hothers, rfl⟩ | ⟨rfl, hhead, -⟩
      · obtain rfl := (List.cons.inj (hinner.symm.trans hinner')).2
        rw [hothers]
      · rw [hinner] at hhead
        exact absurd rfl hhead
    · next hnot =>
      rw [htail] at hnot
      rcases hcases with ⟨inner, others, hinner, -, -⟩ | ⟨rfl, -, rfl⟩
      · exact absurd hinner (hnot inner)
      · rw [htail]

/-! ## Terms of every depth -/

/-- The names of a term with the brackets that open between them. -/
def openingTokens : List String → List Token
  | [] => []
  | [name] => [.word name]
  | name :: rest => .word name :: .opening :: openingTokens rest

/-- The tokens that close `count` brackets. -/
def closingTokens (count : Nat) : List Token := List.replicate count .closing

def names (t : Term) : List String := t.head :: t.arguments

def tokens (t : Term) : List Token :=
  openingTokens t.names ++ closingTokens t.arguments.length

theorem isSolid_of_mem_closingTokens {count : Nat} :
    ∀ token ∈ closingTokens count, token.IsSolid := by
  intro token htoken
  rw [List.eq_of_mem_replicate htoken]
  exact Token.isSolid_closing

/-- Whatever is no name ends the name before it. -/
theorem Spaced.endsName {tokens : List Token} {cs : List Char} (h : Spaced tokens cs)
    (hhead : ∀ name, tokens.head? ≠ some (.word name)) : EndsName cs := by
  have hspace : Name.isPlainChar ' ' = false := rfl
  cases h with
  | nil n => cases n <;> simp [EndsName, List.replicate_succ, hspace]
  | cons n token hrest =>
    cases n with
    | succ n => simp [EndsName, List.replicate_succ, hspace]
    | zero =>
      cases token with
      | word name => exact absurd rfl (hhead name)
      | opening => simp [EndsName, Token.chars, show Name.isPlainChar '[' = false from rfl]
      | closing => simp [EndsName, Token.chars, show Name.isPlainChar ']' = false from rfl]

theorem head?_skipSpaces_of_closing {count : Nat} {cs : List Char}
    (h : Spaced (closingTokens count) cs) : (skipSpaces cs).head? ≠ some '[' := by
  cases count with
  | zero => simp [spaced_nil_iff.mp h]
  | succ count =>
    obtain ⟨tail, htail, -⟩ := (spaced_cons_iff Token.isSolid_closing).mp h
    simp [htail, Token.chars]

theorem ne_nil_of_readNames {size : Nat} {cs rest : List Char} {names : List String}
    (h : readNames size cs = .ok (names, rest)) : names ≠ [] := by
  obtain ⟨name, tail, -, -, -, ⟨-, others, -, -, rfl⟩ | ⟨-, -, rfl⟩⟩ := readNames_eq_ok_iff.mp h
  · exact List.cons_ne_nil _ _
  · exact List.cons_ne_nil _ _

/-- A single name is read up to the brackets that close. -/
theorem exists_readName_iff {size count : Nat} {cs : List Char} {name : String} :
    (∃ rest, readNames size cs = .ok ([name], rest) ∧ Spaced (closingTokens count) rest) ↔
      Name.isPlain name = true ∧ Spaced (.word name :: closingTokens count) cs := by
  constructor
  · rintro ⟨rest, hread, hrest⟩
    obtain ⟨_, tail, hname, hskip, -, ⟨_, _, _, hothers, heq⟩ | ⟨rfl, -, heq⟩⟩ :=
      readNames_eq_ok_iff.mp hread
    · exact absurd (List.cons.inj heq).2.symm (ne_nil_of_readNames hothers)
    · cases heq
      exact ⟨hname, (spaced_cons_iff (Token.isSolid_word hname)).mpr
        ⟨tail, hskip, (spaced_skipSpaces_iff isSolid_of_mem_closingTokens).mp hrest⟩⟩
  · rintro ⟨hname, hspaced⟩
    obtain ⟨tail, hskip, htail⟩ := (spaced_cons_iff (Token.isSolid_word hname)).mp hspaced
    have hends : EndsName tail :=
      htail.endsName (by cases count <;> simp [closingTokens, List.replicate_succ])
    refine ⟨skipSpaces tail, readNames_eq_ok_iff.mpr ⟨name, tail, hname, hskip, hends,
      .inr ⟨rfl, head?_skipSpaces_of_closing htail, rfl⟩⟩, ?_⟩
    exact (spaced_skipSpaces_iff isSolid_of_mem_closingTokens).mpr htail

/-- **The names of a term are read with the brackets that open**, if only closing ones follow. -/
theorem exists_readNames_iff {size count : Nat} {cs : List Char} {names : List String} :
    (∃ rest, readNames size cs = .ok (names, rest) ∧ Spaced (closingTokens count) rest) ↔
      names ≠ [] ∧ (∀ name ∈ names, Name.isPlain name = true)
        ∧ Spaced (openingTokens names ++ closingTokens count) cs := by
  induction names generalizing cs with
  | nil =>
    constructor
    · rintro ⟨rest, hread, -⟩
      exact absurd rfl (ne_nil_of_readNames hread)
    · rintro ⟨hne, -⟩
      exact absurd rfl hne
  | cons name others ih =>
    cases others with
    | nil =>
      rw [exists_readName_iff]
      simp [openingTokens]
    | cons other more =>
      constructor
      · rintro ⟨rest, hread, hrest⟩
        obtain ⟨_, tail, hname, hskip, -, ⟨inner, _, htail, hothers, heq⟩ | ⟨-, -, heq⟩⟩ :=
          readNames_eq_ok_iff.mp hread
        · cases heq
          obtain ⟨-, hplain, hspaced⟩ := ih.mp ⟨rest, hothers, hrest⟩
          refine ⟨List.cons_ne_nil _ _, List.forall_mem_cons.mpr ⟨hname, hplain⟩, ?_⟩
          refine (spaced_cons_iff (Token.isSolid_word hname)).mpr ⟨tail, hskip, ?_⟩
          exact (spaced_cons_iff Token.isSolid_opening).mpr ⟨inner, htail, hspaced⟩
        · cases heq
      · rintro ⟨-, hplain, hspaced⟩
        obtain ⟨hname, hothers⟩ := List.forall_mem_cons.mp hplain
        obtain ⟨tail, hskip, htail⟩ := (spaced_cons_iff (Token.isSolid_word hname)).mp hspaced
        obtain ⟨inner, hinner, hspaced⟩ := (spaced_cons_iff Token.isSolid_opening).mp htail
        obtain ⟨rest, hread, hrest⟩ := ih.mpr ⟨List.cons_ne_nil _ _, hothers, hspaced⟩
        exact ⟨rest, readNames_eq_ok_iff.mpr ⟨name, tail, hname, hskip,
          htail.endsName (by simp), .inl ⟨inner, _, hinner, hread, rfl⟩⟩, hrest⟩

/-- The brackets that close are read one by one. -/
theorem exists_readCloses_iff (size : Nat) {count : Nat} {cs : List Char} :
    (∃ rest, readCloses size count cs = .ok rest ∧ skipSpaces rest = []) ↔
      Spaced (closingTokens count) cs := by
  induction count generalizing cs with
  | zero => simp [readCloses, closingTokens, spaced_nil_iff]
  | succ count ih =>
    rw [show closingTokens (count + 1) = .closing :: closingTokens count from rfl,
      spaced_cons_iff Token.isSolid_closing, readCloses]
    split
    · next tail htail =>
      rw [ih, htail]
      simp [Token.chars]
    · next hnot =>
      constructor
      · rintro ⟨rest, hread, -⟩
        cases hread
      · rintro ⟨tail, htail, -⟩
        exact absurd htail (hnot tail)

/-- **Reading accepts the nested terms**, whatever their depth is, and nothing else. -/
theorem parse_eq_ok_iff {s : String} {t : Term} :
    parse s = .ok t ↔ (∀ name ∈ t.names, Name.isPlain name = true) ∧ Spaced t.tokens s.toList := by
  have hread := @exists_readNames_iff s.toList.length t.arguments.length s.toList t.names
  rw [and_iff_right (show t.names ≠ [] from List.cons_ne_nil _ _)] at hread
  rw [tokens, ← hread, parse, bind_eq_ok_iff]
  constructor
  · rintro ⟨⟨names, rest⟩, hnames, hcloses⟩
    obtain ⟨final, hfinal, h⟩ := bind_eq_ok_iff.mp hcloses
    split at h
    · next head arguments hskip =>
      cases h
      exact ⟨rest, hnames, (exists_readCloses_iff _).mp ⟨final, hfinal, hskip⟩⟩
    · cases h
    · cases h
  · rintro ⟨rest, hnames, hrest⟩
    obtain ⟨final, hfinal, hskip⟩ := (exists_readCloses_iff s.toList.length).mpr hrest
    refine ⟨_, hnames, bind_eq_ok_iff.mpr ⟨final, hfinal, ?_⟩⟩
    rw [hskip]
    rfl

end Term

/-! ## Terms that are types -/

theorem Primitive.ofName?_eq_some_iff {name : String} {kind : Primitive} :
    ofName? name = some kind ↔ kind.name = name := by
  constructor
  · intro h
    simpa using List.find?_some h
  · rintro rfl
    exact ofName?_name kind

theorem Primitive.ofName?_eq_none_iff {name : String} :
    ofName? name = none ↔ ∀ kind : Primitive, kind.name ≠ name := by
  simp only [Option.eq_none_iff_forall_ne_some, ne_eq, ofName?_eq_some_iff]

namespace Atom

/-- An item has no name that the syntax takes for itself. -/
theorem Proper.text_ne {item : Atom} (h : item.Proper) :
    item.text ≠ "List" ∧ item.text ≠ "Optional" := by
  cases item with
  | primitive kind => cases kind <;> decide
  | named name => exact ⟨h.2.1, h.2.2.1⟩

theorem Proper.isPlain_text {item : Atom} (h : item.Proper) : Name.isPlain item.text = true := by
  cases item with
  | primitive kind => cases kind <;> decide
  | named name => exact h.1

theorem Proper.ofName?_eq_none {item : Atom} (h : item.Proper) {name : String}
    (hname : item = .named name) : Primitive.ofName? name = none := by
  subst hname
  exact Primitive.ofName?_eq_none_iff.mpr h.2.2.2

/-- A term is an item iff it is a single name, and then the item with that name. -/
theorem ofTerm_eq_ok_iff {head : String} (hplain : Name.isPlain head = true)
    {arguments : List String} {item : Atom} :
    ofTerm head arguments = .ok item ↔ item.Proper ∧ head :: arguments = [item.text] := by
  have hfound : ∀ found : Atom, found.Proper → found.text = head → arguments = [] →
      ((.ok found : Except FieldTypeError Atom) = .ok item ↔
        item.Proper ∧ head :: arguments = [item.text]) := by
    rintro found hproper rfl rfl
    constructor
    · rintro ⟨⟩
      exact ⟨hproper, rfl⟩
    · rintro ⟨hitem, htext⟩
      rw [eq_of_text_eq (fun _ => hproper.ofName?_eq_none) (fun _ => hitem.ofName?_eq_none)
        (List.cons.inj htext).1]
  unfold ofTerm
  split
  · next harguments =>
    constructor
    · nofun
    · rintro ⟨-, htext⟩
      exact absurd (List.cons.inj htext).2 harguments
  next harguments =>
  split
  · next htaken =>
    constructor
    · nofun
    · rintro ⟨hproper, htext⟩
      rw [(List.cons.inj htext).1] at htaken
      exact absurd htaken (not_or.mpr hproper.text_ne)
  next hfree =>
  obtain ⟨hlist, hoptional⟩ := not_or.mp hfree
  split
  · next kind hkind =>
    exact hfound _ trivial (Primitive.ofName?_eq_some_iff.mp hkind) (not_not.mp harguments)
  · next hnone =>
    exact hfound _ ⟨hplain, hlist, hoptional, Primitive.ofName?_eq_none_iff.mp hnone⟩ rfl
      (not_not.mp harguments)

end Atom

namespace FieldType

/-- The names of the term that a type is written as. -/
def heads (a : FieldType Atom) : List String :=
  (if a.isOptional then ["Optional"] else []) ++ (if a.isList then ["List"] else [])
    ++ [a.item.text]

theorem itemsOfTerm_eq_ok_iff {arguments : List String}
    (hplain : ∀ name ∈ arguments, Name.isPlain name = true) {item : Atom} :
    itemsOfTerm arguments = .ok item ↔ item.Proper ∧ arguments = [item.text] := by
  cases arguments with
  | nil => simp [itemsOfTerm]
  | cons head rest => exact Atom.ofTerm_eq_ok_iff (hplain head List.mem_cons_self)

/-- A term that is not optional begins with `List`, or it is an item. -/
theorem requiredOfTerm_eq_ok_iff {head : String} {arguments : List String}
    (hplain : ∀ name ∈ head :: arguments, Name.isPlain name = true) {a : FieldType Atom} :
    requiredOfTerm head arguments = .ok a ↔
      a.isOptional = false ∧ a.item.Proper ∧ head :: arguments = a.heads := by
  obtain ⟨hhead, harguments⟩ := List.forall_mem_cons.mp hplain
  obtain ⟨isOptional, isList, item⟩ := a
  unfold requiredOfTerm
  split
  · next hlist =>
    subst hlist
    rw [map_eq_ok_iff]
    simp only [itemsOfTerm_eq_ok_iff harguments, heads]
    constructor
    · rintro ⟨_, ⟨hproper, rfl⟩, ⟨⟩⟩
      exact ⟨rfl, hproper, rfl⟩
    · rintro ⟨rfl, hproper, heq⟩
      cases isList with
      | false => exact absurd (List.cons.inj heq).1.symm hproper.text_ne.1
      | true => exact ⟨item, ⟨hproper, (List.cons.inj heq).2⟩, rfl⟩
  · next hlist =>
    rw [map_eq_ok_iff]
    simp only [Atom.ofTerm_eq_ok_iff hhead, heads]
    constructor
    · rintro ⟨_, ⟨hproper, heq⟩, ⟨⟩⟩
      exact ⟨rfl, hproper, heq⟩
    · rintro ⟨rfl, hproper, heq⟩
      cases isList with
      | false => exact ⟨item, ⟨hproper, heq⟩, rfl⟩
      | true => exact absurd (List.cons.inj heq).1 hlist

/-- Only an optional type begins with `Optional`. -/
theorem isOptional_of_heads {a : FieldType Atom} (h : a.item.Proper) {rest : List String}
    (heads_eq : "Optional" :: rest = a.heads) : a.isOptional = true := by
  obtain ⟨isOptional, isList, item⟩ := a
  cases isOptional with
  | true => rfl
  | false =>
    cases isList with
    | true => exact absurd (List.cons.inj heads_eq).1 (by decide)
    | false => exact absurd (List.cons.inj heads_eq).1.symm h.text_ne.2

theorem ofTerm_eq_ok_iff {t : Term} (hplain : ∀ name ∈ t.names, Name.isPlain name = true)
    {a : FieldType Atom} : ofTerm t = .ok a ↔ a.item.Proper ∧ t.names = a.heads := by
  obtain ⟨head, arguments⟩ := t
  have harguments := (List.forall_mem_cons.mp hplain).2
  unfold ofTerm
  split
  · next hoptional =>
    obtain rfl : head = "Optional" := hoptional
    dsimp only
    split
    · next heq =>
      constructor
      · nofun
      · rintro ⟨hproper, hheads⟩
        have hmark := isOptional_of_heads hproper hheads
        rw [heads, hmark] at hheads
        simp [Term.names] at hheads
    · next first rest =>
      rw [map_eq_ok_iff]
      simp only [requiredOfTerm_eq_ok_iff harguments]
      constructor
      · rintro ⟨required, ⟨hmark, hproper, hheads⟩, rfl⟩
        refine ⟨hproper, ?_⟩
        rw [heads, hmark] at hheads
        rw [Term.names, hheads]
        rfl
      · rintro ⟨hproper, hheads⟩
        have hmark := isOptional_of_heads hproper hheads
        refine ⟨a.required, ⟨rfl, hproper, ?_⟩, ?_⟩
        · rw [heads, hmark] at hheads
          exact (List.cons.inj hheads).2
        · rw [← hmark]
          rfl
  · next hoptional =>
    rw [requiredOfTerm_eq_ok_iff hplain]
    constructor
    · rintro ⟨-, hrest⟩
      exact hrest
    · rintro ⟨hproper, hheads⟩
      refine ⟨?_, hproper, hheads⟩
      by_contra hmark
      rw [heads, Bool.eq_true_of_not_eq_false hmark] at hheads
      exact hoptional (List.cons.inj hheads).1

/-! ## Texts of types -/

theorem tokens_eq (a : FieldType Atom) {t : Term} (h : t.names = a.heads) :
    t.tokens = a.tokens := by
  have hlength : t.arguments.length = a.heads.length - 1 := by
    rw [← h]
    rfl
  rw [Term.tokens, hlength, h]
  obtain ⟨isOptional, isList, item⟩ := a
  cases isOptional <;> cases isList <;> rfl

theorem isPlain_of_mem_heads {a : FieldType Atom} (h : Name.isPlain a.item.text = true) :
    ∀ name ∈ a.heads, Name.isPlain name = true := by
  unfold heads
  simp only [List.forall_mem_append, List.forall_mem_singleton]
  refine ⟨⟨?_, ?_⟩, h⟩
  · split <;> simp [show Name.isPlain "Optional" = true by decide]
  · split <;> simp [show Name.isPlain "List" = true by decide]

/-- The tokens of a type make up a text of plain names iff the text is read as a term with these
names. -/
theorem exists_term_iff {a : FieldType Atom} {s : String} :
    (∃ t : Term, Term.parse s = .ok t ∧ t.names = a.heads) ↔
      Name.isPlain a.item.text = true ∧ Term.Spaced a.tokens s.toList := by
  constructor
  · rintro ⟨t, hterm, hnames⟩
    obtain ⟨hplain, hspaced⟩ := Term.parse_eq_ok_iff.mp hterm
    refine ⟨hplain _ ?_, tokens_eq a hnames ▸ hspaced⟩
    rw [hnames]
    exact List.mem_append_right _ List.mem_cons_self
  · rintro ⟨hplain, hspaced⟩
    obtain ⟨head, arguments, hheads⟩ :=
      List.exists_cons_of_ne_nil (show a.heads ≠ [] by simp [heads])
    have hnames : (Term.mk head arguments).names = a.heads := hheads.symm
    refine ⟨⟨head, arguments⟩, Term.parse_eq_ok_iff.mpr ⟨?_, ?_⟩, hnames⟩
    · exact hnames ▸ isPlain_of_mem_heads hplain
    · rw [tokens_eq a hnames]
      exact hspaced

/-- **Reading a text gives the type that it is written for.** -/
theorem parse_eq_ok_iff {s : String} {a : FieldType Atom} :
    parse s = .ok a ↔ a.WrittenAs s := by
  rw [parse, bind_eq_ok_iff]
  constructor
  · rintro ⟨t, hterm, htype⟩
    obtain ⟨hproper, hnames⟩ := (ofTerm_eq_ok_iff (Term.parse_eq_ok_iff.mp hterm).1).mp htype
    exact ⟨hproper, (exists_term_iff.mp ⟨t, hterm, hnames⟩).2⟩
  · rintro ⟨hproper, hspaced⟩
    obtain ⟨t, hterm, hnames⟩ := exists_term_iff.mpr ⟨hproper.isPlain_text, hspaced⟩
    exact ⟨t, hterm, (ofTerm_eq_ok_iff (Term.parse_eq_ok_iff.mp hterm).1).mpr ⟨hproper, hnames⟩⟩

/-- **Reading decides the grammar.** A text is read as a type iff it is written for that type, with
spaces wherever they may stand, and it is an error iff it is written for none. -/
theorem parse_decides_grammar (s : String) :
    (∀ a, parse s = .ok a ↔ a.WrittenAs s)
      ∧ ((∃ e, parse s = .error e) ↔ ∀ a : FieldType Atom, ¬a.WrittenAs s) := by
  refine ⟨fun a => parse_eq_ok_iff, ?_⟩
  simp only [← parse_eq_ok_iff]
  cases parse s with
  | error e => simp
  | ok a => simp

end FieldType

example : FieldType.parse " Optional [ List[  shape]] " = .ok ⟨true, true, .named "shape"⟩ := by
  decide +kernel

example : FieldType.parse "List[List[int]]" = .error (.tooDeep "List" ["int"]) := by
  decide +kernel

end WireModel
