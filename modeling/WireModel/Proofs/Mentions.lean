import WireModel.Proofs.Numerals
import WireModel.Proofs.Resolution

/-!
# Types that the module of types mentions

The module of types mentions a type in one of three places: behind a colon, behind `extends` or
`implements`, and before the literal that is a default. `Row.typeNames` finds these places in the
text of a row, and a row is `Typed` if the names there are built in or declared.

**`TypesModule.Within.typed`** says this of every row that is generated. It goes by the functions
that write the rows, as its counterpart for the codec module does; what it needs to know of the
names is that they are words, so that marks cut them out of the row again.
-/

namespace WireModel

open Name

namespace TypeScript

/-! ## Names of types that rows mention -/

/-- The code that a row begins with. -/
def Row.leading (r : Row) : List Char :=
  match r.pieces with
  | .code s :: _ => s.toList
  | _ => []

/-- The names between a colon and a default value. -/
def annotatedTypes (cs : List Char) : List String :=
  wordsOf ((cs.dropWhile (· != ':')).takeWhile (· != '='))

/-- The names that a declaration extends or implements. -/
def baseTypes : List String → List String
  | _ :: _ :: _ :: clause :: bases =>
    if clause = "extends" ∨ clause = "implements" then bases else []
  | _ => []

/-- The name that a member is taken from. -/
def ownerOf (cs : List Char) : List String :=
  if cs.head?.any Text.isLetter && cs.contains '.' then [String.ofList (cs.takeWhile (· != '.'))]
  else []

def Piece.owner : Piece → List String
  | .code s => ownerOf s.toList
  | .literal _ | .comment _ => []

/-- The types that a row of the module of types mentions. -/
def Row.typeNames (r : Row) : List String :=
  annotatedTypes r.leading ++ (if r.level = 0 then baseTypes (wordsOf r.leading) else [])
    ++ r.pieces.tail.flatMap Piece.owner

/-- Types that need no declaration; `T` is the type parameter of the transformer. -/
def builtinTypes : List String :=
  ["boolean", "bigint", "number", "string", "Uint8Array", "null", "Array", "T"]

/-- Every type that a row mentions is built in or declared. -/
def Row.Typed (type : String → Prop) (r : Row) : Prop :=
  ∀ name ∈ r.typeNames, name ∈ builtinTypes ∨ type name

/-- A row of the declaration that is handed in for a class. -/
def TypesModule.HandwrittenRow (snippets : Snippets) (m : TypesModule) (r : Row) : Prop :=
  ∃ name text, .handwritten name ∈ m.declarations
    ∧ snippets.require (SnippetKey.declaration name) name = .ok text ∧ r ∈ snippetRows 0 text

/-! ## Words of texts -/

theorem wordsOf_mark {c : Char} (hc : isPlainChar c = false) (cs : List Char) :
    wordsOf (c :: cs) = wordsOf cs :=
  wordsOf_append_mark hc [] cs

/-- Characters that no word is made of. -/
def areMarks (cs : List Char) : Bool := cs.all fun c => !isPlainChar c

theorem areMarks_cons {c : Char} {cs : List Char} :
    areMarks (c :: cs) = true ↔ isPlainChar c = false ∧ areMarks cs = true := by
  rw [areMarks, List.all_cons, Bool.and_eq_true, Bool.not_eq_true', areMarks]

theorem wordsOf_marks {cs : List Char} (h : areMarks cs = true) : wordsOf cs = [] := by
  induction cs with
  | nil => rfl
  | cons c cs ih =>
    have ⟨hc, hcs⟩ := areMarks_cons.mp h
    rw [wordsOf_mark hc]
    exact ih hcs

theorem wordsOf_append_marks {ending : List Char} (h : areMarks ending = true)
    (cs : List Char) : wordsOf (cs ++ ending) = wordsOf cs := by
  cases ending with
  | nil => rw [List.append_nil]
  | cons c ending =>
    have ⟨hc, hending⟩ := areMarks_cons.mp h
    rw [wordsOf_append_mark hc, wordsOf_marks hending, List.append_nil]

theorem wordsOf_intercalate {names : List String} (h : ∀ name ∈ names, IsWord name) :
    wordsOf (", ".intercalate names).toList = names := by
  induction names with
  | nil => rfl
  | cons name names ih =>
    have hname := wordsOf_word (h name List.mem_cons_self)
    cases names with
    | nil => rwa [String.intercalate_singleton]
    | cons other names =>
      rw [String.intercalate_cons_cons, String.toList_append, String.toList_append,
        List.append_assoc]
      show wordsOf (name.toList ++ ',' :: ' ' :: (", ".intercalate (other :: names)).toList) = _
      rw [wordsOf_append_mark rfl, hname, wordsOf_mark rfl]
      exact congrArg _ (ih fun x hx => h x (List.mem_cons_of_mem name hx))

theorem not_mem_intercalate {c : Char} (hc : isPlainChar c = false) (hseparator : c ∉ [',', ' '])
    {names : List String} (h : ∀ name ∈ names, IsWord name) :
    c ∉ (", ".intercalate names).toList := by
  induction names with
  | nil => exact fun hmem => nomatch hmem
  | cons name names ih =>
    have hname := (h name List.mem_cons_self).not_mem hc
    cases names with
    | nil => rwa [String.intercalate_singleton]
    | cons other names =>
      simp only [String.intercalate_cons_cons, String.toList_append, List.mem_append, not_or]
      exact ⟨⟨hname, hseparator⟩, ih fun x hx => h x (List.mem_cons_of_mem name hx)⟩

/-- The words of a type expression. -/
def TypeExpr.words : TypeExpr → List String
  | .primitive kind => [primitiveType kind]
  | .named name => [name]
  | .array item => "Array" :: item.words
  | .orNull type => type.words ++ ["null"]

theorem TypeExpr.mem_words {e : TypeExpr} {name : String} (h : name ∈ e.words) :
    name ∈ builtinTypes ∨ name ∈ e.names := by
  induction e with
  | primitive kind =>
    obtain rfl := List.mem_singleton.mp h
    exact .inl (by cases kind <;> decide)
  | named other => exact .inr h
  | array item ih =>
    rcases List.mem_cons.mp h with rfl | h
    · exact .inl (by decide)
    · exact ih h
  | orNull type ih =>
    rcases List.mem_append.mp h with h | h
    · exact ih h
    · obtain rfl := List.mem_singleton.mp h
      exact .inl (by decide)

theorem TypeExpr.wordsOf_text {e : TypeExpr} (h : ∀ name ∈ e.names, IsWord name) :
    wordsOf (e.text "").toList = e.words := by
  induction e with
  | primitive kind => cases kind <;> rfl
  | named name =>
    rw [TypeExpr.text, String.empty_append]
    exact wordsOf_word (h name (List.mem_singleton_self name))
  | array item ih =>
    rw [TypeExpr.text, String.toList_append, wordsOf_append_marks rfl,
      String.toList_append]
    rw [show "Array<".toList = "Array".toList ++ ['<'] from rfl, List.append_assoc,
      List.singleton_append, wordsOf_append_mark rfl, ih h]
    rfl
  | orNull type ih =>
    rw [TypeExpr.text, String.toList_append]
    show wordsOf (_ ++ ' ' :: "| null".toList) = _
    rw [wordsOf_append_mark rfl, ih h]
    rfl

theorem TypeExpr.not_mem_text {e : TypeExpr} (h : ∀ name ∈ e.names, IsWord name) :
    '=' ∉ (e.text "").toList := by
  induction e with
  | primitive kind => cases kind <;> decide
  | named name =>
    rw [TypeExpr.text, String.empty_append]
    exact (h name (List.mem_singleton_self name)).not_mem rfl
  | array item ih =>
    simp only [TypeExpr.text, String.toList_append, List.mem_append, not_or]
    exact ⟨⟨by decide, ih h⟩, by decide⟩
  | orNull type ih =>
    simp only [TypeExpr.text, String.toList_append, List.mem_append, not_or]
    exact ⟨ih h, by decide⟩

/-! ## Rows of the module of types -/

theorem annotatedTypes_of_not_mem {cs : List Char} (h : ':' ∉ cs) : annotatedTypes cs = [] := by
  have hdrop : cs.dropWhile (· != ':') = [] := by
    exact List.dropWhile_eq_nil_iff.mpr fun c hc => bne_iff_ne.mpr (ne_of_mem_of_not_mem hc h)
  rw [annotatedTypes, hdrop]
  rfl

theorem annotatedTypes_append {before : List Char} (h : ':' ∉ before) (rest : List Char) :
    annotatedTypes (before ++ ':' :: rest) = wordsOf (rest.takeWhile (· != '=')) := by
  have hdrop : (before ++ ':' :: rest).dropWhile (· != ':') = ':' :: rest := by
    rw [List.dropWhile_append_of_pos]
    · rfl
    · exact fun c hc => bne_iff_ne.mpr (ne_of_mem_of_not_mem hc h)
  rw [annotatedTypes, hdrop, List.takeWhile_cons_of_pos (by decide), wordsOf_mark rfl]

theorem takeWhile_append_of_not_mem {cs : List Char} (h : '=' ∉ cs) (rest : List Char) :
    (cs ++ rest).takeWhile (· != '=') = cs ++ rest.takeWhile (· != '=') :=
  List.takeWhile_append_of_pos fun _ hc => bne_iff_ne.mpr (ne_of_mem_of_not_mem hc h)

/-- A name with its type, up to marks that end it. -/
theorem annotatedTypes_annotation {name : String} (hname : IsWord name) {e : TypeExpr}
    (he : ∀ n ∈ e.names, IsWord n) {ending : String}
    (hending : areMarks ending.toList = true) :
    annotatedTypes (name ++ ": " ++ e.text "" ++ ending).toList = e.words := by
  have hmarks : areMarks (ending.toList.takeWhile (· != '=')) = true :=
    List.all_eq_true.mpr fun c hc =>
      List.all_eq_true.mp hending c ((List.takeWhile_sublist _).subset hc)
  rw [String.toList_append, String.toList_append, String.toList_append, List.append_assoc,
    List.append_assoc]
  show annotatedTypes (name.toList ++ ':' :: ' ' :: ((e.text "").toList ++ ending.toList)) = _
  rw [annotatedTypes_append (hname.not_mem rfl), List.takeWhile_cons_of_pos (by decide),
    takeWhile_append_of_not_mem (TypeExpr.not_mem_text he), wordsOf_mark rfl,
    wordsOf_append_marks hmarks, TypeExpr.wordsOf_text he]

namespace Row

variable {type : String → Prop}

theorem typed_comment (level : Nat) (text : String) : (Row.comment level text).Typed type := by
  cases level <;> exact fun name hname => nomatch hname

theorem typed_blank : Row.blank.Typed type := fun _ hname => nomatch hname

theorem typeNames_code (level : Nat) (s : String) :
    (Row.code level s).typeNames
      = annotatedTypes s.toList ++ if level = 0 then baseTypes (wordsOf s.toList) else [] :=
  List.append_nil _

/-- Inside a declaration types are mentioned behind a colon only. -/
theorem typed_inner {level : Nat} {s : String} (h : ':' ∉ s.toList) :
    (Row.code (level + 1) s).Typed type := by
  intro name hname
  rw [typeNames_code, annotatedTypes_of_not_mem h] at hname
  cases hname

theorem typed_annotation {level : Nat} {name : String} (hname : IsWord name) {e : TypeExpr}
    (he : ∀ n ∈ e.names, IsWord n ∧ type n) {ending : String}
    (hending : areMarks ending.toList = true) :
    (Row.code (level + 1) (name ++ ": " ++ e.text "" ++ ending)).Typed type := by
  intro x hx
  rw [typeNames_code, annotatedTypes_annotation hname (fun n hn => (he n hn).1) hending,
    if_neg (Nat.succ_ne_zero level), List.append_nil] at hx
  exact (TypeExpr.mem_words hx).imp_right fun hn => (he x hn).2

/-- A fixed row with types that are declared. -/
theorem typed_known {level : Nat} {s : String} (names : List String)
    (h : (Row.code level s).typeNames = names)
    (hnames : ∀ name ∈ names, name ∈ builtinTypes ∨ type name) :
    (Row.code level s).Typed type := by
  rw [Typed, h]
  exact hnames

end Row

/-- The type that a default is taken from. -/
theorem Value.Within.owner {scope : Scope} {v : Value} (hv : v.Within scope) :
    ∀ name ∈ v.piece.owner, scope.type name := by
  have hnumber : ∀ (x : Binary64) (ending : List Char), '.' ∉ ending →
      ownerOf (x.text.toList ++ ending) = [] := by
    intro x ending hending
    refine if_neg fun h => ?_
    obtain ⟨hhead, hpoint⟩ := Bool.and_eq_true_iff.mp h
    have hmem := List.mem_append.mp (List.contains_iff_mem.mp hpoint)
    have htext := hmem.resolve_right hending
    cases hx : x.text.toList with
    | nil => simp [hx] at htext
    | cons c cs =>
      refine Binary64.isLetter_head_text (x := x) ?_ htext
      rw [hx] at hhead ⊢
      exact hhead
  cases v with
  | null => exact fun name hname => nomatch hname
  | bool b => cases b <;> exact fun name hname => nomatch hname
  | number x =>
    rw [Value.piece, Piece.owner, ← List.append_nil x.text.toList, hnumber x [] (by simp)]
    exact fun name hname => nomatch hname
  | bigint x =>
    rw [Value.piece, Piece.owner, String.toList_append, hnumber x _ (by decide)]
    exact fun name hname => nomatch hname
  | text value => exact fun name hname => nomatch hname
  | literal enumeration l =>
    intro name hname
    have hword := scope.word_of_type hv.1
    rw [Value.piece, Piece.owner, ownerOf] at hname
    split at hname
    · have htake : (enumeration ++ "." ++ l).toList.takeWhile (· != '.')
          = enumeration.toList := by
        rw [String.toList_append, String.toList_append, List.append_assoc,
          List.takeWhile_append_of_pos fun c hc =>
            bne_iff_ne.mpr (ne_of_mem_of_not_mem hc (hword.not_mem rfl))]
        exact List.append_nil _
      rw [htake, String.ofList_toList, List.mem_singleton] at hname
      exact hname ▸ hv.1
    · cases hname

section TypesModule

variable {scope : Scope} {type : String → Prop} (htype : ∀ {name}, scope.type name → type name)

include htype

omit htype in
theorem LiteralDeclaration.typed_rows {l : LiteralDeclaration} (hl : IsWord l.name) :
    ∀ r ∈ l.rows, r.Typed type := by
  have hcolon : ':' ∉ (l.name ++ ",").toList := by
    rw [String.toList_append, List.mem_append, not_or]
    exact ⟨hl.not_mem rfl, by decide⟩
  refine List.forall_mem_append.mpr ⟨?_, List.forall_mem_singleton.mpr (Row.typed_inner hcolon)⟩
  exact List.forall_mem_map.mpr fun text _ => Row.typed_comment 1 text

theorem FieldDeclaration.Within.typed_rows {f : FieldDeclaration} (hf : f.Within scope) :
    ∀ r ∈ f.rows, r.Typed type := by
  refine List.forall_mem_append.mpr ⟨?_, List.forall_mem_singleton.mpr ?_⟩
  · exact List.forall_mem_map.mpr fun text _ => Row.typed_comment 1 text
  · exact Row.typed_annotation hf.name
      (fun n hn => ⟨scope.word_of_type (hf.type n hn), htype (hf.type n hn)⟩) rfl

namespace ParameterDeclaration.Within

variable {p : ParameterDeclaration} (hp : p.Within scope)

include hp

theorem typed_row {ending : String} (hending : areMarks ending.toList = true)
    (howner : ownerOf ending.toList = []) : (p.row ending).Typed type := by
  have he : ∀ n ∈ p.type.names, IsWord n ∧ type n :=
    fun n hn => ⟨scope.word_of_type (hp.type n hn), htype (hp.type n hn)⟩
  unfold ParameterDeclaration.row
  split
  · next value hvalue =>
    intro name hname
    have hhead : (Row.code 2 (p.name ++ ": " ++ p.type.text "" ++ " = ")).Typed type :=
      Row.typed_annotation hp.name he rfl
    simp only [Row.typeNames, Row.leading, List.tail_cons, List.flatMap_cons, List.flatMap_nil,
      Piece.owner, howner, List.append_nil, List.mem_append] at hname
    rcases hname with hname | hname
    · exact hhead name (by rw [Row.typeNames_code]; simpa using hname)
    · exact .inr (htype ((hp.initializer value hvalue).owner name hname))
  · exact Row.typed_annotation hp.name he hending

theorem typed_assignment : p.assignment.Typed type := by
  have hcolon : ∀ ending : String, ':' ∉ ending.toList →
      ':' ∉ ("this." ++ p.field ++ " = " ++ p.name ++ ending).toList := by
    intro ending hending
    simp only [String.toList_append, List.mem_append, not_or]
    exact ⟨⟨⟨⟨by decide, hp.field.not_mem rfl⟩, by decide⟩, hp.name.not_mem rfl⟩, hending⟩
  unfold ParameterDeclaration.assignment
  split
  · next value hvalue =>
    intro name hname
    have hsemicolon : ownerOf ";".toList = [] := rfl
    simp only [Row.typeNames, Row.leading, List.tail_cons, List.flatMap_cons, List.flatMap_nil,
      Piece.owner, hsemicolon, annotatedTypes_of_not_mem (hcolon " ?? " (by decide)),
      List.append_nil, List.nil_append, List.mem_append] at hname
    rcases hname with hname | hname
    · simp at hname
    · exact .inr (htype ((hp.fallback value hvalue).owner name hname))
  · exact Row.typed_inner (hcolon ";" (by decide))

end ParameterDeclaration.Within

theorem ParameterDeclaration.typed_rows {parameters : List ParameterDeclaration}
    (h : ∀ p ∈ parameters, p.Within scope) :
    ∀ r ∈ ParameterDeclaration.rows parameters, r.Typed type := by
  fun_induction ParameterDeclaration.rows parameters with
  | case1 => exact fun r hr => nomatch hr
  | case2 p =>
    refine List.forall_mem_singleton.mpr ?_
    exact (h p List.mem_cons_self).typed_row htype rfl rfl
  | case3 p rest _ ih =>
    refine List.forall_mem_cons.mpr ⟨?_, ih fun q hq => h q (List.mem_cons_of_mem p hq)⟩
    exact (h p List.mem_cons_self).typed_row htype rfl rfl

theorem typed_constructorRows {parameters : List ParameterDeclaration}
    (h : ∀ p ∈ parameters, p.Within scope) : ∀ r ∈ constructorRows parameters, r.Typed type := by
  have hfixed : ∀ {s : String}, ':' ∉ s.toList → ∀ r ∈ [Row.code 1 s], r.Typed type :=
    fun hs => List.forall_mem_singleton.mpr (Row.typed_inner hs)
  unfold constructorRows
  split
  · exact fun r hr => nomatch hr
  · refine List.forall_mem_append.mpr ⟨List.forall_mem_append.mpr ⟨List.forall_mem_append.mpr
      ⟨List.forall_mem_append.mpr ⟨hfixed (by decide), ?_⟩, hfixed (by decide)⟩, ?_⟩,
      hfixed (by decide)⟩
    · exact ParameterDeclaration.typed_rows htype h
    · exact List.forall_mem_map.mpr fun p hp => (h p hp).typed_assignment htype

omit htype in
theorem typed_visitRows {method : String} (hmethod : IsWord method)
    (htransformer : type "AbstractTransformer") : ∀ r ∈ visitRows method, r.Typed type := by
  have hcolon : ':' ∉ ("return transformer." ++ method ++ "(this);").toList := by
    simp only [String.toList_append, List.mem_append, not_or]
    exact ⟨⟨by decide, hmethod.not_mem rfl⟩, by decide⟩
  refine List.forall_mem_cons.mpr ⟨Row.typed_known ["AbstractTransformer", "T", "T"] (by decide) ?_,
    List.forall_mem_cons.mpr ⟨Row.typed_inner hcolon,
      List.forall_mem_singleton.mpr (Row.typed_inner (by decide))⟩⟩
  simp [htransformer, builtinTypes]

/-! ### Declarations -/

omit htype in
theorem wordsOf_named {pre : List Char} (hpre : Token.endsApart pre = true) {name : String}
    (hname : IsWord name) :
    wordsOf (String.ofList pre ++ name).toList = wordsOf pre ++ [name] := by
  rw [String.toList_append, wordsOf_text hpre, wordsOf_word hname]

omit htype in
theorem wordsOf_clause {pre mid : List Char} (hpre : Token.endsApart pre = true)
    (hmid : Token.endsApart mid = true) {name : String} (hname : IsWord name)
    {bases : List String} (hbases : ∀ base ∈ bases, IsWord base) :
    wordsOf (String.ofList pre ++ name ++ String.ofList (' ' :: mid)
      ++ ", ".intercalate bases).toList = wordsOf pre ++ name :: (wordsOf mid ++ bases) := by
  have htail := wordsOf_text hmid (", ".intercalate bases).toList
  rw [String.toList_ofList, wordsOf_intercalate hbases] at htail
  rw [String.toList_append, String.toList_append, String.toList_append, List.append_assoc,
    List.append_assoc, wordsOf_text hpre, wordsOf_word_mark hname rfl, htail]

omit htype in
theorem typed_bracedRows {head : String} {members : Block} (hcolon : ':' ∉ head.toList)
    (hbases : ∀ name ∈ baseTypes (wordsOf head.toList), type name)
    (hmembers : ∀ r ∈ members, r.Typed type) : ∀ r ∈ bracedRows head members, r.Typed type := by
  have hhead : ∀ ending : String, ':' ∉ ending.toList →
      areMarks ending.toList = true → (Row.code 0 (head ++ ending)).Typed type := by
    intro ending hending hmarks name hname
    have hnone : ':' ∉ (head ++ ending).toList := by
      rw [String.toList_append, List.mem_append, not_or]
      exact ⟨hcolon, hending⟩
    rw [Row.typeNames_code, annotatedTypes_of_not_mem hnone, String.toList_append,
      wordsOf_append_marks hmarks] at hname
    exact .inr (hbases name hname)
  unfold bracedRows
  split
  · exact List.forall_mem_singleton.mpr (hhead _ (by decide) rfl)
  · refine List.forall_mem_cons.mpr ⟨hhead _ (by decide) rfl, ?_⟩
    refine List.forall_mem_append.mpr ⟨hmembers, List.forall_mem_singleton.mpr ?_⟩
    exact Row.typed_known [] (by decide) fun name hname => nomatch hname

theorem Declaration.Within.typed_emit {d : Declaration} (hd : d.Within scope)
    (htransformer : type "AbstractTransformer") (snippets : Snippets) :
    ∀ r ∈ (d.emit snippets).1, r.Typed type
      ∨ ∃ name text, d = .handwritten name
        ∧ snippets.require (SnippetKey.declaration name) name = .ok text
        ∧ r ∈ snippetRows 0 text := by
  have hdoc : ∀ doc : Doc, ∀ r ∈ docRows 0 doc, r.Typed type :=
    fun doc => List.forall_mem_map.mpr fun text _ => Row.typed_comment 0 text
  have hfields : ∀ {fields : List FieldDeclaration}, (∀ f ∈ fields, f.Within scope) →
      ∀ r ∈ fields.flatMap FieldDeclaration.rows, r.Typed type := by
    intro fields hfields r hr
    obtain ⟨f, hf, hr⟩ := List.mem_flatMap.mp hr
    exact (hfields f hf).typed_rows htype r hr
  have hbase : ∀ {bases : List String}, (∀ base ∈ bases, scope.type base) →
      ':' ∉ (", ".intercalate bases).toList :=
    fun hbases => not_mem_intercalate rfl (by decide) fun base h =>
      scope.word_of_type (hbases base h)
  cases hd with
  | enumeration hname hliterals =>
    refine fun r hr => .inl (List.forall_mem_append.mpr ⟨hdoc _, ?_⟩ r hr)
    have hword := scope.word_of_type hname
    refine typed_bracedRows ?_ ?_ ?_
    · rw [String.toList_append, List.mem_append, not_or]
      exact ⟨by decide, hword.not_mem rfl⟩
    · rw [wordsOf_named rfl hword]
      exact fun name hname => nomatch hname
    · intro r hr
      obtain ⟨l, hl, hr⟩ := List.mem_flatMap.mp hr
      exact LiteralDeclaration.typed_rows (hliterals l hl) r hr
  | @interface doc name bases fields hname hbases hwithin =>
    refine fun r hr => .inl (List.forall_mem_append.mpr ⟨hdoc _, ?_⟩ r hr)
    have hword := scope.word_of_type hname
    refine typed_bracedRows ?_ ?_ (hfields hwithin)
    · simp only [String.toList_append, List.mem_append, not_or]
      exact ⟨⟨⟨by decide, hword.not_mem rfl⟩, by decide⟩, hbase hbases⟩
    · rw [wordsOf_clause rfl rfl hword fun base hbase => scope.word_of_type (hbases base hbase)]
      exact fun base hbase => htype (hbases base hbase)
  | @classType doc name bases fields parameters visit hname hbases hwithin hparameters hvisit =>
    refine fun r hr => .inl (List.forall_mem_append.mpr ⟨hdoc _, ?_⟩ r hr)
    have hword := scope.word_of_type hname
    refine typed_bracedRows ?_ ?_ ?_
    · simp only [String.toList_append, List.mem_append, not_or]
      exact ⟨⟨⟨by decide, hword.not_mem rfl⟩, by decide⟩, hbase hbases⟩
    · rw [wordsOf_clause rfl rfl hword fun base hbase => scope.word_of_type (hbases base hbase)]
      exact fun base hbase => htype (hbases base hbase)
    · refine forall_mem_joinBlocks Row.typed_blank ?_
      refine List.forall_mem_cons.mpr ⟨hfields hwithin, List.forall_mem_cons.mpr ⟨?_, ?_⟩⟩
      · exact typed_constructorRows htype hparameters
      · exact List.forall_mem_singleton.mpr (typed_visitRows hvisit htransformer)
  | handwritten name =>
    intro r hr
    simp only [Declaration.emit] at hr
    split at hr
    · next text htext =>
      split at hr
      · cases hr
      · exact .inr ⟨name, text, rfl, htext, hr⟩
    · cases hr

omit htype in
theorem typed_rootRows (htransformer : type "AbstractTransformer") :
    ∀ r ∈ rootRows, r.Typed type := by
  have hdispatch :
      (Row.code 1 "transform<T>(transformer: AbstractTransformer<T>): T;").Typed type := by
    refine Row.typed_known ["AbstractTransformer", "T", "T"] (by decide) ?_
    simp [htransformer, builtinTypes]
  refine List.forall_mem_append.mpr ⟨List.forall_mem_append.mpr ⟨List.forall_mem_append.mpr
    ⟨?_, ?_⟩, ?_⟩, List.forall_mem_cons.mpr ⟨hdispatch, List.forall_mem_singleton.mpr ?_⟩⟩
  · exact List.forall_mem_map.mpr fun text _ => Row.typed_comment 0 text
  · exact List.forall_mem_singleton.mpr (Row.typed_known [] (by decide) fun _ h => nomatch h)
  · exact List.forall_mem_map.mpr fun text _ => Row.typed_comment 1 text
  · exact Row.typed_known [] (by decide) fun _ h => nomatch h

omit htype in
theorem typed_visit {v : VisitDeclaration} (hmethod : IsWord v.method) (hword : IsWord v.type)
    (hvisited : type v.type) :
    (Row.code 1 ("abstract " ++ v.method ++ "(that: " ++ v.type ++ "): T;")).Typed type := by
  have hcolon : ':' ∉ ("abstract " ++ v.method ++ "(that").toList := by
    simp only [String.toList_append, List.mem_append, not_or]
    exact ⟨⟨by decide, hmethod.not_mem rfl⟩, by decide⟩
  have hequals : '=' ∉ v.type.toList ++ "): T;".toList := by
    rw [List.mem_append, not_or]
    exact ⟨hword.not_mem rfl, by decide⟩
  have hsplit : ("abstract " ++ v.method ++ "(that: " ++ v.type ++ "): T;").toList
      = ("abstract " ++ v.method ++ "(that").toList
        ++ ':' :: ' ' :: (v.type.toList ++ "): T;".toList) := by
    simp [String.toList_append]
  have hwords : wordsOf (v.type.toList ++ "): T;".toList) = [v.type, "T"] := by
    show wordsOf (v.type.toList ++ ')' :: [':', ' ', 'T', ';']) = _
    rw [wordsOf_append_mark rfl, wordsOf_word hword]
    rfl
  refine Row.typed_known [v.type, "T"] ?_ (by simp [hvisited, builtinTypes])
  rw [Row.typeNames_code, hsplit, annotatedTypes_append hcolon,
    List.takeWhile_cons_of_pos (by decide), ← List.append_nil (v.type.toList ++ _),
    takeWhile_append_of_not_mem hequals, List.takeWhile_nil, List.append_nil, wordsOf_mark rfl,
    hwords]
  rfl

theorem typed_transformerRows {visits : List VisitDeclaration}
    (h : ∀ v ∈ visits, IsWord v.method ∧ scope.type v.type) (hroot : type "IClass") :
    ∀ r ∈ transformerRows visits, r.Typed type := by
  have hvisit : (Row.code 1 "transform(that: IClass): T \x7b").Typed type := by
    refine Row.typed_known ["IClass", "T"] (by decide) ?_
    simp [hroot, builtinTypes]
  refine List.forall_mem_append.mpr ⟨List.forall_mem_append.mpr ⟨List.forall_mem_append.mpr
    ⟨?_, ?_⟩, ?_⟩, ?_⟩
  · exact List.forall_mem_map.mpr fun text _ => Row.typed_comment 0 text
  · have hhead : (Row.code 0 "export abstract class AbstractTransformer<T> \x7b").Typed type :=
      Row.typed_known [] (by decide) fun _ h => nomatch h
    refine List.forall_mem_cons.mpr ⟨hhead, List.forall_mem_cons.mpr ⟨hvisit,
      List.forall_mem_cons.mpr ⟨?_, ?_⟩⟩⟩
    · exact Row.typed_inner (by decide)
    · exact List.forall_mem_singleton.mpr (Row.typed_inner (by decide))
  · split
    · exact fun r hr => nomatch hr
    · refine List.forall_mem_cons.mpr ⟨Row.typed_blank, List.forall_mem_map.mpr fun v hv => ?_⟩
      obtain ⟨hmethod, hvisited⟩ := h v hv
      exact typed_visit hmethod (scope.word_of_type hvisited) (htype hvisited)
  · exact List.forall_mem_singleton.mpr (Row.typed_known [] (by decide) fun _ h => nomatch h)

/-- **Every row of the module of types that is not handwritten mentions types that are built in or
declared.** -/
theorem TypesModule.Within.typed {m : TypesModule} (h : m.Within scope) (hroot : type "IClass")
    (htransformer : type "AbstractTransformer") (snippets : Snippets) :
    ∀ r ∈ (m.emit snippets).1, m.HandwrittenRow snippets r ∨ r.Typed type := by
  refine forall_mem_joinBlocks (.inr Row.typed_blank) (List.forall_mem_append.mpr ⟨?_, ?_⟩)
  · refine List.forall_mem_cons.mpr ⟨?_, List.forall_mem_cons.mpr ⟨?_, ?_⟩⟩
    · exact List.forall_mem_map.mpr fun text _ => .inr (Row.typed_comment 0 text)
    · exact fun r hr => .inr (typed_rootRows htransformer r hr)
    · exact List.forall_mem_singleton.mpr fun r hr =>
        .inr (typed_transformerRows htype h.visits hroot r hr)
  · refine List.forall_mem_map.mpr (List.forall_mem_map.mpr fun d hd r hr => ?_)
    rcases (h.declarations d hd).typed_emit htype htransformer snippets r hr with hr | hr
    · exact .inr hr
    · obtain ⟨name, text, rfl, hown⟩ := hr
      exact .inl ⟨name, text, hd, hown⟩

end TypesModule

end TypeScript
end WireModel
