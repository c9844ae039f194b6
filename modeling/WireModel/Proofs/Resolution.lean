import WireModel.Proofs.RoutineNames
import WireModel.Proofs.RowKeys
import WireModel.Proofs.Tokens

/-!
# References of the codec module

Every row of the codec module is read for its references, and each of them is met. The rows of a
codec refer to what the codec holds, which stays within scope (`CodecModule.Within`), so it is
enough that names in scope are declared; `Met` says so. The rows of a snippet are the author's and
are left out.

The main result is **`CodecModule.Within.resolves`**. The lemmas before it go by the functions that
write the rows, and each follows a row from left to right.
-/

namespace WireModel.TypeScript

open Name

/-! ## Rows -/

section Rows

variable (declared type : String → Prop)

def Piece.Resolves : Piece → Prop
  | .code s => TypeScript.Resolves declared type s.toList
  | .literal _ | .comment _ => True

def Row.Resolves (r : Row) : Prop := ∀ p ∈ r.pieces, p.Resolves declared type

def Block.Resolves (rows : Block) : Prop := ∀ r ∈ rows, r.Resolves declared type

end Rows

variable {declared type : String → Prop}

theorem Resolves.join {s t : String} {rest : List Char}
    (h : Resolves declared type (s.toList ++ (t.toList ++ rest))) :
    Resolves declared type ((s ++ t).toList ++ rest) := by
  rwa [String.toList_append, List.append_assoc]

namespace Piece

theorem resolves_code {s : String} (h : TypeScript.Resolves declared type (s.toList ++ [])) :
    (Piece.code s).Resolves declared type := by
  rwa [List.append_nil] at h

theorem resolves_fixed {cs : List Char} (h : (referencesOf cs).all Reference.isFixed = true) :
    (Piece.code (String.ofList cs)).Resolves declared type :=
  resolves_code (.fixed h)

end Piece

namespace Row

theorem resolves_code {level : Nat} {s : String}
    (h : TypeScript.Resolves declared type (s.toList ++ [])) :
    (Row.code level s).Resolves declared type :=
  List.forall_mem_singleton.mpr (Piece.resolves_code h)

theorem resolves_fixed {level : Nat} {cs : List Char}
    (h : (referencesOf cs).all Reference.isFixed = true) :
    (Row.code level (String.ofList cs)).Resolves declared type :=
  resolves_code (.fixed h)

theorem resolves_blank : Row.blank.Resolves declared type := fun _ hp => nomatch hp

theorem resolves_comment (level : Nat) (text : String) :
    (Row.comment level text).Resolves declared type :=
  List.forall_mem_singleton.mpr trivial

/-- A row with one literal between two codes. -/
theorem resolves_around {level : Nat} {before after value : String}
    (hbefore : TypeScript.Resolves declared type (before.toList ++ []))
    (hafter : TypeScript.Resolves declared type (after.toList ++ [])) :
    (Row.mk level [.code before, .literal value, .code after]).Resolves declared type := by
  refine List.forall_mem_cons.mpr ⟨Piece.resolves_code hbefore, ?_⟩
  refine List.forall_mem_cons.mpr ⟨trivial, ?_⟩
  exact List.forall_mem_singleton.mpr (Piece.resolves_code hafter)

end Row

namespace Block.Resolves

theorem nil : Block.Resolves declared type [] := fun _ hr => nomatch hr

theorem cons {r : Row} {rows : Block} (hr : r.Resolves declared type)
    (hrows : Block.Resolves declared type rows) : Block.Resolves declared type (r :: rows) :=
  List.forall_mem_cons.mpr ⟨hr, hrows⟩

theorem fixed {level : Nat} {cs : List Char} {rows : Block}
    (h : (referencesOf cs).all Reference.isFixed = true)
    (hrows : Block.Resolves declared type rows) :
    Block.Resolves declared type (.code level (String.ofList cs) :: rows) :=
  cons (Row.resolves_fixed h) hrows

theorem blank {rows : Block} (hrows : Block.Resolves declared type rows) :
    Block.Resolves declared type (.blank :: rows) :=
  cons Row.resolves_blank hrows

theorem append {rows more : Block} (hrows : Block.Resolves declared type rows)
    (hmore : Block.Resolves declared type more) : Block.Resolves declared type (rows ++ more) :=
  List.forall_mem_append.mpr ⟨hrows, hmore⟩

theorem flatMap {α : Type} {items : List α} {f : α → Block}
    (h : ∀ a ∈ items, Block.Resolves declared type (f a)) :
    Block.Resolves declared type (items.flatMap f) := by
  intro r hr
  obtain ⟨a, ha, hr⟩ := List.mem_flatMap.mp hr
  exact h a ha r hr

theorem spaced {rows : Block} (h : Block.Resolves declared type rows) :
    Block.Resolves declared type (spaced rows) := by
  unfold TypeScript.spaced
  split
  · exact nil
  · exact cons Row.resolves_blank h

theorem docRows (level : Nat) (paragraphs : List String) :
    Block.Resolves declared type (docRows level paragraphs) :=
  List.forall_mem_map.mpr fun text _ => Row.resolves_comment level text

end Block.Resolves

/-! ### Joined blocks -/

/-- What holds of blocks and of a blank row holds of the blocks when they are joined. -/
theorem joinBlocks_induction {P : Block → Prop} {blocks : List Block} (hnil : P [])
    (hblank : P [.blank]) (happend : ∀ {rows more}, P rows → P more → P (rows ++ more))
    (h : ∀ b ∈ blocks, P b) : P (joinBlocks blocks) :=
  intercalate_induction hnil hblank happend fun b hb => h b (List.mem_filter.mp hb).1

theorem forall_mem_joinBlocks {P : Row → Prop} {blocks : List Block} (hblank : P .blank)
    (h : ∀ b ∈ blocks, ∀ r ∈ b, P r) : ∀ r ∈ joinBlocks blocks, P r := by
  refine joinBlocks_induction (P := fun rows => ∀ r ∈ rows, P r) ?_ ?_ ?_ h
  · exact fun r hr => nomatch hr
  · exact List.forall_mem_singleton.mpr hblank
  · exact fun hrows hmore => List.forall_mem_append.mpr ⟨hrows, hmore⟩

theorem mem_joinBlocks {blocks : List Block} {b : Block} (hb : b ∈ blocks) {r : Row}
    (hr : r ∈ b) : r ∈ joinBlocks blocks := by
  have hkept : b ∈ blocks.filter fun b => !b.isEmpty :=
    List.mem_filter.mpr ⟨hb, by simp [List.ne_nil_of_mem hr]⟩
  exact (infix_intercalate [Row.blank] hkept).subset hr

/-- What is read off rows is read off the blocks one by one, for the rows between them are blank. -/
theorem flatMap_joinBlocks {β : Type} {f : Row → List β} (hblank : f .blank = [])
    (blocks : List Block) :
    (joinBlocks blocks).flatMap f = blocks.flatMap fun rows => rows.flatMap f := by
  have hparts : ∀ parts : List Block, ([Row.blank].intercalate parts).flatMap f
      = parts.flatMap fun rows => rows.flatMap f := by
    intro parts
    induction parts with
    | nil => rfl
    | cons b parts ih =>
      cases parts with
      | nil => rw [List.intercalate_singleton, List.flatMap_singleton]
      | cons c parts =>
        rw [List.intercalate_cons_cons, List.flatMap_append, List.flatMap_append, ih,
          List.flatMap_singleton, hblank, List.append_nil]
        rfl
  rw [joinBlocks, hparts]
  -- the blocks that are left out have no rows
  induction blocks with
  | nil => rfl
  | cons b blocks ih =>
    cases b with
    | nil => exact ih
    | cons r b => exact congrArg ((r :: b).flatMap f ++ ·) ih

/-! ## Names in scope -/

/-- What is in scope is declared. -/
structure Scope.Met (scope : Scope) (declared type : String → Prop) : Prop where
  typed : ∀ {name}, scope.type name → type name
  parse : ∀ {stem}, scope.parser stem → declared (parseRoutine stem)
  facade : ∀ {stem}, scope.parser stem → declared (facadeRoutine stem)
  write : ∀ {stem}, scope.writer stem → declared (writeRoutine stem)
  root : type "IClass" ∧ type "AbstractTransformer"
  transformer : declared "Transformer" ∧ declared "toJsonable"

namespace Scope

variable {scope : Scope}

theorem isWord_parseRoutine {stem : String} (h : scope.parser stem) :
    IsWord (parseRoutine stem) :=
  (scope.word_of_parse h).append (isWord_ofList rfl)

theorem isWord_facadeRoutine {stem : String} (h : scope.parser stem) :
    IsWord (facadeRoutine stem) :=
  (scope.word_of_parse h).append (isWord_ofList rfl)

theorem isWord_writeRoutine {stem : String} (h : scope.writer stem) :
    IsWord (writeRoutine stem) :=
  (scope.word_of_write h).append (isWord_ofList rfl)

end Scope

section Codec

variable {scope : Scope} (hmet : scope.Met declared type)

include hmet

/-- The call of a parse routine. -/
theorem Resolves.parse {stem : String} (hstem : scope.parser stem) {cs rest : List Char}
    (hrest : Resolves declared type ((String.ofList cs).toList ++ rest)) :
    Resolves declared type
      ((parseRoutine stem).toList ++ ((String.ofList ('(' :: cs)).toList ++ rest)) :=
  .called (scope.isWord_parseRoutine hstem) (hmet.parse hstem) hrest

theorem Resolves.typeName {name : String} (hname : scope.type name) {c : Char}
    (hc : isPlainChar c = false) {cs rest : List Char}
    (hrest : Resolves declared type ((String.ofList (c :: cs)).toList ++ rest)) :
    Resolves declared type
      (qualifier.toList ++ (name.toList ++ ((String.ofList (c :: cs)).toList ++ rest))) :=
  .qualified (scope.word_of_type hname) (hmet.typed hname) hc hrest

theorem Resolves.typeExpr {e : TypeExpr} (he : e.Within scope) {c : Char} (hc : isQuiet c = true)
    {cs rest : List Char} (hrest : Resolves declared type ((String.ofList cs).toList ++ rest)) :
    Resolves declared type
      ((e.text qualifier).toList ++ ((String.ofList (c :: cs)).toList ++ rest)) :=
  .typed (fun name hname => ⟨scope.word_of_type (he name hname), hmet.typed (he name hname)⟩)
    hc hrest

/-! ## Parse routines -/

theorem resolves_signatureRows {stem name : String} (hstem : scope.parser stem)
    (hname : scope.type name) : Block.Resolves declared type (signatureRows stem name) := by
  refine .cons (Row.resolves_code (.join (.join ?_))) (.fixed rfl ?_)
  · exact .text rfl (.parse hmet hstem (.fixed rfl))
  · refine .cons (Row.resolves_code (.join (.join (.join ?_)))) .nil
    exact .text rfl (.typeName hmet hname rfl (.fixed rfl))

omit hmet in
theorem resolves_objectGuardRows : Block.Resolves declared type objectGuardRows :=
  .fixed rfl (.fixed rfl (.fixed rfl .nil))

theorem EnumerationCodec.Within.resolves_parseRows {e : EnumerationCodec} (he : e.Within scope)
    (htable : declared e.fromTable) : Block.Resolves declared type e.parseRows := by
  refine .append (resolves_signatureRows hmet he.parser he.type) ?_
  refine .fixed rfl (.fixed rfl (.fixed rfl (.fixed rfl (.cons ?_ ?_))))
  · refine Row.resolves_code (.join (.join (.text rfl ?_)))
    exact .consulted he.fromTable htable he.apart.1 (.fixed rfl)
  refine .fixed rfl (.fixed rfl (.cons ?_ (.fixed rfl (.fixed rfl (.fixed rfl (.fixed rfl .nil))))))
  refine Row.resolves_code (.join (.join (.text rfl ?_)))
  exact .skipped (scope.word_of_type he.type) rfl (.fixed rfl)

theorem Choice.resolves_rows {c : Choice} (hc : scope.parser c.stem) :
    Block.Resolves declared type c.rows := by
  refine .cons (Row.resolves_around (.fixed rfl) (.fixed rfl)) (.cons ?_ .nil)
  exact Row.resolves_code (.join (.join (.text rfl (.parse hmet hc (.fixed rfl)))))

theorem InterfaceCodec.Within.resolves_parseRows {i : InterfaceCodec} (hi : i.Within scope) :
    Block.Resolves declared type i.parseRows := by
  have hdiscriminator : (Row.mk 1 [.code "const modelType = Object.hasOwn(node, ",
      .literal i.discriminator, .code ") ? node[", .literal i.discriminator,
      .code "] : undefined;"]).Resolves declared type := by
    refine List.forall_mem_cons.mpr ⟨Piece.resolves_fixed rfl, ?_⟩
    refine List.forall_mem_cons.mpr ⟨trivial, ?_⟩
    refine List.forall_mem_cons.mpr ⟨Piece.resolves_fixed rfl, ?_⟩
    exact List.forall_mem_cons.mpr
      ⟨trivial, List.forall_mem_singleton.mpr (Piece.resolves_fixed rfl)⟩
  refine .append (.append (.append (.append ?_ resolves_objectGuardRows) ?_) ?_) ?_
  · exact resolves_signatureRows hmet hi.parser hi.type
  · refine .blank (.cons hdiscriminator (.fixed rfl (.cons ?_ (.fixed rfl (.cons ?_ ?_)))))
    · exact Row.resolves_around (.fixed rfl) (.fixed rfl)
    · exact Row.resolves_around (.fixed rfl) (.fixed rfl)
    · exact .fixed rfl (.fixed rfl (.fixed rfl (.fixed rfl (.blank (.fixed rfl .nil)))))
  · exact .flatMap fun c hc => Choice.resolves_rows hmet (hi.choices c hc)
  · refine .fixed rfl (.cons (Row.resolves_code (.join (.join (.text rfl ?_)))) ?_)
    · exact .skipped (scope.word_of_type hi.type) rfl (.fixed rfl)
    · exact .fixed rfl (.fixed rfl .nil)

/-! ### Slots -/

/-- The call of what parses an item. -/
theorem Resolves.parser {p : Parser} (hp : p.Within scope) {cs rest : List Char}
    (hrest : Resolves declared type ((String.ofList cs).toList ++ rest)) :
    Resolves declared type (p.text.toList ++ ((String.ofList ('(' :: cs)).toList ++ rest)) := by
  cases p with
  | generated stem => exact .parse hmet hp hrest
  | primitive kind => cases kind <;> exact .textMark rfl hrest

omit hmet in
theorem Slot.resolves_failureRow (s : Slot) (level : Nat) {failure : List Piece}
    (h : ∀ p ∈ failure, p.Resolves declared type) :
    (s.failureRow level failure).Resolves declared type := by
  refine List.forall_mem_append.mpr ⟨List.forall_mem_append.mpr ⟨?_, h⟩, ?_⟩
  · exact List.forall_mem_singleton.mpr (Piece.resolves_fixed rfl)
  refine List.forall_mem_cons.mpr ⟨Piece.resolves_fixed rfl, ?_⟩
  exact List.forall_mem_cons.mpr
    ⟨trivial, List.forall_mem_singleton.mpr (Piece.resolves_fixed rfl)⟩

namespace Slot.Within

variable {s : Slot} (hs : s.Within scope)

include hs

theorem resolves_itemRows : Block.Resolves declared type s.itemRows := by
  refine .cons (Row.resolves_code (.join (.join (.text rfl ?_)))) (.fixed rfl (.cons ?_ ?_))
  · exact .parser hmet hs.parser (.fixed rfl)
  · exact s.resolves_failureRow 5 (List.forall_mem_singleton.mpr (Piece.resolves_fixed rfl))
  · refine .fixed rfl (.cons (Row.resolves_code (.join ?_)) .nil)
    exact .skipped hs.binding rfl (.fixed rfl)

theorem resolves_listRows : Block.Resolves declared type s.listRows := by
  have hnull : ∀ p ∈ [Piece.code "rt.prependIndex(rt.newError(",
      .literal "Expected a non-null item, but got a null", .code "), index)"],
      p.Resolves declared type := by
    refine List.forall_mem_cons.mpr ⟨Piece.resolves_fixed rfl, ?_⟩
    exact List.forall_mem_cons.mpr
      ⟨trivial, List.forall_mem_singleton.mpr (Piece.resolves_fixed rfl)⟩
  refine .fixed rfl (.cons ?_ (.fixed rfl (.cons ?_ (.fixed rfl (.fixed rfl (.cons ?_ ?_))))))
  · exact s.resolves_failureRow 5 (List.forall_mem_singleton.mpr (Piece.resolves_fixed rfl))
  · refine Row.resolves_code (.join (.join (.text rfl ?_)))
    exact .typeExpr hmet hs.item rfl (.fixed rfl)
  · exact s.resolves_failureRow 6 hnull
  refine .fixed rfl (.cons ?_ (.fixed rfl (.cons ?_ (.fixed rfl (.fixed rfl (.fixed rfl ?_))))))
  · exact Row.resolves_code (.join (.join (.text rfl (.parser hmet hs.parser (.fixed rfl)))))
  · exact s.resolves_failureRow 6 (List.forall_mem_singleton.mpr (Piece.resolves_fixed rfl))
  · exact .cons (Row.resolves_code (.join (.skipped hs.binding rfl (.fixed rfl)))) .nil

theorem resolves_caseRows : Block.Resolves declared type s.caseRows := by
  refine .append (.append ?_ ?_) (.fixed rfl (.fixed rfl .nil))
  · refine .cons (Row.resolves_around (.fixed rfl) (.fixed rfl)) ?_
    exact .fixed rfl (.fixed rfl (.fixed rfl .nil))
  · split
    · exact hs.resolves_listRows hmet
    · exact hs.resolves_itemRows hmet

theorem resolves_declarationRow : s.declarationRow.Resolves declared type := by
  refine Row.resolves_code (.join (.join (.join (.join (.text rfl ?_)))))
  exact .skipped hs.binding rfl (.text rfl (.typeExpr hmet hs.type rfl (.fixed rfl)))

omit hmet in
theorem resolves_requiredRows : Block.Resolves declared type s.requiredRows := by
  unfold Slot.requiredRows
  split
  · refine .cons (Row.resolves_code (.join (.join (.text rfl ?_)))) ?_
    · exact .skipped hs.binding rfl (.fixed rfl)
    · exact .cons (Row.resolves_around (.fixed rfl) (.fixed rfl)) (.fixed rfl .nil)
  · exact .nil

end Slot.Within

omit hmet in
theorem Slot.resolves_argumentRows {slots : List Slot} (h : ∀ s ∈ slots, s.Within scope) :
    Block.Resolves declared type (argumentRows slots) := by
  fun_induction argumentRows slots with
  | case1 => exact .nil
  | case2 s =>
    refine .cons (Row.resolves_code ?_) .nil
    exact .lone (h s List.mem_cons_self).binding
  | case3 s rest _ ih =>
    refine .cons (Row.resolves_code (.join ?_)) (ih fun x hx => h x (List.mem_cons_of_mem s hx))
    exact .skipped (h s List.mem_cons_self).binding rfl (.fixed rfl)

/-! ### Classes -/

namespace ClassCodec.Within

variable {c : ClassCodec} (hc : c.Within scope)

include hc

theorem resolves_constructRows : Block.Resolves declared type c.constructRows := by
  unfold ClassCodec.constructRows
  split
  · refine .cons (Row.resolves_code (.join (.join (.join (.text rfl ?_))))) .nil
    exact .typeName hmet hc.type rfl (.fixed rfl)
  · refine .append (.append (.fixed rfl (.cons ?_ .nil)) ?_) (.fixed rfl (.fixed rfl .nil))
    · refine Row.resolves_code (.join (.join (.join (.text rfl ?_))))
      exact .typeName hmet hc.type rfl (.fixed rfl)
    · exact Slot.resolves_argumentRows hc.slots

omit hmet hc in
theorem resolves_discriminatorRows (c : ClassCodec) :
    Block.Resolves declared type c.discriminatorRows := by
  unfold ClassCodec.discriminatorRows
  split
  · exact .cons (Row.resolves_around (.fixed rfl) (.fixed rfl)) (.fixed rfl .nil)
  · exact .nil

theorem resolves_bodyRows : Block.Resolves declared type c.bodyRows := by
  unfold ClassCodec.bodyRows
  refine .append (.append (.append (.append (.append (.append (.append (.append ?_ ?_) ?_) ?_) ?_)
    ?_) ?_) ?_) ?_
  · exact resolves_objectGuardRows
  · exact .spaced (List.forall_mem_map.mpr fun s hs => (hc.slots s hs).resolves_declarationRow hmet)
  · refine .blank (.cons ?_ (.fixed rfl .nil))
    split
    · exact Row.resolves_fixed rfl
    · exact Row.resolves_fixed rfl
  · exact .flatMap fun s hs => (hc.slots s hs).resolves_caseRows hmet
  · exact resolves_discriminatorRows c
  · exact .fixed rfl (.fixed rfl (.fixed rfl (.fixed rfl .nil)))
  · exact .spaced (.flatMap fun s hs => (hc.slots s hs).resolves_requiredRows)
  · exact .blank .nil
  · exact hc.resolves_constructRows hmet

end ClassCodec.Within

theorem resolves_facadeRows {stem name : String} (hstem : scope.parser stem)
    (hname : scope.type name) (summary : String) :
    Block.Resolves declared type (facadeRows stem name summary) := by
  refine .append (.docRows 0 _) (.cons ?_ (.cons ?_ ?_))
  · refine Row.resolves_code (.join (.join (.join (.join (.join (.text rfl ?_))))))
    refine .called (scope.isWord_facadeRoutine hstem) (hmet.facade hstem) (.text rfl ?_)
    exact .typeName hmet hname rfl (.fixed rfl)
  · exact Row.resolves_code (.join (.join (.text rfl (.parse hmet hstem (.fixed rfl)))))
  · exact .fixed rfl (.fixed rfl (.fixed rfl (.fixed rfl (.fixed rfl .nil))))

/-! ## Tables of enumerations -/

namespace EnumerationCodec.Within

variable {e : EnumerationCodec} (he : e.Within scope)

include he

theorem resolves_fromTableRows : Block.Resolves declared type e.fromTableRows := by
  refine .append (.append (.cons ?_ (.cons ?_ .nil)) ?_) (.fixed rfl .nil)
  · refine Row.resolves_code (.join (.join (.join (.join (.text rfl ?_)))))
    refine .skipped he.fromTable rfl (.text rfl (.join ?_))
    exact .typeName hmet he.type rfl (.fixed rfl)
  · refine Row.resolves_code (.join (.join (.text rfl (.join ?_))))
    exact .typeName hmet he.type rfl (.fixed rfl)
  · refine List.forall_mem_map.mpr fun l hl => Row.resolves_around (.fixed rfl) ?_
    refine .join (.join (.text rfl (.join (.join (.join ?_)))))
    exact .typeName hmet he.type rfl (.chained (he.literals l hl) rfl rfl (.fixed rfl))

theorem resolves_toTableRows : Block.Resolves declared type e.toTableRows := by
  refine .append (.append (.cons ?_ (.cons ?_ .nil)) ?_) (.fixed rfl .nil)
  · refine Row.resolves_code (.join (.join (.join (.join (.text rfl ?_)))))
    refine .skipped he.toTable rfl (.text rfl (.join ?_))
    exact .typeName hmet he.type rfl (.fixed rfl)
  · refine Row.resolves_code (.join (.join (.text rfl (.join ?_))))
    exact .typeName hmet he.type rfl (.fixed rfl)
  · refine List.forall_mem_map.mpr fun l hl => Row.resolves_around ?_ (.fixed rfl)
    refine .join (.join (.text rfl (.join (.join (.join ?_)))))
    exact .typeName hmet he.type rfl (.chained (he.literals l hl) rfl rfl (.fixed rfl))

theorem resolves_writeRows (htable : declared e.toTable) :
    Block.Resolves declared type e.writeRows := by
  refine .append (.docRows 0 _) (.cons ?_ (.cons ?_ (.fixed rfl (.cons ?_ ?_))))
  · refine Row.resolves_code (.join (.join (.join (.join (.join (.text rfl ?_))))))
    refine .called (scope.isWord_writeRoutine he.writer) (hmet.write he.writer) (.text rfl ?_)
    exact .typeName hmet he.type rfl (.fixed rfl)
  · refine Row.resolves_code (.join (.join (.text rfl ?_)))
    exact .consulted he.toTable htable he.apart.2 (.fixed rfl)
  · refine Row.resolves_code (.join (.join (.text rfl ?_)))
    exact .skipped (scope.word_of_type he.type) rfl (.fixed rfl)
  · exact .fixed rfl (.fixed rfl (.fixed rfl .nil))

end EnumerationCodec.Within

/-! ## Methods of classes -/

/-- What turns a value into JSON, around the value. -/
theorem Resolves.written {w : Writer} (hw : w.Within scope) {value text : String}
    (htext : w.write? value = some text) {cs rest : List Char}
    (hvalue : Resolves declared type
      (value.toList ++ ((String.ofList (')' :: cs)).toList ++ rest))) :
    Resolves declared type (text.toList ++ ((String.ofList cs).toList ++ rest)) := by
  have hclose : Resolves declared type
      (value.toList ++ (")".toList ++ ((String.ofList cs).toList ++ rest))) := by
    rw [String.toList_ofList] at hvalue
    rw [String.toList_ofList, String.toList_ofList]
    exact hvalue
  cases w with
  | same => cases htext
  | support function =>
    cases htext
    rcases hw with rfl | rfl
    · exact .join (.join (.join (.textMark rfl hclose)))
    · exact .join (.join (.join (.textMark rfl hclose)))
  | enumeration stem =>
    cases htext
    refine .join (.join (.join ?_))
    exact .called (scope.isWord_writeRoutine hw) (hmet.write hw) hclose
  | object =>
    cases htext
    exact .join (.join (.text rfl hclose))

theorem Entry.Within.resolves_expression {e : Entry} (he : e.Within scope) :
    Resolves declared type (e.expression.toList ++ (";".toList ++ [])) := by
  have hitem : IsWord "item" := isWord_ofList rfl
  unfold Entry.expression Entry.access
  split
  · split
    · next item hwrite =>
      refine .join (.join (.join (.join (.accessed he.field rfl (by decide) (.text rfl ?_)))))
      exact .written hmet he.writer hwrite (.skipped hitem rfl (.text rfl (.fixed rfl)))
    · have hspread : Resolves declared type
          ((String.ofList ("[...".toList ++ "that.".toList)).toList
            ++ (e.field.toList ++ ("]".toList ++ (";".toList ++ [])))) :=
        .chained he.field rfl rfl (.text rfl (.fixed rfl))
      refine .join (.join ?_)
      rw [String.toList_append, List.append_assoc]
      exact .merge hspread
  · cases hwrite : e.writer.write? ("that." ++ e.field) with
    | none => exact .join (.accessed he.field rfl (by decide) (.fixed rfl))
    | some text =>
      refine .written hmet he.writer hwrite (.join ?_)
      exact .accessed he.field rfl (by decide) (.fixed rfl)

theorem Entry.Within.resolves_rows {e : Entry} (he : e.Within scope) :
    Block.Resolves declared type e.rows := by
  have hassign : ∀ level, (e.assignRow level).Resolves declared type := by
    intro level
    exact Row.resolves_around (.fixed rfl)
      (.join (.join (.text rfl (he.resolves_expression hmet))))
  unfold Entry.rows Entry.access
  split
  · refine .cons (Row.resolves_code (.join (.join (.text rfl (.join ?_))))) ?_
    · exact .accessed he.field rfl (by decide) (.fixed rfl)
    · exact .cons (hassign 3) (.fixed rfl .nil)
  · exact .cons (hassign 2) .nil

theorem ClassCodec.Within.resolves_methodHead {c : ClassCodec} (hc : c.Within scope)
    (hmethod : declared c.method) :
    (Row.code 1 (c.method ++ "(that: " ++ qualifier ++ c.type ++ "): rt.JsonObject \x7b")).Resolves
      declared type := by
  refine Row.resolves_code (.join (.join (.join (.join (.called hc.method hmethod ?_)))))
  exact .text rfl (.typeName hmet hc.type rfl (.fixed rfl))

omit hmet in
theorem ClassCodec.resolves_writeDiscriminatorRows (c : ClassCodec) :
    Block.Resolves declared type c.writeDiscriminatorRows := by
  unfold ClassCodec.writeDiscriminatorRows
  split
  · refine .cons ?_ .nil
    refine List.forall_mem_cons.mpr ⟨Piece.resolves_fixed rfl, ?_⟩
    refine List.forall_mem_cons.mpr ⟨trivial, ?_⟩
    refine List.forall_mem_cons.mpr ⟨Piece.resolves_fixed rfl, ?_⟩
    exact List.forall_mem_cons.mpr
      ⟨trivial, List.forall_mem_singleton.mpr (Piece.resolves_fixed rfl)⟩
  · exact .nil

theorem resolves_toJsonableRows : Block.Resolves declared type toJsonableRows := by
  refine .append (.docRows 0 _) (.cons (Row.resolves_code (.known rfl ?_)) ?_)
  · refine List.forall_mem_cons.mpr ⟨.inr hmet.transformer.2, ?_⟩
    refine List.forall_mem_cons.mpr ⟨fun _ => hmet.root.1, ?_⟩
    exact List.forall_mem_singleton.mpr fun heq => absurd heq (by decide)
  · exact .fixed rfl (.fixed rfl .nil)

omit hmet in
theorem resolves_importRows (runtimeModule typesModule : String) :
    Block.Resolves declared type (importRows runtimeModule typesModule) :=
  .cons (Row.resolves_around (.fixed rfl) (.fixed rfl))
    (.cons (Row.resolves_around (.fixed rfl) (.fixed rfl)) .nil)

theorem resolves_writerRows {P : Row → Prop} {methods : Block}
    (h : ∀ r ∈ methods, P r ∨ r.Resolves declared type) :
    ∀ r ∈ writerRows methods, P r ∨ r.Resolves declared type := by
  have hhead : Block.Resolves declared type
      [.code 0 "class Transformer extends types.AbstractTransformer<rt.JsonObject> \x7b"] := by
    refine .cons (Row.resolves_code (.known rfl ?_)) .nil
    refine List.forall_mem_cons.mpr ⟨fun _ => hmet.root.2, ?_⟩
    exact List.forall_mem_singleton.mpr fun heq => absurd heq (by decide)
  have hlast : Block.Resolves declared type
      [.code 0 "\x7d", .blank, .code 0 "const TRANSFORMER = new Transformer();"] := by
    refine .fixed rfl (.blank (.cons (Row.resolves_code (.known rfl ?_)) .nil))
    exact List.forall_mem_singleton.mpr (.inr hmet.transformer.1)
  refine List.forall_mem_append.mpr ⟨List.forall_mem_append.mpr ⟨?_, ?_⟩, ?_⟩
  · exact fun r hr => .inr (Block.Resolves.append (.docRows 0 _) hhead r hr)
  · split
    · exact List.forall_mem_singleton.mpr (.inr Row.resolves_blank)
    · exact h
  · exact fun r hr => .inr (hlast r hr)

end Codec

/-! ## The module -/

/-- A row of the code that is handed in for a class. -/
def ClassCodec.HandwrittenRow (snippets : Snippets) (c : ClassCodec) (r : Row) : Prop :=
  c.isHandwritten = true ∧ ∃ text,
    snippets.require (SnippetKey.parse c.name) c.name = .ok text ∧ r ∈ snippetRows 1 text
      ∨ snippets.require (SnippetKey.transform c.name) c.name = .ok text ∧ r ∈ snippetRows 2 text

def CodecModule.HandwrittenRow (snippets : Snippets) (m : CodecModule) (r : Row) : Prop :=
  ∃ c ∈ m.classes, c.HandwrittenRow snippets r

theorem Block.Resolves.or {P : Row → Prop} {rows : Block} (h : Block.Resolves declared type rows) :
    ∀ r ∈ rows, P r ∨ r.Resolves declared type :=
  fun r hr => .inr (h r hr)

section Modules

variable {scope : Scope} (hmet : scope.Met declared type) (snippets : Snippets)

include hmet

theorem ClassCodec.Within.resolves_emitParse {c : ClassCodec} (hc : c.Within scope) :
    ∀ r ∈ (c.emitParse snippets).1, c.HandwrittenRow snippets r ∨ r.Resolves declared type := by
  have hhead := resolves_signatureRows hmet hc.parser hc.type
  have hclose : Block.Resolves declared type [.code 0 "\x7d"] := .fixed rfl .nil
  unfold ClassCodec.emitParse
  split
  · next hhandwritten =>
    split
    · next text htext =>
      refine List.forall_mem_append.mpr ⟨List.forall_mem_append.mpr ⟨hhead.or, ?_⟩, hclose.or⟩
      exact fun r hr => .inl ⟨hhandwritten, text, .inl ⟨htext, hr⟩⟩
    · exact fun r hr => nomatch hr
  · exact ((hhead.append (hc.resolves_bodyRows hmet)).append hclose).or

theorem ClassCodec.Within.resolves_emitMethod {c : ClassCodec} (hc : c.Within scope)
    (hmethod : declared c.method) :
    ∀ r ∈ (c.emitMethod snippets).1, c.HandwrittenRow snippets r ∨ r.Resolves declared type := by
  have hhead := hc.resolves_methodHead hmet hmethod
  have hclose : Block.Resolves declared type [.code 1 "\x7d"] := .fixed rfl .nil
  unfold ClassCodec.emitMethod
  split
  · next hhandwritten =>
    split
    · next text htext =>
      refine List.forall_mem_cons.mpr ⟨.inr hhead, List.forall_mem_append.mpr ⟨?_, hclose.or⟩⟩
      exact fun r hr => .inl ⟨hhandwritten, text, .inr ⟨htext, hr⟩⟩
    · exact fun r hr => nomatch hr
  · have hentries : Block.Resolves declared type (c.entries.flatMap Entry.rows) :=
      .flatMap fun e he => (hc.entries e he).resolves_rows hmet
    refine (Block.Resolves.cons hhead (.append (.append (.append ?_ ?_) ?_) hclose)).or
    · exact .append (.fixed rfl .nil) hentries
    · exact c.resolves_writeDiscriminatorRows
    · exact .fixed rfl .nil

theorem TypeCodec.Within.resolves_emitRoutines {m : CodecModule} {codec : TypeCodec}
    (hmem : codec ∈ m.codecs) (h : codec.Within scope)
    (hnames : ∀ name ∈ codec.names, declared name) :
    ∀ emitted ∈ codec.emitRoutines snippets, ∀ r ∈ emitted.1,
      m.HandwrittenRow snippets r ∨ r.Resolves declared type := by
  cases h with
  | enumeration he =>
    refine List.forall_mem_cons.mpr ⟨?_, List.forall_mem_singleton.mpr ?_⟩
    · exact (he.resolves_parseRows hmet (hnames _ (by simp [TypeCodec.names]))).or
    · exact (resolves_facadeRows hmet he.parser he.type _).or
  | interface hi =>
    refine List.forall_mem_cons.mpr ⟨?_, List.forall_mem_singleton.mpr ?_⟩
    · exact (hi.resolves_parseRows hmet).or
    · exact (resolves_facadeRows hmet hi.parser hi.type _).or
  | @classType c hc =>
    have hclass : c ∈ m.classes := List.mem_filterMap.mpr ⟨_, hmem, rfl⟩
    refine List.forall_mem_cons.mpr ⟨fun r hr => ?_, List.forall_mem_singleton.mpr ?_⟩
    · exact (hc.resolves_emitParse hmet snippets r hr).imp_left fun hown => ⟨c, hclass, hown⟩
    · exact (resolves_facadeRows hmet hc.parser hc.type _).or

/-- **Every row of the codec module that is not handwritten refers to names that are declared.** -/
theorem CodecModule.Within.resolves {m : CodecModule} (h : m.Within scope)
    (hnames : ∀ name ∈ m.names, declared name) (hmethods : ∀ c ∈ m.classes, declared c.method) :
    ∀ r ∈ (m.emit snippets).1, m.HandwrittenRow snippets r ∨ r.Resolves declared type := by
  have hcodec : ∀ codec ∈ m.codecs, ∀ name ∈ codec.names, declared name := by
    intro codec hcodec name hname
    exact hnames name (List.mem_append_left _ (List.mem_flatMap.mpr ⟨codec, hcodec, hname⟩))
  have htable : ∀ e ∈ m.enumerations, declared e.toTable := by
    intro e he
    obtain ⟨codec, hmem, heq⟩ := List.mem_filterMap.mp he
    cases codec with
    | enumeration codec =>
      obtain rfl := Option.some.inj heq
      exact hcodec _ hmem codec.toTable (by simp [TypeCodec.names])
    | interface | classType => cases heq
  have hmethod : ∀ c ∈ m.classes, ∀ r ∈ (c.emitMethod snippets).1,
      m.HandwrittenRow snippets r ∨ r.Resolves declared type := by
    intro c hc r hr
    exact ((h.classType hc).resolves_emitMethod hmet snippets (hmethods c hc) r hr).imp_left
      fun hown => ⟨c, hc, hown⟩
  refine forall_mem_joinBlocks (.inr Row.resolves_blank) (List.forall_mem_append.mpr
    ⟨List.forall_mem_append.mpr ⟨List.forall_mem_append.mpr
      ⟨List.forall_mem_append.mpr ⟨?_, ?_⟩, ?_⟩, ?_⟩, ?_⟩)
  · refine List.forall_mem_cons.mpr ⟨?_, List.forall_mem_singleton.mpr ?_⟩
    · exact List.forall_mem_map.mpr fun text _ => .inr (Row.resolves_comment 0 text)
    · exact (resolves_importRows _ _).or
  · intro b hb
    obtain ⟨e, he, hb⟩ := List.mem_flatMap.mp hb
    have hwithin := h.enumeration he
    rcases List.mem_pair.mp hb with rfl | rfl
    · exact (hwithin.resolves_fromTableRows hmet).or
    · exact (hwithin.resolves_toTableRows hmet).or
  · refine List.forall_mem_map.mpr fun emitted hemitted => ?_
    obtain ⟨codec, hmem, hemitted⟩ := List.mem_flatMap.mp hemitted
    exact (h codec hmem).resolves_emitRoutines hmet snippets hmem (hcodec codec hmem) _ hemitted
  · refine List.forall_mem_cons.mpr ⟨?_, List.forall_mem_singleton.mpr ?_⟩
    · refine resolves_writerRows hmet (forall_mem_joinBlocks (.inr Row.resolves_blank) ?_)
      exact List.forall_mem_map.mpr (List.forall_mem_map.mpr hmethod)
    · exact (resolves_toJsonableRows hmet).or
  · refine List.forall_mem_map.mpr fun e he => ?_
    exact ((h.enumeration he).resolves_writeRows hmet (htable e he)).or

end Modules

end WireModel.TypeScript
