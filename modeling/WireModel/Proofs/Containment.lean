import WireModel.Proofs.Mentions
import WireModel.Proofs.Stripping

/-!
# Free text stays in its place

Generated code is made of fixed texts, names and numbers, and none of these has a quote or a slash.
So a scanner opens a literal or a comment only where a piece says so, and by the results on literals
and comments it closes them there too.

**`TypesModule.Within.contained`** and **`CodecModule.Within.contained`** say so of the two
generated modules, as long as no class is handwritten. As before the lemmas go by the functions that
write the rows, and what they ask of names is that they stay within scope, and so are words.
-/

namespace WireModel.TypeScript

open Name

/-! ## Code -/

theorem Inert.number (x : Binary64) : Inert x.text := by
  intro c hc
  have hnumeral := Binary64.mem_text hc
  rw [isInert, Bool.and_eq_true, bne_iff_ne, bne_iff_ne]
  constructor <;> rintro rfl <;> exact absurd hnumeral (by decide)

theorem Inert.typeExpr {qualifier : String} (hqualifier : Inert qualifier) {e : TypeExpr}
    (h : ∀ name ∈ e.names, IsWord name) : Inert (e.text qualifier) := by
  induction e with
  | primitive kind => cases kind <;> exact .fixed rfl
  | named name => exact .append hqualifier (.word (h name (List.mem_singleton_self name)))
  | array item ih => exact .append (.append (.fixed rfl) (ih h)) (.fixed rfl)
  | orNull type ih => exact .append (ih h) (.fixed rfl)

theorem Inert.names {names : List String} (h : ∀ name ∈ names, IsWord name) :
    Inert (", ".intercalate names) := by
  induction names with
  | nil => exact .fixed rfl
  | cons name names ih =>
    have hname := Inert.word (h name List.mem_cons_self)
    cases names with
    | nil => rwa [String.intercalate_singleton]
    | cons other names =>
      rw [String.intercalate_cons_cons]
      exact .append (.append hname (.fixed rfl)) (ih fun x hx => h x (List.mem_cons_of_mem name hx))

theorem Inert.qualifier : Inert qualifier := .fixed rfl

namespace Row

theorem inert_code {level : Nat} {s : String} (h : TypeScript.Inert s) : (Row.code level s).Inert :=
  List.forall_mem_singleton.mpr h

theorem inert_blank : Row.blank.Inert := fun _ hp => nomatch hp

/-- A row with one piece between two codes. -/
theorem inert_around {level : Nat} {before after : String} {p : Piece}
    (hbefore : TypeScript.Inert before) (hp : p.Inert) (hafter : TypeScript.Inert after) :
    (Row.mk level [.code before, p, .code after]).Inert :=
  List.forall_mem_cons.mpr ⟨hbefore, List.forall_mem_cons.mpr
    ⟨hp, List.forall_mem_singleton.mpr hafter⟩⟩

end Row

namespace Block.Contained

theorem code {level : Nat} {s : String} {rows : Block} (hs : Inert s) (hrows : rows.Contained) :
    Block.Contained (.code level s :: rows) :=
  cons (Row.inert_code hs) hrows

theorem fixed {level : Nat} {cs : List Char} {rows : Block} (h : cs.all isInert = true)
    (hrows : rows.Contained) : Block.Contained (.code level (String.ofList cs) :: rows) :=
  code (.fixed h) hrows

theorem spaced {rows : Block} (h : rows.Contained) : Block.Contained (spaced rows) := by
  unfold TypeScript.spaced
  split
  · exact nil
  · exact cons Row.inert_blank h

end Block.Contained

theorem contained_bannerRows (banner : List String) : Block.Contained (bannerRows banner) := by
  unfold bannerRows Text.bannerComment
  split
  · exact .nil
  · exact .docRows 0 _

/-! ## The module of types -/

section Types

variable {scope : Scope}

theorem Value.Within.inert {v : Value} (hv : v.Within scope) : v.piece.Inert := by
  cases v with
  | null => exact Inert.fixed rfl
  | bool b => cases b <;> exact Inert.fixed rfl
  | number x => exact Inert.number x
  | bigint x => exact Inert.append (.number x) (.fixed rfl)
  | text value => trivial
  | literal enumeration l =>
    exact Inert.append (.append (.word (scope.word_of_type hv.1)) (.fixed rfl)) (.word hv.2)

theorem TypeExpr.Within.inert {e : TypeExpr} (he : e.Within scope) : Inert (e.text "") :=
  .typeExpr (.fixed rfl) fun name hname => scope.word_of_type (he name hname)

theorem contained_bracedRows {head : String} {members : Block} (hhead : Inert head)
    (hmembers : members.Contained) : Block.Contained (bracedRows head members) := by
  unfold bracedRows
  split
  · exact .code (.append hhead (.fixed rfl)) .nil
  · exact .code (.append hhead (.fixed rfl)) (.append hmembers (.fixed rfl .nil))

theorem LiteralDeclaration.contained_rows {l : LiteralDeclaration} (hl : IsWord l.name) :
    Block.Contained l.rows :=
  .append (.docRows 1 _) (.code (.append (.word hl) (.fixed rfl)) .nil)

theorem FieldDeclaration.Within.contained_rows {f : FieldDeclaration} (hf : f.Within scope) :
    Block.Contained f.rows := by
  refine .append (.docRows 1 _) (.code ?_ .nil)
  exact .append (.append (.append (.word hf.name) (.fixed rfl)) hf.type.inert) (.fixed rfl)

namespace ParameterDeclaration.Within

variable {p : ParameterDeclaration} (hp : p.Within scope)

include hp

theorem inert_row {ending : String} (hending : Inert ending) : (p.row ending).Inert := by
  have hhead : Inert (p.name ++ ": " ++ p.type.text "") :=
    .append (.append (.word hp.name) (.fixed rfl)) hp.type.inert
  unfold ParameterDeclaration.row
  split
  · next value hvalue =>
    exact Row.inert_around (.append hhead (.fixed rfl)) (hp.initializer value hvalue).inert hending
  · exact Row.inert_code (.append hhead hending)

theorem inert_assignment : p.assignment.Inert := by
  have hhead : Inert ("this." ++ p.field ++ " = " ++ p.name) :=
    .append (.append (.append (.fixed rfl) (.word hp.field)) (.fixed rfl)) (.word hp.name)
  unfold ParameterDeclaration.assignment
  split
  · next value hvalue =>
    exact Row.inert_around (.append hhead (.fixed rfl)) (hp.fallback value hvalue).inert
      (.fixed rfl)
  · exact Row.inert_code (.append hhead (.fixed rfl))

end ParameterDeclaration.Within

theorem ParameterDeclaration.contained_rows {parameters : List ParameterDeclaration}
    (h : ∀ p ∈ parameters, p.Within scope) :
    Block.Contained (ParameterDeclaration.rows parameters) := by
  fun_induction ParameterDeclaration.rows parameters with
  | case1 => exact .nil
  | case2 p => exact .cons ((h p List.mem_cons_self).inert_row (.fixed rfl)) .nil
  | case3 p rest _ ih =>
    exact .cons ((h p List.mem_cons_self).inert_row (.fixed rfl))
      (ih fun q hq => h q (List.mem_cons_of_mem p hq))

theorem contained_constructorRows {parameters : List ParameterDeclaration}
    (h : ∀ p ∈ parameters, p.Within scope) : Block.Contained (constructorRows parameters) := by
  unfold constructorRows
  split
  · exact .nil
  · refine .append (.append (.append (.append (.fixed rfl .nil) ?_) (.fixed rfl .nil)) ?_)
      (.fixed rfl .nil)
    · exact ParameterDeclaration.contained_rows h
    · exact .of_inert (List.forall_mem_map.mpr fun p hp => (h p hp).inert_assignment)

theorem contained_visitRows {method : String} (hmethod : IsWord method) :
    Block.Contained (visitRows method) :=
  .fixed rfl (.code (.append (.append (.fixed rfl) (.word hmethod)) (.fixed rfl)) (.fixed rfl .nil))

theorem Declaration.Within.contained_emit {d : Declaration} (hd : d.Within scope)
    (hgenerated : ∀ name, d ≠ .handwritten name) (snippets : Snippets) :
    Block.Contained (d.emit snippets).1 := by
  have hhead : ∀ {start clause : String} {name : String} {bases : List String},
      Inert start → scope.type name → Inert clause → (∀ base ∈ bases, scope.type base) →
      Inert (start ++ name ++ clause ++ ", ".intercalate bases) := by
    intro start clause name bases hstart hname hclause hbases
    refine .append (.append (.append hstart (.word (scope.word_of_type hname))) hclause) ?_
    exact .names fun base hbase => scope.word_of_type (hbases base hbase)
  cases hd with
  | enumeration hname hliterals =>
    refine .append (.docRows 0 _) (contained_bracedRows ?_ (.flatMap fun l hl => ?_))
    · exact .append (.fixed rfl) (.word (scope.word_of_type hname))
    · exact LiteralDeclaration.contained_rows (hliterals l hl)
  | interface hname hbases hfields =>
    refine .append (.docRows 0 _) (contained_bracedRows ?_ (.flatMap fun f hf => ?_))
    · exact hhead (.fixed rfl) hname (.fixed rfl) hbases
    · exact (hfields f hf).contained_rows
  | classType hname hbases hfields hparameters hvisit =>
    refine .append (.docRows 0 _) (contained_bracedRows ?_ (.joinBlocks ?_))
    · exact hhead (.fixed rfl) hname (.fixed rfl) hbases
    · refine List.forall_mem_cons.mpr ⟨.flatMap fun f hf => (hfields f hf).contained_rows, ?_⟩
      exact List.forall_mem_cons.mpr ⟨contained_constructorRows hparameters,
        List.forall_mem_singleton.mpr (contained_visitRows hvisit)⟩
  | handwritten name => exact absurd rfl (hgenerated name)

theorem contained_rootRows : Block.Contained rootRows :=
  .append (.append (.append (.docRows 0 _) (.fixed rfl .nil)) (.docRows 1 _))
    (.fixed rfl (.fixed rfl .nil))

theorem contained_transformerRows {visits : List VisitDeclaration}
    (h : ∀ v ∈ visits, IsWord v.method ∧ scope.type v.type) :
    Block.Contained (transformerRows visits) := by
  refine .append (.append (.append (.docRows 0 _) ?_) ?_) (.fixed rfl .nil)
  · exact .fixed rfl (.fixed rfl (.fixed rfl (.fixed rfl .nil)))
  · split
    · exact .nil
    · refine .cons Row.inert_blank (.of_inert (List.forall_mem_map.mpr fun v hv => ?_))
      refine Row.inert_code (.append (.append (.append (.append (.fixed rfl) ?_) (.fixed rfl)) ?_)
        (.fixed rfl))
      · exact .word (h v hv).1
      · exact .word (scope.word_of_type (h v hv).2)

/-- **The module of types is read as its rows say.** -/
theorem TypesModule.Within.contained {m : TypesModule} (h : m.Within scope)
    (hgenerated : ∀ name, .handwritten name ∉ m.declarations) (snippets : Snippets) :
    Block.Contained (m.emit snippets).1 := by
  refine .joinBlocks (List.forall_mem_append.mpr ⟨?_, ?_⟩)
  · exact List.forall_mem_cons.mpr ⟨contained_bannerRows m.banner, List.forall_mem_cons.mpr
      ⟨contained_rootRows, List.forall_mem_singleton.mpr (contained_transformerRows h.visits)⟩⟩
  · refine List.forall_mem_map.mpr (List.forall_mem_map.mpr fun d hd => ?_)
    refine (h.declarations d hd).contained_emit ?_ snippets
    rintro name rfl
    exact hgenerated name hd

end Types

/-! ## The codec module -/

section Codec

variable {scope : Scope}

theorem TypeExpr.Within.inert_qualified {e : TypeExpr} (he : e.Within scope) :
    Inert (e.text qualifier) :=
  .typeExpr .qualifier fun name hname => scope.word_of_type (he name hname)

theorem Parser.Within.inert {p : Parser} (hp : p.Within scope) : Inert p.text := by
  cases p with
  | primitive kind => cases kind <;> exact .fixed rfl
  | generated stem => exact .word (scope.isWord_parseRoutine hp)

theorem Writer.Within.inert {w : Writer} (hw : w.Within scope) {value text : String}
    (htext : w.write? value = some text) (hvalue : Inert value) : Inert text := by
  cases w with
  | same => cases htext
  | support function =>
    cases htext
    have hfunction : Inert function := by rcases hw with rfl | rfl <;> exact .fixed rfl
    exact .append (.append (.append hfunction (.fixed rfl)) hvalue) (.fixed rfl)
  | enumeration stem =>
    cases htext
    exact .append (.append (.append (.word (scope.isWord_writeRoutine hw)) (.fixed rfl)) hvalue)
      (.fixed rfl)
  | object =>
    cases htext
    exact .append (.append (.fixed rfl) hvalue) (.fixed rfl)

/-! ### Parse routines -/

theorem contained_signatureRows {stem name : String} (hstem : scope.parser stem)
    (hname : scope.type name) : Block.Contained (signatureRows stem name) := by
  refine .code ?_ (.fixed rfl (.code ?_ .nil))
  · exact .append (.append (.fixed rfl) (.word (scope.isWord_parseRoutine hstem))) (.fixed rfl)
  · exact .append (.append (.append (.fixed rfl) .qualifier) (.word (scope.word_of_type hname)))
      (.fixed rfl)

theorem contained_objectGuardRows : Block.Contained objectGuardRows :=
  .fixed rfl (.fixed rfl (.fixed rfl .nil))

theorem EnumerationCodec.Within.contained_parseRows {e : EnumerationCodec} (he : e.Within scope) :
    Block.Contained e.parseRows := by
  refine .append (contained_signatureRows he.parser he.type) ?_
  refine .fixed rfl (.fixed rfl (.fixed rfl (.fixed rfl (.code ?_ (.fixed rfl (.fixed rfl ?_))))))
  · exact .append (.append (.fixed rfl) (.word he.fromTable)) (.fixed rfl)
  refine .code ?_ (.fixed rfl (.fixed rfl (.fixed rfl (.fixed rfl .nil))))
  exact .append (.append (.fixed rfl) (.word (scope.word_of_type he.type))) (.fixed rfl)

theorem Choice.contained_rows {c : Choice} (hc : scope.parser c.stem) : Block.Contained c.rows := by
  refine .cons (Row.inert_around (.fixed rfl) trivial (.fixed rfl)) (.code ?_ .nil)
  exact .append (.append (.fixed rfl) (.word (scope.isWord_parseRoutine hc))) (.fixed rfl)

theorem InterfaceCodec.Within.contained_parseRows {i : InterfaceCodec} (hi : i.Within scope) :
    Block.Contained i.parseRows := by
  have hdiscriminator : (Row.mk 1 [.code "const modelType = Object.hasOwn(node, ",
      .literal i.discriminator, .code ") ? node[", .literal i.discriminator,
      .code "] : undefined;"]).Inert := by
    refine List.forall_mem_cons.mpr ⟨Inert.fixed rfl, List.forall_mem_cons.mpr ⟨trivial, ?_⟩⟩
    refine List.forall_mem_cons.mpr ⟨Inert.fixed rfl, List.forall_mem_cons.mpr ⟨trivial, ?_⟩⟩
    exact List.forall_mem_singleton.mpr (Inert.fixed rfl)
  refine .append (.append (.append (.append ?_ contained_objectGuardRows) ?_) ?_) ?_
  · exact contained_signatureRows hi.parser hi.type
  · refine .cons Row.inert_blank (.cons hdiscriminator (.fixed rfl (.cons ?_ (.fixed rfl ?_))))
    · exact Row.inert_around (.fixed rfl) trivial (.fixed rfl)
    · refine .cons (Row.inert_around (.fixed rfl) trivial (.fixed rfl)) ?_
      exact .fixed rfl (.fixed rfl (.fixed rfl (.fixed rfl
        (.cons Row.inert_blank (.fixed rfl .nil)))))
  · exact .flatMap fun c hc => Choice.contained_rows (hi.choices c hc)
  · refine .fixed rfl (.code ?_ (.fixed rfl (.fixed rfl .nil)))
    exact .append (.append (.fixed rfl) (.word (scope.word_of_type hi.type))) (.fixed rfl)

theorem Slot.inert_failureRow (s : Slot) (level : Nat) {failure : List Piece}
    (h : ∀ p ∈ failure, p.Inert) : (s.failureRow level failure).Inert := by
  refine List.forall_mem_append.mpr ⟨List.forall_mem_append.mpr ⟨?_, h⟩, ?_⟩
  · exact List.forall_mem_singleton.mpr (Inert.fixed rfl)
  · exact List.forall_mem_cons.mpr ⟨Inert.fixed rfl, List.forall_mem_cons.mpr
      ⟨trivial, List.forall_mem_singleton.mpr (Inert.fixed rfl)⟩⟩

namespace Slot.Within

variable {s : Slot} (hs : s.Within scope)

include hs

theorem contained_itemRows : Block.Contained s.itemRows := by
  refine .code ?_ (.fixed rfl (.cons ?_ (.fixed rfl (.code ?_ .nil))))
  · exact .append (.append (.fixed rfl) hs.parser.inert) (.fixed rfl)
  · exact s.inert_failureRow 5 (List.forall_mem_singleton.mpr (Inert.fixed rfl))
  · exact .append (.word hs.binding) (.fixed rfl)

theorem contained_listRows : Block.Contained s.listRows := by
  have hnull : ∀ p ∈ [Piece.code "rt.prependIndex(rt.newError(",
      .literal "Expected a non-null item, but got a null", .code "), index)"], p.Inert :=
    List.forall_mem_cons.mpr ⟨Inert.fixed rfl, List.forall_mem_cons.mpr
      ⟨trivial, List.forall_mem_singleton.mpr (Inert.fixed rfl)⟩⟩
  have hparse : ∀ {ending : String}, Inert ending →
      Inert ("const parsed = " ++ s.parser.text ++ ending) :=
    fun hending => .append (.append (.fixed rfl) hs.parser.inert) hending
  refine .fixed rfl (.cons ?_ (.fixed rfl (.code ?_ (.fixed rfl (.fixed rfl (.cons ?_ ?_))))))
  · exact s.inert_failureRow 5 (List.forall_mem_singleton.mpr (Inert.fixed rfl))
  · exact .append (.append (.fixed rfl) hs.item.inert_qualified) (.fixed rfl)
  · exact s.inert_failureRow 6 hnull
  refine .fixed rfl (.code (hparse (.fixed rfl)) (.fixed rfl (.cons ?_ (.fixed rfl (.fixed rfl
    (.fixed rfl (.code ?_ .nil)))))))
  · exact s.inert_failureRow 6 (List.forall_mem_singleton.mpr (Inert.fixed rfl))
  · exact .append (.word hs.binding) (.fixed rfl)

theorem contained_caseRows : Block.Contained s.caseRows := by
  refine .append (.append ?_ ?_) (.fixed rfl (.fixed rfl .nil))
  · exact .cons (Row.inert_around (.fixed rfl) trivial (.fixed rfl))
      (.fixed rfl (.fixed rfl (.fixed rfl .nil)))
  · split
    · exact hs.contained_listRows
    · exact hs.contained_itemRows

theorem inert_declarationRow : s.declarationRow.Inert :=
  Row.inert_code (.append (.append (.append (.append (.fixed rfl) (.word hs.binding)) (.fixed rfl))
    hs.type.inert_qualified) (.fixed rfl))

theorem contained_requiredRows : Block.Contained s.requiredRows := by
  unfold Slot.requiredRows
  split
  · refine .code ?_ (.cons (Row.inert_around (.fixed rfl) trivial (.fixed rfl)) (.fixed rfl .nil))
    exact .append (.append (.fixed rfl) (.word hs.binding)) (.fixed rfl)
  · exact .nil

end Slot.Within

theorem Slot.contained_argumentRows {slots : List Slot} (h : ∀ s ∈ slots, s.Within scope) :
    Block.Contained (argumentRows slots) := by
  fun_induction argumentRows slots with
  | case1 => exact .nil
  | case2 s => exact .code (.word (h s List.mem_cons_self).binding) .nil
  | case3 s rest _ ih =>
    refine .code ?_ (ih fun x hx => h x (List.mem_cons_of_mem s hx))
    exact .append (.word (h s List.mem_cons_self).binding) (.fixed rfl)

namespace ClassCodec.Within

variable {c : ClassCodec} (hc : c.Within scope)

include hc

theorem contained_constructRows : Block.Contained c.constructRows := by
  have hnew : ∀ {start ending : String}, Inert start → Inert ending →
      Inert (start ++ qualifier ++ c.type ++ ending) := by
    intro start ending hstart hending
    exact .append (.append (.append hstart .qualifier) (.word (scope.word_of_type hc.type))) hending
  unfold ClassCodec.constructRows
  split
  · exact .code (hnew (.fixed rfl) (.fixed rfl)) .nil
  · refine .append (.append (.fixed rfl (.code (hnew (.fixed rfl) (.fixed rfl)) .nil)) ?_)
      (.fixed rfl (.fixed rfl .nil))
    exact Slot.contained_argumentRows hc.slots

omit hc in
theorem contained_discriminatorRows (c : ClassCodec) : Block.Contained c.discriminatorRows := by
  unfold ClassCodec.discriminatorRows
  split
  · exact .cons (Row.inert_around (.fixed rfl) trivial (.fixed rfl)) (.fixed rfl .nil)
  · exact .nil

theorem contained_bodyRows : Block.Contained c.bodyRows := by
  unfold ClassCodec.bodyRows
  refine .append (.append (.append (.append (.append (.append (.append (.append ?_ ?_) ?_) ?_) ?_)
    ?_) ?_) ?_) ?_
  · exact contained_objectGuardRows
  · exact .spaced (.of_inert (List.forall_mem_map.mpr fun s hs =>
      (hc.slots s hs).inert_declarationRow))
  · refine .cons Row.inert_blank (.code ?_ (.fixed rfl .nil))
    split
    · exact .fixed rfl
    · exact .fixed rfl
  · exact .flatMap fun s hs => (hc.slots s hs).contained_caseRows
  · exact contained_discriminatorRows c
  · exact .fixed rfl (.fixed rfl (.fixed rfl (.fixed rfl .nil)))
  · exact .spaced (.flatMap fun s hs => (hc.slots s hs).contained_requiredRows)
  · exact .blank
  · exact hc.contained_constructRows

theorem contained_emitParse (hgenerated : c.isHandwritten = false) (snippets : Snippets) :
    Block.Contained (c.emitParse snippets).1 := by
  rw [ClassCodec.emitParse, if_neg (by simp [hgenerated])]
  exact .append (.append (contained_signatureRows hc.parser hc.type) hc.contained_bodyRows)
    (.fixed rfl .nil)

end ClassCodec.Within

theorem contained_facadeRows {stem name : String} (hstem : scope.parser stem)
    (hname : scope.type name) (summary : String) :
    Block.Contained (facadeRows stem name summary) := by
  refine .append (.docRows 0 _) (.code ?_ (.code ?_ ?_))
  · exact .append (.append (.append (.append (.append (.fixed rfl)
      (.word (scope.isWord_facadeRoutine hstem))) (.fixed rfl)) .qualifier)
      (.word (scope.word_of_type hname))) (.fixed rfl)
  · exact .append (.append (.fixed rfl) (.word (scope.isWord_parseRoutine hstem))) (.fixed rfl)
  · exact .fixed rfl (.fixed rfl (.fixed rfl (.fixed rfl (.fixed rfl .nil))))

theorem TypeCodec.Within.contained_emitRoutines {codec : TypeCodec} (h : codec.Within scope)
    (hgenerated : ∀ c, codec = .classType c → c.isHandwritten = false) (snippets : Snippets) :
    ∀ emitted ∈ codec.emitRoutines snippets, Block.Contained emitted.1 := by
  cases h with
  | enumeration he =>
    exact List.forall_mem_cons.mpr ⟨he.contained_parseRows,
      List.forall_mem_singleton.mpr (contained_facadeRows he.parser he.type _)⟩
  | interface hi =>
    exact List.forall_mem_cons.mpr ⟨hi.contained_parseRows,
      List.forall_mem_singleton.mpr (contained_facadeRows hi.parser hi.type _)⟩
  | classType hc =>
    exact List.forall_mem_cons.mpr ⟨hc.contained_emitParse (hgenerated _ rfl) snippets,
      List.forall_mem_singleton.mpr (contained_facadeRows hc.parser hc.type _)⟩

/-! ### Tables and methods -/

namespace EnumerationCodec.Within

variable {e : EnumerationCodec} (he : e.Within scope)

include he

theorem inert_type : Inert (qualifier ++ e.type) :=
  .append .qualifier (.word (scope.word_of_type he.type))

theorem inert_literalName {l : String × String} (hl : l ∈ e.literals) :
    Inert (e.literalName l.2) :=
  .append (.append he.inert_type (.fixed rfl)) (.word (he.literals l hl))

theorem contained_fromTableRows : Block.Contained e.fromTableRows := by
  refine .append (.append (.code ?_ (.code ?_ .nil)) (.of_inert ?_)) (.fixed rfl .nil)
  · exact .append (.append (.append (.append (.fixed rfl) (.word he.fromTable)) (.fixed rfl))
      he.inert_type) (.fixed rfl)
  · exact .append (.append (.fixed rfl) he.inert_type) (.fixed rfl)
  · refine List.forall_mem_map.mpr fun l hl => Row.inert_around (.fixed rfl) trivial ?_
    exact .append (.append (.fixed rfl) (he.inert_literalName hl)) (.fixed rfl)

theorem contained_toTableRows : Block.Contained e.toTableRows := by
  refine .append (.append (.code ?_ (.code ?_ .nil)) (.of_inert ?_)) (.fixed rfl .nil)
  · exact .append (.append (.append (.append (.fixed rfl) (.word he.toTable)) (.fixed rfl))
      he.inert_type) (.fixed rfl)
  · exact .append (.append (.fixed rfl) he.inert_type) (.fixed rfl)
  · refine List.forall_mem_map.mpr fun l hl => Row.inert_around ?_ trivial (.fixed rfl)
    exact .append (.append (.fixed rfl) (he.inert_literalName hl)) (.fixed rfl)

theorem contained_writeRows : Block.Contained e.writeRows := by
  refine .append (.docRows 0 _) (.code ?_ (.code ?_ (.fixed rfl (.code ?_ ?_))))
  · exact .append (.append (.append (.append (.append (.fixed rfl)
      (.word (scope.isWord_writeRoutine he.writer))) (.fixed rfl)) .qualifier)
      (.word (scope.word_of_type he.type))) (.fixed rfl)
  · exact .append (.append (.fixed rfl) (.word he.toTable)) (.fixed rfl)
  · exact .append (.append (.fixed rfl) (.word (scope.word_of_type he.type))) (.fixed rfl)
  · exact .fixed rfl (.fixed rfl (.fixed rfl .nil))

end EnumerationCodec.Within

namespace Entry.Within

variable {e : Entry} (he : e.Within scope)

include he

theorem inert_access : Inert e.access := .append (.fixed rfl) (.word he.field)

theorem inert_expression : Inert e.expression := by
  unfold Entry.expression
  split
  · split
    · next item hitem =>
      exact .append (.append (.append he.inert_access (.fixed rfl))
        (he.writer.inert hitem (.fixed rfl))) (.fixed rfl)
    · exact .append (.append (.fixed rfl) he.inert_access) (.fixed rfl)
  · cases hwrite : e.writer.write? e.access with
    | none => exact he.inert_access
    | some text => exact he.writer.inert hwrite he.inert_access

theorem contained_rows : Block.Contained e.rows := by
  have hassign : ∀ level, (e.assignRow level).Inert := fun level =>
    Row.inert_around (.fixed rfl) trivial
      (.append (.append (.fixed rfl) he.inert_expression) (.fixed rfl))
  unfold Entry.rows
  split
  · exact .code (.append (.append (.fixed rfl) he.inert_access) (.fixed rfl))
      (.cons (hassign 3) (.fixed rfl .nil))
  · exact .cons (hassign 2) .nil

end Entry.Within

theorem ClassCodec.contained_writeDiscriminatorRows (c : ClassCodec) :
    Block.Contained c.writeDiscriminatorRows := by
  unfold ClassCodec.writeDiscriminatorRows
  split
  · refine .cons (List.forall_mem_cons.mpr ⟨Inert.fixed rfl, ?_⟩) .nil
    refine List.forall_mem_cons.mpr ⟨trivial, List.forall_mem_cons.mpr ⟨Inert.fixed rfl, ?_⟩⟩
    exact List.forall_mem_cons.mpr ⟨trivial, List.forall_mem_singleton.mpr (Inert.fixed rfl)⟩
  · exact .nil

theorem ClassCodec.Within.contained_emitMethod {c : ClassCodec} (hc : c.Within scope)
    (hgenerated : c.isHandwritten = false) (snippets : Snippets) :
    Block.Contained (c.emitMethod snippets).1 := by
  have hhead : Inert (c.method ++ "(that: " ++ qualifier ++ c.type ++ "): rt.JsonObject \x7b") :=
    .append (.append (.append (.append (.word hc.method) (.fixed rfl)) .qualifier)
      (.word (scope.word_of_type hc.type))) (.fixed rfl)
  rw [ClassCodec.emitMethod, if_neg (by simp [hgenerated])]
  refine .code hhead (.append (.append (.append (.append (.fixed rfl .nil) ?_) ?_) ?_)
    (.fixed rfl .nil))
  · exact .flatMap fun e he => (hc.entries e he).contained_rows
  · exact c.contained_writeDiscriminatorRows
  · exact .fixed rfl .nil

theorem contained_writerRows {methods : Block} (h : methods.Contained) :
    Block.Contained (writerRows methods) := by
  refine .append (.append (.append (.docRows 0 _) (.fixed rfl .nil)) ?_)
    (.fixed rfl (.cons Row.inert_blank (.fixed rfl .nil)))
  split
  · exact .blank
  · exact h

theorem contained_toJsonableRows : Block.Contained toJsonableRows :=
  .append (.docRows 0 _) (.fixed rfl (.fixed rfl (.fixed rfl .nil)))

theorem contained_importRows (runtimeModule typesModule : String) :
    Block.Contained (importRows runtimeModule typesModule) :=
  .cons (Row.inert_around (.fixed rfl) trivial (.fixed rfl))
    (.cons (Row.inert_around (.fixed rfl) trivial (.fixed rfl)) .nil)

/-- **The codec module is read as its rows say.** -/
theorem CodecModule.Within.contained {m : CodecModule} (h : m.Within scope)
    (hgenerated : ∀ c ∈ m.classes, c.isHandwritten = false) (snippets : Snippets) :
    Block.Contained (m.emit snippets).1 := by
  refine .joinBlocks (List.forall_mem_append.mpr ⟨List.forall_mem_append.mpr
    ⟨List.forall_mem_append.mpr ⟨List.forall_mem_append.mpr ⟨?_, ?_⟩, ?_⟩, ?_⟩, ?_⟩)
  · exact List.forall_mem_cons.mpr ⟨contained_bannerRows m.banner,
      List.forall_mem_singleton.mpr (contained_importRows _ _)⟩
  · intro b hb
    obtain ⟨e, he, hb⟩ := List.mem_flatMap.mp hb
    rcases List.mem_pair.mp hb with rfl | rfl
    · exact (h.enumeration he).contained_fromTableRows
    · exact (h.enumeration he).contained_toTableRows
  · refine List.forall_mem_map.mpr fun emitted hemitted => ?_
    obtain ⟨codec, hmem, hemitted⟩ := List.mem_flatMap.mp hemitted
    refine (h codec hmem).contained_emitRoutines ?_ snippets emitted hemitted
    rintro c rfl
    exact hgenerated c (List.mem_filterMap.mpr ⟨_, hmem, rfl⟩)
  · refine List.forall_mem_cons.mpr ⟨contained_writerRows (.joinBlocks ?_),
      List.forall_mem_singleton.mpr contained_toJsonableRows⟩
    refine List.forall_mem_map.mpr (List.forall_mem_map.mpr fun c hc => ?_)
    exact (h.classType hc).contained_emitMethod (hgenerated c hc) snippets
  · exact List.forall_mem_map.mpr fun e he => (h.enumeration he).contained_writeRows

end Codec
end WireModel.TypeScript
