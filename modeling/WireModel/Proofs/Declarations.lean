import WireModel.Compile
import WireModel.Emission.Target
import WireModel.Proofs.Mentions

/-!
# Declarations of generated modules

What a module declares is read off its rows: a row at the margin that begins with `export class`,
`function` and the like declares the name behind these words, and a method is declared by its head.

**`Model.references_closed`** puts declarations and references together. When files are given out,
every type that is mentioned is built in or declared, and so is every routine, every table and every
member of the module of types that the codec uses. Rows that were handed in for a handwritten class
are the only ones that are left out.
-/

namespace WireModel

open TypeScript Codec Name

namespace TypeScript

/-! ## Names that rows declare -/

/-- The name behind a word that introduces a declaration. -/
def declaredName? (kinds : List String) : List String → Option String
  | kind :: name :: _ => if kinds.contains kind then some name else none
  | _ => none

/-- The type that a row declares for other modules. -/
def Row.type? (r : Row) : Option String :=
  match r.level, wordsOf r.leading with
  | 0, "export" :: rest =>
    declaredName? ["enum", "interface", "class"] (rest.dropWhile (· == "abstract"))
  | _, _ => none

/-- The method whose head is a row: its name, its parameters and an opening brace. -/
def methodName? : List Token → Option String
  | .word name :: .mark '(' :: rest =>
    if rest.getLast? = some (.mark '\x7b') then some (String.ofList name) else none
  | _ => none

/-- What a row declares in its own module: a routine, a table or a class at the margin, and a
method one level in. -/
def Row.value? (r : Row) : Option String :=
  match r.level with
  | 0 => declaredName? ["function", "const", "class"]
      ((wordsOf r.leading).dropWhile (· == "export"))
  | 1 => methodName? (Token.scan r.leading)
  | _ => none

/-- A type of the module; the declaration of a handwritten class is in its snippet. -/
def TypesModule.Declares (snippets : Snippets) (m : TypesModule) (name : String) : Prop :=
  (∃ r ∈ (m.emit snippets).1, r.type? = some name)
    ∨ ∃ className, .handwritten className ∈ m.declarations ∧ name = typeName className

def CodecModule.Declares (snippets : Snippets) (m : CodecModule) (name : String) : Prop :=
  ∃ r ∈ (m.emit snippets).1, r.value? = some name

/-! ## What the module of types declares -/

theorem Row.type?_code {s : String} {kind name : String} {rest : List String}
    (hkind : kind ∈ ["enum", "interface", "class"])
    (h : wordsOf s.toList = "export" :: kind :: name :: rest) :
    (Row.code 0 s).type? = some name := by
  show (match 0, wordsOf s.toList with
    | 0, "export" :: rest => declaredName? _ (rest.dropWhile (· == "abstract"))
    | _, _ => none) = _
  rw [h]
  simp only [List.mem_cons, List.not_mem_nil, or_false] at hkind
  rcases hkind with rfl | rfl | rfl <;> rfl

theorem exists_type?_bracedRows {head : String} (members : Block) {kind name : String}
    {rest : List String} (hkind : kind ∈ ["enum", "interface", "class"])
    (h : wordsOf head.toList = "export" :: kind :: name :: rest) :
    ∃ r ∈ bracedRows head members, r.type? = some name := by
  have hwords : ∀ ending : String, areMarks ending.toList = true →
      (Row.code 0 (head ++ ending)).type? = some name := by
    intro ending hending
    have hall := wordsOf_append_marks hending head.toList
    rw [← String.toList_append, h] at hall
    exact Row.type?_code hkind hall
  unfold bracedRows
  split
  · exact ⟨_, List.mem_singleton_self _, hwords _ rfl⟩
  · exact ⟨_, List.mem_cons_self, hwords _ rfl⟩

/-- A declaration that is not handwritten has a row for its name. -/
theorem Declaration.Within.exists_type? {scope : Scope} {d : Declaration} (hd : d.Within scope)
    (snippets : Snippets) :
    (∃ r ∈ (d.emit snippets).1, r.type? = some d.name)
      ∨ ∃ name, d = .handwritten name := by
  have hrow : ∀ {doc : Doc} {rows : Block} {name : String},
      (∃ r ∈ rows, r.type? = some name) → ∃ r ∈ docRows 0 doc ++ rows, r.type? = some name := by
    intro doc rows name h
    obtain ⟨r, hr, hname⟩ := h
    exact ⟨r, List.mem_append_right _ hr, hname⟩
  cases hd with
  | enumeration hname =>
    exact .inl (hrow (exists_type?_bracedRows _ (by decide)
      (wordsOf_named rfl (scope.word_of_type hname))))
  | interface hname hbases =>
    exact .inl (hrow (exists_type?_bracedRows _ (by decide) (wordsOf_clause rfl rfl
      (scope.word_of_type hname) fun base hbase => scope.word_of_type (hbases base hbase))))
  | classType hname hbases =>
    exact .inl (hrow (exists_type?_bracedRows _ (by decide) (wordsOf_clause rfl rfl
      (scope.word_of_type hname) fun base hbase => scope.word_of_type (hbases base hbase))))
  | handwritten name => exact .inr ⟨name, rfl⟩

namespace TypesModule

variable (snippets : Snippets) {m : TypesModule}

theorem declares_of_mem {b : Block} (hb : b ∈ [bannerRows m.banner, rootRows,
      transformerRows m.visits] ++ (m.declarations.map (Declaration.emit snippets)).map (·.1))
    {name : String} (h : ∃ r ∈ b, r.type? = some name) : m.Declares snippets name := by
  obtain ⟨r, hr, hname⟩ := h
  exact .inl ⟨r, mem_joinBlocks hb hr, hname⟩

theorem declares_root : m.Declares snippets "IClass" :=
  declares_of_mem snippets (b := rootRows) (List.mem_append_left _ (by simp))
    ⟨.code 0 "export interface IClass \x7b", by simp [rootRows], by decide⟩

theorem declares_transformer : m.Declares snippets "AbstractTransformer" :=
  declares_of_mem snippets (b := transformerRows m.visits) (List.mem_append_left _ (by simp))
    ⟨.code 0 "export abstract class AbstractTransformer<T> \x7b", by simp [transformerRows],
      by decide⟩

theorem Within.declares {scope : Scope} (h : m.Within scope) {name : String}
    (hname : name ∈ m.names) : m.Declares snippets name := by
  obtain ⟨d, hd, rfl⟩ := List.mem_map.mp hname
  rcases (h.declarations d hd).exists_type? snippets with hrow | ⟨className, rfl⟩
  · refine declares_of_mem snippets (List.mem_append_right _ ?_) hrow
    exact List.mem_map_of_mem (List.mem_map_of_mem hd)
  · exact .inr ⟨className, hd, rfl⟩

end TypesModule

/-! ## What the codec module declares -/

/-- A text begins with these words. -/
def BeginsWith (words : List String) (cs : List Char) : Prop := words <+: wordsOf cs

theorem BeginsWith.join {words : List String} {s t : String} {rest : List Char}
    (h : BeginsWith words (s.toList ++ (t.toList ++ rest))) :
    BeginsWith words ((s ++ t).toList ++ rest) := by
  rwa [String.toList_append, List.append_assoc]

theorem BeginsWith.named {pre : List Char} (hpre : Token.endsApart pre = true) {name : String}
    (hname : IsWord name) {c : Char} (hc : isPlainChar c = false) {cs rest : List Char} :
    BeginsWith (wordsOf pre ++ [name])
      ((String.ofList pre).toList
        ++ (name.toList ++ ((String.ofList (c :: cs)).toList ++ rest))) := by
  rw [BeginsWith, wordsOf_text hpre, wordsOf_word_mark hname hc]
  exact ⟨wordsOf (cs ++ rest), by simp⟩

theorem Row.value?_code {s : String} {words : List String} {name : String}
    (hwords : words ∈ [["function"], ["export", "function"], ["const"]])
    (h : BeginsWith (words ++ [name]) (s.toList ++ [])) : (Row.code 0 s).value? = some name := by
  rw [List.append_nil] at h
  obtain ⟨rest, h⟩ := h
  show declaredName? _ ((wordsOf s.toList).dropWhile _) = _
  rw [← h]
  simp only [List.mem_cons, List.not_mem_nil, or_false] at hwords
  rcases hwords with rfl | rfl | rfl <;> rfl

theorem Row.value?_method {method : String} (hmethod : IsWord method) (type : String) :
    (Row.code 1 (method ++ "(that: " ++ qualifier ++ type ++ "): rt.JsonObject \x7b")).value?
      = some method := by
  have hsplit : (method ++ "(that: " ++ qualifier ++ type ++ "): rt.JsonObject \x7b").toList
      = method.toList ++ '(' :: (("that: " ++ qualifier ++ type ++ "): rt.JsonObject ").toList
        ++ ['\x7b']) := by
    simp [String.toList_append]
  show methodName? (Token.scan (_ : String).toList) = _
  rw [hsplit, Token.scan_word_mark hmethod rfl, Token.scan_append_mark rfl, methodName?,
    if_pos (by simp [Token.scan]), String.ofList_toList]

/-! ### Routines and tables -/

section Codec

variable {scope : Scope}

theorem exists_value?_signatureRows {stem : String} (h : scope.parser stem) (name : String) :
    ∃ r ∈ signatureRows stem name, r.value? = some (parseRoutine stem) :=
  ⟨_, List.mem_cons_self, Row.value?_code (by decide)
    (.join (.join (.named rfl (scope.isWord_parseRoutine h) rfl)))⟩

theorem exists_value?_facadeRows {stem : String} (h : scope.parser stem) (name summary : String) :
    ∃ r ∈ facadeRows stem name summary, r.value? = some (facadeRoutine stem) :=
  ⟨_, List.mem_append_right _ List.mem_cons_self, Row.value?_code (by decide)
    (.join (.join (.join (.join (.join (.named rfl (scope.isWord_facadeRoutine h) rfl))))))⟩

namespace EnumerationCodec.Within

variable {e : EnumerationCodec} (he : e.Within scope)

include he

theorem exists_value?_fromTableRows : ∃ r ∈ e.fromTableRows, r.value? = some e.fromTable :=
  ⟨_, List.mem_append_left _ (List.mem_append_left _ List.mem_cons_self),
    Row.value?_code (by decide) (.join (.join (.join (.join (.named rfl he.fromTable rfl)))))⟩

theorem exists_value?_toTableRows : ∃ r ∈ e.toTableRows, r.value? = some e.toTable :=
  ⟨_, List.mem_append_left _ (List.mem_append_left _ List.mem_cons_self),
    Row.value?_code (by decide) (.join (.join (.join (.join (.named rfl he.toTable rfl)))))⟩

theorem exists_value?_writeRows : ∃ r ∈ e.writeRows, r.value? = some (writeRoutine e.stem) :=
  ⟨_, List.mem_append_right _ List.mem_cons_self, Row.value?_code (by decide)
    (.join (.join (.join (.join (.join (.named rfl (scope.isWord_writeRoutine he.writer) rfl))))))⟩

end EnumerationCodec.Within

namespace ClassCodec.Within

variable {c : ClassCodec} (hc : c.Within scope) {snippets : Snippets}

include hc

/-- The routine is there unless its snippet is missing, which would be reported. -/
theorem exists_value?_emitParse (h : (c.emitParse snippets).2 = []) :
    ∃ r ∈ (c.emitParse snippets).1, r.value? = some (parseRoutine c.stem) := by
  obtain ⟨r, hr, hname⟩ := exists_value?_signatureRows hc.parser c.type
  refine ⟨r, ?_, hname⟩
  unfold ClassCodec.emitParse at h ⊢
  split at h
  · split at h
    · next hhandwritten _ _ _ =>
      rw [if_pos hhandwritten]
      exact List.mem_append_left _ (List.mem_append_left _ hr)
    · cases h
  · next hgenerated =>
    rw [if_neg hgenerated]
    exact List.mem_append_left _ (List.mem_append_left _ hr)

theorem exists_value?_emitMethod (h : (c.emitMethod snippets).2 = []) :
    ∃ r ∈ (c.emitMethod snippets).1, r.value? = some c.method := by
  refine ⟨_, ?_, Row.value?_method hc.method c.type⟩
  unfold ClassCodec.emitMethod at h ⊢
  split at h
  · split at h
    · next hhandwritten _ _ _ =>
      rw [if_pos hhandwritten]
      exact List.mem_cons_self
    · cases h
  · next hgenerated =>
    rw [if_neg hgenerated]
    exact List.mem_cons_self

end ClassCodec.Within

namespace CodecModule

variable {snippets : Snippets} {m : CodecModule}

theorem declares_toJsonable : m.Declares snippets "toJsonable" := by
  refine ⟨.code 0 "export function toJsonable(that: types.IClass): rt.JsonObject \x7b", ?_,
    by decide⟩
  refine mem_joinBlocks (b := toJsonableRows)
    (List.mem_append_left _ (List.mem_append_right _ ?_)) ?_
  · simp
  · simp [toJsonableRows]

theorem declares_transformer : m.Declares snippets "Transformer" := by
  refine ⟨.code 0 "class Transformer extends types.AbstractTransformer<rt.JsonObject> \x7b", ?_,
    by decide⟩
  refine mem_joinBlocks (List.mem_append_left _ (List.mem_append_right _ List.mem_cons_self)) ?_
  exact List.mem_append_left _ (List.mem_append_left _ (List.mem_append_right _
    (List.mem_singleton_self _)))

variable (h : m.Within scope) (hlog : (m.emit snippets).2 = [])

include h hlog

theorem Within.declares_method {c : ClassCodec} (hc : c ∈ m.classes) :
    m.Declares snippets c.method := by
  obtain ⟨-, hmethods⟩ := List.append_eq_nil_iff.mp hlog
  have hemit : (c.emitMethod snippets).2 = [] :=
    List.flatMap_eq_nil_iff.mp hmethods _ (List.mem_map_of_mem hc)
  obtain ⟨codec, hmem, heq⟩ := List.mem_filterMap.mp hc
  cases codec with
  | enumeration | interface => cases heq
  | classType codec =>
    obtain rfl := Option.some.inj heq
    cases h _ hmem with
    | classType hwithin =>
      obtain ⟨r, hr, hname⟩ := hwithin.exists_value?_emitMethod hemit
      have hjoined : r ∈ joinBlocks ((m.classes.map (ClassCodec.emitMethod snippets)).map (·.1)) :=
        mem_joinBlocks (List.mem_map_of_mem (List.mem_map_of_mem hc)) hr
      refine ⟨r, mem_joinBlocks (List.mem_append_left _ (List.mem_append_right _
        List.mem_cons_self)) ?_, hname⟩
      refine List.mem_append_left _ (List.mem_append_right _ ?_)
      split
      · next hempty =>
        rw [List.isEmpty_iff.mp hempty] at hjoined
        cases hjoined
      · exact hjoined

theorem Within.declares {name : String} (hname : name ∈ m.names) : m.Declares snippets name := by
  obtain ⟨hroutines, -⟩ := List.append_eq_nil_iff.mp hlog
  rcases List.mem_append.mp hname with hname | hname
  · obtain ⟨codec, hmem, hname⟩ := List.mem_flatMap.mp hname
    have hroutine : ∀ {b : Block × Log} {name : String}, b ∈ codec.emitRoutines snippets →
        (∃ r ∈ b.1, r.value? = some name) → m.Declares snippets name := by
      intro b name hb hrow
      obtain ⟨r, hr, hname⟩ := hrow
      refine ⟨r, mem_joinBlocks (List.mem_append_left _ (List.mem_append_left _
        (List.mem_append_right _ ?_))) hr, hname⟩
      exact List.mem_map_of_mem (List.mem_flatMap.mpr ⟨codec, hmem, hb⟩)
    cases h _ hmem with
    | @enumeration e he =>
      have hmem : e ∈ m.enumerations := List.mem_filterMap.mpr ⟨_, hmem, rfl⟩
      have htable : ∀ {b : Block} {name : String}, b ∈ [e.fromTableRows, e.toTableRows] →
          (∃ r ∈ b, r.value? = some name) → m.Declares snippets name := by
        intro b name hb hrow
        obtain ⟨r, hr, hname⟩ := hrow
        refine ⟨r, mem_joinBlocks (List.mem_append_left _ (List.mem_append_left _
          (List.mem_append_left _ (List.mem_append_right _ ?_)))) hr, hname⟩
        exact List.mem_flatMap.mpr ⟨e, hmem, hb⟩
      simp only [TypeCodec.names, List.mem_cons, List.not_mem_nil, or_false] at hname
      rcases hname with rfl | rfl | rfl | rfl | rfl
      · obtain ⟨r, hr, hname⟩ := exists_value?_signatureRows he.parser e.type
        exact hroutine List.mem_cons_self ⟨r, List.mem_append_left _ hr, hname⟩
      · exact hroutine (List.mem_cons_of_mem _ List.mem_cons_self)
          (exists_value?_facadeRows he.parser _ _)
      · obtain ⟨r, hr, hname⟩ := he.exists_value?_writeRows
        exact ⟨r, mem_joinBlocks (List.mem_append_right _ (List.mem_map_of_mem hmem)) hr, hname⟩
      · exact htable List.mem_cons_self he.exists_value?_fromTableRows
      · exact htable (List.mem_cons_of_mem _ List.mem_cons_self) he.exists_value?_toTableRows
    | @interface i hi =>
      simp only [TypeCodec.names, List.mem_cons, List.not_mem_nil, or_false] at hname
      rcases hname with rfl | rfl
      · obtain ⟨r, hr, hname⟩ := exists_value?_signatureRows hi.parser i.type
        refine hroutine List.mem_cons_self ⟨r, ?_, hname⟩
        exact List.mem_append_left _ (List.mem_append_left _ (List.mem_append_left _
          (List.mem_append_left _ hr)))
      · exact hroutine (List.mem_cons_of_mem _ List.mem_cons_self)
          (exists_value?_facadeRows hi.parser _ _)
    | @classType c hc =>
      simp only [TypeCodec.names, List.mem_cons, List.not_mem_nil, or_false] at hname
      rcases hname with rfl | rfl
      · refine hroutine List.mem_cons_self (hc.exists_value?_emitParse ?_)
        exact List.flatMap_eq_nil_iff.mp hroutines _
          (List.mem_flatMap.mpr ⟨_, hmem, List.mem_cons_self⟩)
      · exact hroutine (List.mem_cons_of_mem _ List.mem_cons_self)
          (exists_value?_facadeRows hc.parser _ _)
  · obtain rfl := List.mem_singleton.mp hname
    exact declares_toJsonable

omit h hlog in
/-- The snippet of a class is in the module, row by row. -/
theorem mem_emit_of_parse {c : ClassCodec} (hc : c ∈ m.classes)
    (hhandwritten : c.isHandwritten = true) {text : String}
    (htext : snippets.require (SnippetKey.parse c.name) c.name = .ok text) {r : Row}
    (hr : r ∈ snippetRows 1 text) : r ∈ (m.emit snippets).1 := by
  obtain ⟨codec, hmem, heq⟩ := List.mem_filterMap.mp hc
  cases codec with
  | enumeration | interface => cases heq
  | classType codec =>
    obtain rfl := Option.some.inj heq
    have hparse : r ∈ (codec.emitParse snippets).1 := by
      simp only [ClassCodec.emitParse, hhandwritten, if_true, htext]
      exact List.mem_append_left _ (List.mem_append_right _ hr)
    refine mem_joinBlocks (List.mem_append_left _ (List.mem_append_left _
      (List.mem_append_right _ ?_))) hparse
    exact List.mem_map_of_mem (List.mem_flatMap.mpr ⟨_, hmem, List.mem_cons_self⟩)

end CodecModule

end Codec

end TypeScript

/-! ## Tables that are loaded -/

/-- Every reference of the two generated modules is met, as far as the rows are generated. -/
structure Codec.Plan.ReferencesMet (plan : Plan) (o : Options) (snippets : Snippets) : Prop where
  types : ∀ r ∈ ((TypesModule.of plan o.banner).emit snippets).1,
    (TypesModule.of plan o.banner).HandwrittenRow snippets r
      ∨ r.Typed ((TypesModule.of plan o.banner).Declares snippets)
  codec : ∀ r ∈ ((CodecModule.of plan o).emit snippets).1,
    (CodecModule.of plan o).HandwrittenRow snippets r
      ∨ r.Resolves ((CodecModule.of plan o).Declares snippets)
        ((TypesModule.of plan o.banner).Declares snippets)

namespace Table.Linked

variable {key : String} {t : Table} (h : t.Linked key) {plan : Plan} (hplan : plan.Plans t)
  (o : Options) {snippets : Snippets}

include h hplan

/-- What is in the scope of a table is declared in the modules that are generated from it. -/
theorem met_scope (hlog : ((CodecModule.of plan o).emit snippets).2 = []) :
    t.scope.Met ((CodecModule.of plan o).Declares snippets)
      ((TypesModule.of plan o.banner).Declares snippets) := by
  have hcodec : ∀ {s : NamedType} {n : TopName}, s ∈ t.types → n ∈ s.topNames t →
      (CodecModule.of plan o).Declares snippets n.text := by
    intro s n hs hn
    refine (h.codecModule_within hplan o).declares hlog ?_
    rw [names_codecModule hplan]
    exact List.mem_map_of_mem (List.mem_append_left _ (List.mem_flatMap.mpr ⟨s, hs, hn⟩))
  constructor
  case typed =>
    rintro name ⟨-, rfl | ⟨s, hs, hname⟩⟩
    · exact TypesModule.declares_root snippets
    · refine (h.typesModule_within hplan o.banner).declares snippets ?_
      rw [names_typesModule hplan]
      exact List.mem_flatMap.mpr ⟨s, hs, hname⟩
  case parse =>
    rintro stem ⟨-, s, hs, hstem⟩
    exact hcodec (n := ⟨stem, .parse⟩) hs (mem_topNames.mpr hstem)
  case facade =>
    rintro stem ⟨-, s, hs, hstem⟩
    exact hcodec (n := ⟨stem, .facade⟩) hs (mem_topNames.mpr hstem)
  case write =>
    rintro stem ⟨-, e, he, rfl⟩
    exact hcodec (n := ⟨Name.camel e.name, .write⟩) he (mem_topNames.mpr ⟨e, rfl, rfl⟩)
  case root =>
    exact ⟨TypesModule.declares_root snippets, TypesModule.declares_transformer snippets⟩
  case transformer =>
    exact ⟨CodecModule.declares_transformer, CodecModule.declares_toJsonable⟩

theorem references_met (hlog : ((CodecModule.of plan o).emit snippets).2 = []) :
    plan.ReferencesMet o snippets := by
  have hmet := h.met_scope hplan o hlog
  have hwithin := h.codecModule_within hplan o
  constructor
  case types =>
    exact (h.typesModule_within hplan o.banner).typed hmet.typed hmet.root.1 hmet.root.2 snippets
  case codec =>
    exact hwithin.resolves hmet snippets (fun name hname => hwithin.declares hlog hname)
      fun c hc => hwithin.declares_method hlog hc

end Table.Linked

/-- Files are given out only when nothing is reported. -/
theorem Codec.Plan.generate_eq_ok {plan : Plan} {target : Target} {o : Options}
    {snippets : Snippets} {files : List File} (h : plan.generate target o snippets = .ok files) :
    (target.emit plan o snippets).2 = [] ∧ files = (target.emit plan o snippets).1 := by
  simp only [Codec.Plan.generate, Log.finish] at h
  split at h
  · next hempty =>
    have hlog := List.append_eq_nil_iff.mp (List.isEmpty_iff.mp hempty)
    exact ⟨hlog.2, (Except.ok.inj h).symm⟩
  · cases h

/-- **The generated modules are closed under references.** -/
theorem Model.references_closed {o : Options} {value : Json} {table : Table}
    (h : compile value o = .ok table) {snippets : Snippets} {files : List File}
    (hfiles : generate table .typescript o snippets = .ok (.ok files)) :
    ∃ plan, Plan.of table = .ok plan
      ∧ files = [
        ⟨"types.ts", renderFile o.indent ((TypesModule.of plan o.banner).emit snippets).1⟩,
        ⟨"jsonization.ts", renderFile o.indent ((CodecModule.of plan o).emit snippets).1⟩]
      ∧ plan.ReferencesMet o snippets := by
  obtain ⟨plan, hplan, hgenerate⟩ := map_eq_ok_iff.mp hfiles
  obtain ⟨hlog, rfl⟩ := Codec.Plan.generate_eq_ok hgenerate
  have hcodec := (List.append_eq_nil_iff.mp hlog).2
  refine ⟨plan, hplan, rfl, ?_⟩
  exact (Model.linked_of_load h).references_met (Plan.plans_of_eq_ok hplan) o hcodec

theorem exists_files {o : Options} {value : Json} {target : Target} {snippets : Snippets}
    (h : ((compile value o).toOption.any fun t =>
      (generate t target o snippets).toOption.any (·.toOption.isSome)) = true) :
    ∃ table files, compile value o = .ok table
      ∧ generate table target o snippets = .ok (.ok files) := by
  cases hcompile : compile value o with
  | error _ => simp [hcompile, Except.toOption] at h
  | ok table =>
    cases hgenerate : generate table target o snippets with
    | error _ => simp [hcompile, hgenerate, Except.toOption] at h
    | ok result =>
      cases result with
      | error _ => simp [hcompile, hgenerate, Except.toOption] at h
      | ok files => exact ⟨table, files, rfl, hgenerate⟩

/-- A hierarchy with a handwritten class, an enumeration, and a class with a list, an optional field
and a default. -/
def depot : Json :=
  .object [("name", .text "depot"), ("types", .array [
    .object [("kind", .text "enumeration"), ("name", .text "state"), ("literals", .array [
      .object [("name", .text "free"), ("value", .text "f")]])],
    .object [("kind", .text "abstractClass"), ("name", .text "vehicle")],
    .object [("kind", .text "concreteClass"), ("name", .text "tram"),
      ("inheritances", Json.texts ["vehicle"]), ("implementationSpecific", .bool true)],
    .object [("kind", .text "concreteClass"), ("name", .text "track"),
      ("properties", .array [
        .object [("name", .text "vehicles"), ("type", .text "List[vehicle]")],
        .object [("name", .text "state"), ("type", .text "Optional[state]")]]),
      ("constructorArguments", .array [
        .object [("name", .text "vehicles"), ("type", .text "List[vehicle]")],
        .object [("name", .text "state"), ("type", .text "Optional[state]"),
          ("default", .text "free")]])]])]

def depotSnippets : Snippets :=
  [(SnippetKey.declaration "tram", "export class Tram \x7b\x7d"),
    (SnippetKey.parse "tram", "return rt.succeed(new types.Tram());"),
    (SnippetKey.transform "tram", "return \x7b\x7d;")]

theorem depot_closed : ∃ table plan, compile depot {} = .ok table ∧ Plan.of table = .ok plan
    ∧ plan.ReferencesMet {} depotSnippets := by
  have hready : ((compile depot {}).toOption.any fun t =>
      (generate t .typescript {} depotSnippets).toOption.any (·.toOption.isSome)) = true := by
    decide +kernel
  obtain ⟨table, files, hcompile, hfiles⟩ := exists_files hready
  obtain ⟨plan, hplan, -, hmet⟩ := Model.references_closed hcompile hfiles
  exact ⟨table, plan, hcompile, hplan, hmet⟩

/-- One handwritten class, whose snippet mentions a type that nobody declares. -/
def garage : Json :=
  .object [("name", .text "garage"), ("types", .array [
    .object [("kind", .text "concreteClass"), ("name", .text "cart"),
      ("implementationSpecific", .bool true)]])]

def garageSnippets : Snippets :=
  [(SnippetKey.declaration "cart", "export class Cart \x7b\x7d"),
    (SnippetKey.parse "cart", "return new types.Wagon();"),
    (SnippetKey.transform "cart", "return \x7b\x7d;")]

/-- Snippets are copied as they are, so what they refer to is not looked at. -/
theorem garage_refers_to_undeclared : ∃ table plan files, compile garage {} = .ok table
    ∧ Plan.of table = .ok plan
    ∧ generate table .typescript {} garageSnippets = .ok (.ok files)
    ∧ ∃ r ∈ ((CodecModule.of plan {}).emit garageSnippets).1,
      .member "types" "Wagon" ∈ referencesOf r.leading
        ∧ ¬(TypesModule.of plan []).Declares garageSnippets "Wagon" := by
  have hready : ((compile garage {}).toOption.any fun t =>
      (generate t .typescript {} garageSnippets).toOption.any (·.toOption.isSome)) = true := by
    decide +kernel
  obtain ⟨table, files, hcompile, hfiles⟩ := exists_files hready
  obtain ⟨plan, hplan, -⟩ := map_eq_ok_iff.mp hfiles
  have hfacts : ((compile garage {}).toOption.bind fun t => (Plan.of t).toOption).all (fun plan =>
      (CodecModule.of plan {}).classes.any (fun c => c.isHandwritten && c.name == "cart")
      && ((TypesModule.of plan []).emit garageSnippets).1.all (fun r => r.type? != some "Wagon")
      && (TypesModule.of plan []).names.all (· != "Wagon")) = true := by
    decide +kernel
  simp only [hcompile, hplan, Except.toOption, Option.bind_some, Option.all_some,
    Bool.and_eq_true, List.any_eq_true, List.all_eq_true, bne_iff_ne, beq_iff_eq] at hfacts
  obtain ⟨⟨⟨c, hc, hhandwritten, hname⟩, hrows⟩, hnames⟩ := hfacts
  refine ⟨table, plan, files, hcompile, hplan, hfiles, .code 1 "return new types.Wagon();",
    ?_, ?_, ?_⟩
  · have hrequire : garageSnippets.require (SnippetKey.parse c.name) c.name
        = .ok "return new types.Wagon();" := by
      rw [hname]
      decide
    exact CodecModule.mem_emit_of_parse hc hhandwritten hrequire (by decide)
  · decide
  · rintro (⟨r, hr, htype⟩ | ⟨className, hmem, heq⟩)
    · exact hrows r hr htype
    · exact hnames _ (List.mem_map_of_mem hmem) heq.symm

end WireModel
