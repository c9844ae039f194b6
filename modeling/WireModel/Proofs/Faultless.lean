import WireModel.Compile
import WireModel.Proofs.Closure
import WireModel.Proofs.Planning

/-!
# Generation meets no fault

Two things can go wrong in generation that are not reported but raised: a name without words is to
be put in lower camel case, and an object of an abstract class without an interface is to be
carried. Neither happens with a table that is loaded, wherever generators look.

* Names of types, properties and arguments are identifiers, and so are the properties that
  descriptions refer to, because a reference leads to a property of the table. A slot is named by
  its argument behind a word of its own, so it has words whatever the argument is.
* An abstract class has an implementer, so it has descendants and hence an interface.

`Table.Faultless` says so place by place, and **`Model.generation_total`** that every target then
gives files or at least one diagnostic.
-/

namespace WireModel

open TypeScript Codec

/-! ## Names with words -/

namespace Name

/-- The name can be put in lower camel case. -/
def Worded (name : String) : Prop := camel? name = .ok (camel name)

theorem worded_of_words_ne_nil {name : String} (h : words name ≠ []) : Worded name := by
  unfold Worded camel?
  rw [if_neg (by simpa using h)]

theorem worded_of_isIdentifier {name : String} (h : isIdentifier name = true) : Worded name :=
  worded_of_words_ne_nil (words_ne_nil h)

/-- A word and an underscore in front of a name are one more word. -/
theorem words_the (name : String) : words ("the_" ++ name) = "the" :: words name := by
  have hsplit : ("the_" ++ name).toList.splitOn '_'
      = ['t', 'h', 'e'] :: name.toList.splitOn '_' := by
    rw [String.toList_append, show "the_".toList = ['t', 'h', 'e', '_'] from rfl]
    simp [List.splitOn_cons_eq_if_modifyHead]
  rw [words, hsplit]
  rfl

/-- The slot of an argument is the lower camel form of its name behind a word. -/
theorem camel?_slot (argument : String) :
    camel? ("the_" ++ argument) = .ok (slotName argument) := by
  rw [worded_of_words_ne_nil (by simp [words_the]), camel, words_the]
  rfl

end Name

/-! ## Tables without faults -/

/-- Nothing that a generator does with the table is a fault. -/
structure Table.Faultless (t : Table) : Prop where
  types : ∀ s ∈ t.types, Name.Worded s.name
  carriers : ∀ c ∈ t.classes, ∃ carrier, t.classCarrier c = .ok carrier
  implementers : ∀ i ∈ t.interfaces, ∀ name ∈ i.implementers, Name.Worded name
  properties : ∀ c ∈ t.classes, ∀ p ∈ c.properties,
    Name.Worded p.name ∧ ∃ strategy, t.strategy p.type = .ok strategy
  arguments : ∀ c ∈ t.classes, ∀ a ∈ c.arguments,
    Name.Worded a.name ∧ ∃ strategy, t.strategy a.type = .ok strategy
  slots : ∀ c ∈ t.classes, ∀ a ∈ c.arguments,
    Name.camel? ("the_" ++ a.name) = .ok (slotName a.name)
  references : ∀ owner property declaredBy,
    .propertyRef owner property declaredBy ∈ t.inlines → Name.Worded property

theorem Table.Sound.faultless {key : String} {t : Table} (h : t.Sound key) (hclosed : t.Closed) :
    t.Faultless := by
  constructor
  case types => exact fun s hs => Name.worded_of_isIdentifier (h.identified s hs)
  case carriers => exact fun c hc => h.exists_classCarrier hc
  case implementers =>
    intro i hi name hname
    obtain ⟨c, hc, rfl⟩ := h.implementers_declared i hi name hname
    exact Name.worded_of_isIdentifier (h.isIdentifier_of_mem_classes hc)
  case properties =>
    intro c hc p hp
    have hsound := h.classes c hc
    exact ⟨Name.worded_of_isIdentifier (hsound.properties_identified p hp),
      h.exists_strategy (hsound.properties_known p hp)⟩
  case arguments =>
    intro c hc a ha
    have hsound := h.classes c hc
    exact ⟨Name.worded_of_isIdentifier (hsound.isIdentifier_argument ha),
      h.exists_strategy (hsound.arguments_known a ha)⟩
  case slots => exact fun c _ a _ => Name.camel?_slot a.name
  case references =>
    intro owner property declaredBy hinline
    -- the reference leads to a property of a class of the table
    cases hclosed.inlines _ hinline with
    | @propertyRef _ c p hfind hp =>
      have hc := Table.mem_classes.mpr (List.mem_of_find?_eq_some hfind)
      exact Name.worded_of_isIdentifier ((h.classes c hc).properties_identified p hp)

/-! ## Results -/

/-- Files are held back only where there is something to report. -/
theorem Log.finish_ne_error_nil (log : Log) (files : List File) :
    log.finish files ≠ .error [] := by
  unfold finish
  cases log with
  | nil => exact fun h => nomatch h
  | cons d log => exact fun h => nomatch h

/-- **Generation gives a result for every target**, whatever the options and the snippets are. -/
theorem Model.generation_total {o : Options} {value : Json} {table : Table}
    (h : compile value o = .ok table) (snippets : Snippets) :
    table.Faultless ∧ ∀ target, ∃ result,
      generate table target o snippets = .ok result ∧ result ≠ .error [] := by
  have hsound := Model.sound_of_load h
  obtain ⟨document, -, hclean, -, rfl⟩ := Model.clean_of_load h
  refine ⟨hsound.faultless hclean.closed_table, fun target => ?_⟩
  obtain ⟨plan, hplan⟩ := hsound.exists_plan
  refine ⟨plan.generate target o snippets, ?_, Log.finish_ne_error_nil _ _⟩
  exact map_eq_ok_iff.mpr ⟨plan, hplan, rfl⟩

/-- A class outside any hierarchy, an enumeration without literals, an abstract class whose only
implementer is handwritten, and fields of all of them. -/
def workshop : Json :=
  .object [("name", .text "workshop"), ("types", .array [
    .object [("kind", .text "enumeration"), ("name", .text "finish"), ("literals", .array [])],
    .object [("kind", .text "abstractClass"), ("name", .text "tool")],
    .object [("kind", .text "concreteClass"), ("name", .text "hand_made"),
      ("inheritances", Json.texts ["tool"]), ("implementationSpecific", .bool true)],
    .object [("kind", .text "concreteClass"), ("name", .text "bench"),
      ("properties", .array [
        .object [("name", .text "tools"), ("type", .text "List[tool]"),
          ("description", .text "Next to :attr:`finish`.")],
        .object [("name", .text "finish"), ("type", .text "Optional[finish]")]])]])]

/-- One snippet of the handwritten class is not JSON, and the others are missing. -/
theorem workshop_total : ∃ table, compile workshop {} = .ok table ∧ table.Faultless
    ∧ ∀ target, ∃ result,
      generate table target {} [(SnippetKey.schemaDefinition "hand_made", "\x7b")] = .ok result
        ∧ result ≠ .error [] := by
  have hloads : (Model.load "modelType" workshop).toOption.isSome = true := by decide +kernel
  obtain ⟨table, hload⟩ := Model.exists_table hloads
  have hcompile : compile workshop {} = .ok table := hload
  exact ⟨table, hcompile, Model.generation_total hcompile _⟩

end WireModel
