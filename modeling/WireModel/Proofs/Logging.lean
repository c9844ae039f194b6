import WireModel.Proofs.SnippetReports

/-!
# Logs that are handed on

An emitter can be handed the log so far and hand it on: it asks for snippets with `Log.snippet` and
reports with `Log.report`. The emitters of the targets give out what they have to report instead,
and the logs are put together afterwards. Both ways make the same log, because a request adds to a
log what is wrong with the snippet and nothing else, whatever the log is.

* **`Log.snippet_eq`** and **`Log.definition_eq`**: what one request gives and adds.
* **`Target.foldl_passes`**: what is added when the log is handed through the passes of a target.
* **`Codec.Plan.generate_eq_finish`**: so generation hands on one log from the constructors to the
  end.
-/

namespace WireModel

open Codec

variable (snippets : Snippets)

/-! ## One request -/

namespace Log

theorem snippet_eq (log : Log) (key : String → String) (name : String) :
    log.snippet snippets (key name) name
      = ((snippets.require (key name) name).toOption,
        log ++ (snippets.missing? key name).toList) := by
  unfold snippet Snippets.require Snippets.missing?
  cases snippets.lookup (key name) with
  | none => rfl
  | some text => simp [Except.toOption]

/-- Asks for the definition of a class in the schema. One that is not a JSON object is reported. -/
def definition (log : Log) (name : String) : Option Json.Members × Log :=
  let key := SnippetKey.schemaDefinition name
  match log.snippet snippets key name with
  | (none, log) => (none, log)
  | (some text, log) =>
    match Json.parse? text with
    | some (.object members) => (some members, log)
    | some _ => (none, log.report (.snippetNotObject key name))
    | none => (none, log.report (.malformedSnippet key name))

theorem definition_eq (log : Log) (name : String) :
    log.definition snippets name
      = ((Schema.ofSnippet snippets name).toOption, log ++ (snippets.unfit? name).toList) := by
  simp only [definition, snippet, Schema.ofSnippet, Snippets.require, Snippets.unfit?]
  cases snippets.lookup (SnippetKey.schemaDefinition name) with
  | none => rfl
  | some text =>
    dsimp only
    cases Json.parse? (Text.trimEnd text) with
    | none => rfl
    | some value => cases value <;> simp [report, Except.toOption]

/-! ## Passes -/

/-- Steps that add to a log whatever it is add one after the other. -/
theorem foldl_eq_append {α : Type} {step : Log → α → Log} {problem : α → Option Diagnostic}
    (h : ∀ log a, step log a = log ++ (problem a).toList) (items : List α) (log : Log) :
    items.foldl step log = log ++ items.filterMap problem := by
  induction items generalizing log with
  | nil => rw [List.foldl_nil, List.filterMap_nil, List.append_nil]
  | cons a items ih =>
    rw [List.foldl_cons, ih, h, List.append_assoc, List.filterMap_cons]
    cases problem a <;> rfl

/-- Reports that are made one after the other. -/
theorem foldl_report (ds log : Log) : ds.foldl report log = log ++ ds := by
  have hstep : ∀ (log : Log) (d : Diagnostic), log.report d = log ++ (some d).toList :=
    fun _ _ => rfl
  rw [foldl_eq_append hstep, List.filterMap_some]

end Log

namespace Target

/-- The passes of a target over handwritten classes. Each is handed the log at each class. -/
def passes : Target → List (Log → String → Log)
  | .typescript =>
    [SnippetKey.declaration, SnippetKey.parse, SnippetKey.transform].map
      fun key log name => (log.snippet snippets (key name) name).2
  | .jsonschema => [fun log name => (log.definition snippets name).2]
  | .markdown | .html => []

/-- **What the passes of a target add to a log** is what the target finds wrong with snippets. -/
theorem foldl_passes (target : Target) (names : List String) (log : Log) :
    (target.passes snippets).foldl (fun log pass => names.foldl pass log) log
      = log ++ target.snippetProblems snippets names := by
  have hsnippet (key : String → String) (log : Log) :
      names.foldl (fun log name => (log.snippet snippets (key name) name).2) log
        = log ++ names.filterMap (snippets.missing? key) :=
    Log.foldl_eq_append (fun log name => by rw [Log.snippet_eq]) names log
  cases target with
  | typescript =>
    simp only [passes, List.map_cons, List.map_nil, List.foldl_cons, List.foldl_nil, hsnippet,
      snippetProblems, List.append_assoc]
  | jsonschema =>
    exact Log.foldl_eq_append (fun log name => by rw [Log.definition_eq]) names log
  | markdown => exact log.append_nil.symm
  | html => exact log.append_nil.symm

end Target

/-- **Generation hands on one log**, from the constructors through the passes of the target, and
gives out the files if nothing has been reported at the end. -/
theorem Codec.Plan.generate_eq_finish {t : Table} {plan : Plan} (h : plan.Plans t)
    (target : Target) (o : Options) :
    plan.generate target o snippets
      = Log.finish ((target.passes snippets).foldl (fun log pass => t.handwritten.foldl pass log)
          (t.constructorDiagnostics.foldl Log.report []))
        (target.emit plan o snippets).1 := by
  rw [target.foldl_passes, Log.foldl_report, List.nil_append, ← Target.log_emit h snippets target o,
    ← h.table_eq]
  rfl

end WireModel
