import WireModel.CommandLine.Run
import WireModel.Proofs.Faultless
import WireModel.Proofs.Forms

/-!
# The stages of a run

A run goes through the configuration, the model, the snippets, generation and writing, and each
stage that fails ends it with a failure of its own. This module says once what can happen:

* **`CommandLine.readInputs_eq_ok_iff`** and **`CommandLine.exitStatus_of_readInputs`**: when the
  inputs are there, and how the run ends when they are not.
* **`exists_plan_of_compile`**: a table that has been read has a plan, so from then on only
  diagnostics can be in the way of files.
* **`CommandLine.runGenerate_ends`**: the five ways in which `generate` ends. What is said about
  its runs is said about these.
-/

namespace WireModel

/-! ## Exit statuses -/

theorem ConfigError.exitStatus_failure (e : ConfigError) : e.failure.exitStatus = 50 := rfl

theorem exitStatus_modelFailure (ds : List Diagnostic) :
    (modelFailure ds).exitStatus = 20 ∨ (modelFailure ds).exitStatus = 21 := by
  rw [modelFailure]
  split
  · exact .inl rfl
  · exact .inr rfl

/-- A failed generation ends with 31 if nothing but snippets is missing, and with 30 otherwise. -/
theorem Failure.exitStatus_generation (ds : List Diagnostic) :
    (Failure.generation ds).exitStatus
      = if ∀ d ∈ ds, d.code = .missingSnippet then 31 else 30 := by
  have hall : (ds.all fun d => d.code == .missingSnippet) = true
      ↔ ∀ d ∈ ds, d.code = .missingSnippet := by simp
  rw [generation]
  split
  · next h => rw [if_pos (hall.mp h)]; rfl
  · next h => rw [if_neg (mt hall.mpr h)]; rfl

/-! ## Generation -/

/-- A model that is compiled has a plan. -/
theorem exists_plan_of_compile {value : Json} {o : Options} {table : Table}
    (h : compile value o = .ok table) : ∃ plan, Codec.Plan.of table = .ok plan :=
  (Model.sound_of_load h).exists_plan

theorem generate_of_plan {table : Table} {plan : Codec.Plan} (h : Codec.Plan.of table = .ok plan)
    (target : Target) (o : Options) (snippets : Snippets) :
    generate table target o snippets = .ok (plan.generate target o snippets) := by
  rw [generate, h]
  rfl

namespace CommandLine

variable {env : Terminal.Environment} {tree : FileTree} {f : Flags}

/-! ## Inputs -/

/-- The snippets that flags name; none if they name no directory. -/
def snippetsOf (tree : FileTree) (f : Flags) : Except Failure Snippets :=
  match f.snippets with
  | some dir => tree.readSnippets ⟨Path.resolve tree.workingDirectory dir, false⟩
  | none => .ok []

/-- The model file that flags name. -/
def modelOf (tree : FileTree) (f : Flags) : Except Failure Json :=
  tree.readModel ⟨Path.resolve tree.workingDirectory (f.model.getD ""), false⟩

theorem readInputs_eq (tree : FileTree) (f : Flags) (o : Options) :
    readInputs tree f o = (modelOf tree f >>= fun value => compileOrFail value o >>= fun table =>
      snippetsOf tree f >>= fun snippets => .ok (table, snippets)) := by
  unfold readInputs modelOf snippetsOf
  cases f.snippets with
  | none => rfl
  | some dir => rfl

theorem compileOrFail_eq_ok_iff {value : Json} {o : Options} {table : Table} :
    compileOrFail value o = .ok table ↔ compile value o = .ok table := by
  rw [compileOrFail]
  cases compile value o with
  | ok other => simp [Except.mapError]
  | error ds => simp [Except.mapError]

/-- **The inputs are there** iff the model can be read and compiled and the snippets can be read. -/
theorem readInputs_eq_ok_iff {o : Options} {table : Table} {snippets : Snippets} :
    readInputs tree f o = .ok (table, snippets) ↔
      (∃ value, modelOf tree f = .ok value ∧ compile value o = .ok table)
        ∧ snippetsOf tree f = .ok snippets := by
  simp only [readInputs_eq, bind_eq_ok_iff, compileOrFail_eq_ok_iff, Except.ok.injEq,
    Prod.mk.injEq]
  constructor
  · rintro ⟨value, hvalue, table, htable, snippets, hsnippets, rfl, rfl⟩
    exact ⟨⟨value, hvalue, htable⟩, hsnippets⟩
  · rintro ⟨⟨value, hvalue, htable⟩, hsnippets⟩
    exact ⟨value, hvalue, table, htable, snippets, hsnippets, rfl, rfl⟩

theorem exitStatus_of_modelOf {e : Failure} (h : modelOf tree f = .error e) :
    e.exitStatus = 60 := by
  unfold modelOf FileTree.readModel at h
  split at h
  · cases h
    rfl
  · split at h <;> cases h
    rfl

theorem exitStatus_of_snippetsOf {e : Failure} (h : snippetsOf tree f = .error e) :
    e.exitStatus = 60 := by
  unfold snippetsOf at h
  split at h
  · unfold FileTree.readSnippets at h
    split at h <;> cases h
    rfl
  · cases h

/-- Inputs that are not there are an input error or an error of the model. -/
theorem exitStatus_of_readInputs {o : Options} {e : Failure}
    (h : readInputs tree f o = .error e) : e.exitStatus ∈ [60, 20, 21] := by
  rw [readInputs_eq] at h
  rcases bind_eq_error_iff.mp h with hmodel | ⟨value, -, h⟩
  · simp [exitStatus_of_modelOf hmodel]
  rcases bind_eq_error_iff.mp h with hcompile | ⟨table, -, h⟩
  · obtain ⟨ds, -, rfl⟩ := compileOrFail_eq_error_iff.mp hcompile
    rcases exitStatus_modelFailure ds with hstatus | hstatus
    · simp [hstatus]
    · simp [hstatus]
  rcases bind_eq_error_iff.mp h with hsnippets | ⟨snippets, -, h⟩
  · simp [exitStatus_of_snippetsOf hsnippets]
  · cases h

/-! ## Writing -/

/-- The place of a file below a directory. -/
def File.placeIn (dir : Path) (file : File) : Path := dir ++ Path.components file.path

namespace FileTree

/-- The tree after files have been written below a directory. -/
def writeAll (dir : Path) (tree : FileTree) (files : List File) : FileTree :=
  files.foldl (fun tree file => tree.write (File.placeIn dir file) file.content) tree

end FileTree

/-- Writing goes on until something is in the way. -/
theorem writeFiles_cases (dir : Path) (verbose : Bool) (log : String) (tree : FileTree)
    (files : List File) :
    (∃ log', writeFiles dir verbose log tree files = (log', tree.writeAll dir files, none))
      ∨ ∃ log' before file after reason, files = before ++ file :: after
        ∧ (tree.writeAll dir before).obstacle? (File.placeIn dir file) = some reason
        ∧ writeFiles dir verbose log tree files
          = (log', tree.writeAll dir before, some (.internal reason)) := by
  induction files generalizing log tree with
  | nil => exact .inl ⟨log, rfl⟩
  | cons file rest ih =>
    rw [writeFiles]
    cases hobstacle : tree.obstacle? (dir ++ Path.components file.path) with
    | some reason => exact .inr ⟨log, [], file, rest, reason, rfl, hobstacle, rfl⟩
    | none =>
      rcases ih _ (tree.write (File.placeIn dir file) file.content) with
        ⟨log', hwrite⟩ | ⟨log', before, other, after, reason, rfl, hblocked, hwrite⟩
      · exact .inl ⟨log', hwrite⟩
      · exact .inr ⟨log', file :: before, other, after, reason, rfl, hblocked, hwrite⟩

/-! ## The ways in which `generate` ends -/

/-- The directory that flags name for the output. -/
def outputOf (tree : FileTree) (f : Flags) : Path :=
  Path.resolve tree.workingDirectory (f.output.getD "")

/-- The five ways in which a run of `generate` ends, by the stage that ends it. -/
inductive GenerateEnds (env : Terminal.Environment) (tree : FileTree) (f : Flags) :
    Outcome → Prop where
  | misconfigured {e : ConfigError} (hconfig : f.configuration = .error e) :
      GenerateEnds env tree f (failed env "" tree e.failure)
  | unread {target : Target} {o : Options} {e : Failure} (log : String)
      (hconfig : f.configuration = .ok (target, o)) (hread : readInputs tree f o = .error e) :
      GenerateEnds env tree f (failed env log tree e)
  | refused {target : Target} {o : Options} {table : Table} {snippets : Snippets}
      {ds : List Diagnostic} (log : String) (hconfig : f.configuration = .ok (target, o))
      (hread : readInputs tree f o = .ok (table, snippets))
      (hgenerate : generate table target o snippets = .ok (.error ds)) :
      GenerateEnds env tree f (failed env log tree (.generation ds))
  | blocked {target : Target} {o : Options} {table : Table} {snippets : Snippets}
      {before after : List File} {file : File} {reason : String} (log : String)
      (hconfig : f.configuration = .ok (target, o))
      (hread : readInputs tree f o = .ok (table, snippets))
      (hgenerate : generate table target o snippets = .ok (.ok (before ++ file :: after)))
      (hobstacle : (tree.writeAll (outputOf tree f) before).obstacle?
        (File.placeIn (outputOf tree f) file) = some reason) :
      GenerateEnds env tree f
        (failed env log (tree.writeAll (outputOf tree f) before) (.internal reason))
  | written {target : Target} {o : Options} {table : Table} {snippets : Snippets}
      {files : List File} (log : String) (hconfig : f.configuration = .ok (target, o))
      (hread : readInputs tree f o = .ok (table, snippets))
      (hgenerate : generate table target o snippets = .ok (.ok files)) :
      GenerateEnds env tree f ⟨0, "", log, tree.writeAll (outputOf tree f) files⟩

/-- **Every run of `generate` ends in one of these ways.** -/
theorem runGenerate_ends (env : Terminal.Environment) (tree : FileTree) (f : Flags) :
    GenerateEnds env tree f (runGenerate env tree f) := by
  unfold runGenerate
  split
  · next e hconfig => exact .misconfigured hconfig
  · next target o hconfig =>
    generalize (if f.verbose then configurationLog target o else "") = log
    cases hread : readInputs tree f o with
    | error e => exact .unread log hconfig hread
    | ok inputs =>
      obtain ⟨table, snippets⟩ := inputs
      obtain ⟨⟨value, -, hcompile⟩, -⟩ := readInputs_eq_ok_iff.mp hread
      -- a table that was compiled has a plan, so generation gives a result
      obtain ⟨plan, hplan⟩ := exists_plan_of_compile hcompile
      have hgenerate := generate_of_plan hplan target o snippets
      cases hresult : plan.generate target o snippets with
      | error ds =>
        rw [hresult] at hgenerate
        have hstage : generateOrFail table target o snippets = .error (.generation ds) := by
          rw [generateOrFail, hgenerate]
        simp only [bind, Except.bind, hstage]
        exact .refused log hconfig hread hgenerate
      | ok files =>
        rw [hresult] at hgenerate
        have hstage : generateOrFail table target o snippets = .ok files := by
          rw [generateOrFail, hgenerate]
        simp only [bind, Except.bind, hstage]
        rcases writeFiles_cases (outputOf tree f) f.verbose log tree files with
          ⟨log', hwrite⟩ | ⟨log', before, file, after, reason, rfl, hobstacle, hwrite⟩
        · rw [outputOf] at hwrite
          rw [hwrite]
          exact .written log' hconfig hread hgenerate
        · rw [outputOf] at hwrite
          rw [hwrite]
          exact .blocked log' hconfig hread hgenerate hobstacle

end CommandLine
end WireModel
