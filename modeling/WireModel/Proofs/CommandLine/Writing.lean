import WireModel.Proofs.CommandLine.Arguments
import WireModel.Proofs.CommandLine.Stages
import WireModel.Proofs.Declarations

/-!
# What a run of `generate` writes

Writing a file changes what is read at its own path and nothing else
(`CommandLine.FileTree.read?_write`), and so does writing one file after the other
(`CommandLine.FileTree.receives_writeAll`). Together with the ways in which `generate` ends:

* **`CommandLine.runGenerate_confined`**: a run that ends with an error of the configuration, of
  the inputs, of the model or of generation leaves all files as they were, and a run that succeeds
  writes the outputs of its target and nothing else. This is said of flags, and
  **`CommandLine.generate_confined`** says it of command lines.
-/

namespace WireModel

/-! ## Outputs -/

namespace Target

/-- The names of the files of a target. -/
def outputs : Target → List String
  | .typescript => ["types.ts", "jsonization.ts"]
  | .jsonschema => ["schema.json"]
  | .markdown => ["reference.md"]
  | .html => ["reference.html"]

theorem outputs_nodup (target : Target) : target.outputs.Nodup := by
  cases target <;> decide

/-- The name of an output is a single component of a path. -/
theorem components_of_mem_outputs {target : Target} {name : String} (h : name ∈ target.outputs) :
    CommandLine.Path.components name = [name] := by
  revert name
  cases target <;> decide

theorem map_path_emit (target : Target) (plan : Codec.Plan) (o : Options) (snippets : Snippets) :
    (target.emit plan o snippets).1.map File.path = target.outputs := by
  cases target <;> rfl

end Target

/-- The files that are generated are the outputs of the target. -/
theorem map_path_of_generate {table : Table} {target : Target} {o : Options} {snippets : Snippets}
    {files : List File} (h : generate table target o snippets = .ok (.ok files)) :
    files.map File.path = target.outputs := by
  obtain ⟨plan, -, hgenerate⟩ := map_eq_ok_iff.mp h
  obtain ⟨-, rfl⟩ := Codec.Plan.generate_eq_ok hgenerate
  exact target.map_path_emit plan o snippets

namespace CommandLine

/-! ## Writing files -/

namespace FileTree

/-- **Writing a file** changes what is read at its path. -/
theorem read?_write (tree : FileTree) (path : Path) (content : String) (other : Path) :
    (tree.write path content).read? other
      = if other = path then some content else tree.read? other := by
  rw [write]
  split
  · next hfile => exact lookup_replace_of_isSome hfile content other
  · next hfile =>
    have hnone : tree.files.lookup path = none := Option.not_isSome_iff_eq_none.mp hfile
    rw [read?, List.lookup_append]
    by_cases hother : other = path
    · simp [hother, hnone]
    · simp [hother, read?, List.lookup_cons, beq_false_of_ne hother]

/-- A tree after files have been written into a directory of another one: it holds these files,
and otherwise what was there before. -/
structure Receives (before : FileTree) (dir : Path) (files : List File) (after : FileTree) :
    Prop where
  written : ∀ file ∈ files, after.read? (dir ++ [file.path]) = some file.content
  kept : ∀ path, (∀ file ∈ files, path ≠ dir ++ [file.path]) →
    after.read? path = before.read? path
  workingDirectory : after.workingDirectory = before.workingDirectory
  directories : after.directories = before.directories

theorem Receives.refl (tree : FileTree) (dir : Path) : tree.Receives dir [] tree :=
  ⟨nofun, fun _ _ => rfl, rfl, rfl⟩

/-- One more file, of another name than the files before it. -/
theorem Receives.write {before after : FileTree} {dir : Path} {files : List File}
    (h : before.Receives dir files after) {file : File} (hnew : file.path ∉ files.map File.path) :
    before.Receives dir (files ++ [file]) (after.write (dir ++ [file.path]) file.content) where
  written other hother := by
    rw [read?_write]
    rcases List.mem_append.mp hother with hother | hother
    · -- the new file has a name of its own, so it does not replace one of those before it
      have hne : dir ++ [other.path] ≠ dir ++ [file.path] := by
        intro heq
        have hpath : other.path = file.path := by simpa using heq
        exact hnew (hpath ▸ List.mem_map_of_mem hother)
      rw [if_neg hne, h.written other hother]
    · rw [List.mem_singleton.mp hother, if_pos rfl]
  kept path hpath := by
    rw [read?_write, if_neg (hpath file (by simp))]
    exact h.kept path fun other hother => hpath other (List.mem_append_left _ hother)
  workingDirectory := by
    rw [FileTree.write]
    split <;> exact h.workingDirectory
  directories := by
    rw [FileTree.write]
    split <;> exact h.directories

/-- **Writing files one after the other**: each of them is there at the end, and nothing else
has changed. -/
theorem receives_writeAll (tree : FileTree) (dir : Path) {files : List File}
    (hname : ∀ file ∈ files, Path.components file.path = [file.path])
    (hnodup : (files.map File.path).Nodup) :
    tree.Receives dir files (tree.writeAll dir files) := by
  -- from the end: the last file comes on top of what the files before it have made
  induction files using List.reverseRecOn with
  | nil => exact .refl tree dir
  | append_singleton files file ih =>
    rw [List.map_append, List.nodup_append'] at hnodup
    obtain ⟨hfiles, -, hdisjoint⟩ := hnodup
    have hnew : file.path ∉ files.map File.path := fun hmem => hdisjoint hmem (by simp)
    have hplace : File.placeIn dir file = dir ++ [file.path] := by
      rw [File.placeIn, hname file (by simp)]
    rw [writeAll, List.foldl_append, List.foldl_cons, List.foldl_nil, hplace]
    exact (ih (fun other hother => hname other (List.mem_append_left _ hother)) hfiles).write hnew

end FileTree

/-- A part of the files that are generated can be written to a directory. -/
theorem receives_of_generate {table : Table} {target : Target} {o : Options} {snippets : Snippets}
    {files : List File} (h : generate table target o snippets = .ok (.ok files)) (tree : FileTree)
    (dir : Path) {part : List File} (hpart : part.Sublist files) :
    tree.Receives dir part (tree.writeAll dir part) := by
  have hpaths := map_path_of_generate h
  have hsub : (part.map File.path).Sublist target.outputs := hpaths ▸ hpart.map File.path
  refine tree.receives_writeAll dir ?_ (target.outputs_nodup.sublist hsub)
  intro file hfile
  exact Target.components_of_mem_outputs (hsub.subset (List.mem_map_of_mem hfile))

/-! ## Runs -/

/-- The exit statuses of the errors of the configuration, of the inputs, of the model and of
generation. -/
def reportedStatuses : List Nat := [50, 60, 20, 21, 30, 31]

/-- What a run of `generate` has done to the files. -/
structure Outcome.Confined (tree : FileTree) (f : Flags) (outcome : Outcome) : Prop where
  /-- A run that reports an error has left them as they were. -/
  failed : outcome.exitStatus ∈ reportedStatuses → outcome.files = tree
  /-- A run that succeeds has written the outputs of its target as they were generated. -/
  succeeded : outcome.exitStatus = 0 → ∃ output target o table snippets files,
    f.output = some output ∧ f.configuration = .ok (target, o)
      ∧ readInputs tree f o = .ok (table, snippets)
      ∧ generate table target o snippets = .ok (.ok files)
      ∧ files.map File.path = target.outputs
      ∧ tree.Receives (Path.resolve tree.workingDirectory output) files outcome.files
  /-- A run that ends in any other way has met with something in the way of an output, after the
  outputs before it have been written. -/
  stopped : outcome.exitStatus ∉ 0 :: reportedStatuses → outcome.exitStatus = 99
    ∧ ∃ output, ∃ target : Target, ∃ before file after, f.output = some output
      ∧ (before ++ file :: after).map File.path = target.outputs
      ∧ tree.Receives (Path.resolve tree.workingDirectory output) before outcome.files
      ∧ (outcome.files.obstacle?
          (Path.resolve tree.workingDirectory output ++ [file.path])).isSome = true

/-- An error that is reported before anything is written. -/
theorem confined_failed {env : Terminal.Environment} {log : String} {tree : FileTree} {f : Flags}
    {e : Failure} (h : e.exitStatus ∈ reportedStatuses) :
    (failed env log tree e).Confined tree f where
  failed _ := rfl
  succeeded hstatus := by
    have hzero : 0 ∉ reportedStatuses := by decide
    exact absurd (hstatus ▸ h) hzero
  stopped hstatus := absurd (List.mem_cons_of_mem 0 h) hstatus

theorem outputOf_eq {tree : FileTree} {f : Flags} {output : String} (h : f.output = some output) :
    outputOf tree f = Path.resolve tree.workingDirectory output := by
  rw [outputOf, h]
  rfl

/-- In whichever way `generate` ends, it has written outputs at most. -/
theorem GenerateEnds.confined {env : Terminal.Environment} {tree : FileTree} {f : Flags}
    {outcome : Outcome} (h : GenerateEnds env tree f outcome) {output : String}
    (houtput : f.output = some output) : outcome.Confined tree f := by
  cases h with
  | misconfigured hconfig => exact confined_failed (by rw [ConfigError.exitStatus_failure]; decide)
  | unread log hconfig hread =>
    have hstatuses : [60, 20, 21] ⊆ reportedStatuses := by decide
    exact confined_failed (hstatuses (exitStatus_of_readInputs hread))
  | refused log hconfig hread hgenerate =>
    refine confined_failed ?_
    rw [Failure.exitStatus_generation]
    split <;> decide
  | @blocked target o table snippets before after file reason log hconfig hread hgenerate
      hobstacle =>
    have hpaths := map_path_of_generate hgenerate
    have hplace : File.placeIn (outputOf tree f) file
        = Path.resolve tree.workingDirectory output ++ [file.path] := by
      have hmem : file.path ∈ target.outputs := hpaths ▸ List.mem_map_of_mem (by simp)
      rw [File.placeIn, outputOf_eq houtput, Target.components_of_mem_outputs hmem]
    have hwritten := receives_of_generate hgenerate tree (outputOf tree f)
      (List.sublist_append_left before (file :: after))
    refine ⟨fun hstatus => ?_, nofun, fun _ => ⟨rfl, output, target, before, file, after, houtput,
      hpaths, ?_, ?_⟩⟩
    · -- 99 is no status of an error that is reported
      exact absurd hstatus (by change 99 ∉ reportedStatuses; decide)
    · exact outputOf_eq houtput ▸ hwritten
    · rw [← hplace]
      exact Option.isSome_iff_exists.mpr ⟨reason, hobstacle⟩
  | written log hconfig hread hgenerate =>
    have hwritten := receives_of_generate hgenerate tree (outputOf tree f) (List.Sublist.refl _)
    rw [outputOf_eq houtput] at hwritten ⊢
    exact ⟨nofun, fun _ => ⟨output, _, _, _, _, _, houtput, hconfig, hread, hgenerate,
      map_path_of_generate hgenerate, hwritten⟩, fun hstatus => absurd List.mem_cons_self hstatus⟩

/-- **What flags make `generate` write.** -/
theorem runGenerate_confined (env : Terminal.Environment) (tree : FileTree) {f : Flags}
    (h : (Command.generate f).HasRequired) : (runGenerate env tree f).Confined tree f := by
  obtain ⟨output, houtput⟩ := Option.isSome_iff_exists.mp h.2
  exact (runGenerate_ends env tree f).confined houtput

/-- **A failing run of `generate` changes no file, a succeeding one only its outputs.** -/
theorem generate_confined (env : Terminal.Environment) (tree : FileTree) {arguments : List String}
    {f : Flags} (h : Command.parse arguments = .ok (.generate f)) :
    (run env tree arguments).Confined tree f := by
  rw [run, h]
  exact runGenerate_confined env tree (Command.isParser_parse.required h)

/-- A directory with the model of one handwritten class, and with a file that is none of ours. -/
def yard : FileTree where
  workingDirectory := ["work"]
  files :=
    [(["work", "garage.json"],
        "\x7b\"name\":\"garage\",\"types\":[\x7b\"kind\":\"concreteClass\",\"name\":\"cart\","
          ++ "\"implementationSpecific\":true\x7d]\x7d"),
      (["work", "notes"], "kept")]

/-- The reference of the model is written. Its codec is not, because snippets are missing; and
below a file there is no place for an output. -/
theorem yard_confined :
    (run {} yard ["generate", "-m", "garage.json", "-o", "out", "-t", "markdown"]).Confined yard
        { model := some "garage.json", output := some "out", target := some "markdown" }
      ∧ (run {} yard ["generate", "-m", "garage.json", "-o", "out", "-t", "markdown"]).exitStatus
        = 0
      ∧ (run {} yard ["generate", "--model=garage.json", "-oout"]).Confined yard
        { model := some "garage.json", output := some "out" }
      ∧ (run {} yard ["generate", "--model=garage.json", "-oout"]).exitStatus = 31
      ∧ (run {} yard ["generate", "-m", "garage.json", "-o", "notes", "-t", "html"]).Confined yard
        { model := some "garage.json", output := some "notes", target := some "html" }
      ∧ (run {} yard ["generate", "-m", "garage.json", "-o", "notes", "-t", "html"]).exitStatus
        = 99 :=
  ⟨generate_confined {} yard (by decide +kernel), by decide +kernel,
    generate_confined {} yard (by decide +kernel), by decide +kernel,
    generate_confined {} yard (by decide +kernel), by decide +kernel⟩

end CommandLine
end WireModel
