import WireModel.Proofs.CommandLine.Arguments
import WireModel.Proofs.CommandLine.Stages

/-!
# What `check` says about `generate`

`check` and `generate` go the same way with options of their own. What they have in common is the
discriminator key: nothing that is reported depends on the other options
(`Target.reports_congr`), so one run of `check` stands for the runs of `generate` with any of them.

* **`CommandLine.runCheck_output_iff`** and **`CommandLine.GenerateEnds.exitStatus_iff`**: `check`
  is content iff no target has anything to report, and `generate` iff its own has not.
* **`CommandLine.runCheck_predicts_runGenerate`**: with the flags of one, `check` says `ok` iff no
  run of `generate` with flags for the same inputs fails; else it shows what the targets report, in
  their order, each line once.
* **`CommandLine.check_predicts_generate`** carries this over to command lines. It takes both facts
  about the parser: no command line gives `generate` other flags, and none of these is missed.
-/

namespace WireModel

/-! ## Reports -/

theorem Target.mem_all (target : Target) : target ∈ Target.all := by
  cases target <;> decide

/-- What was reported instead of files. -/
def Generation.reported : Generation → List Diagnostic
  | .error ds => ds
  | .ok _ => []

/-- What is reported about a model when the files of a target are to be generated from it. -/
def Target.reports (target : Target) (table : Table) (o : Options) (snippets : Snippets) :
    List Diagnostic :=
  match generate table target o snippets with
  | .ok result => Generation.reported result
  | .error _ => []

/-- What all targets report, in their order, with each line at its first place. -/
def allReports (table : Table) (o : Options) (snippets : Snippets) : List Diagnostic :=
  firstPlaces Diagnostic.line (Target.all.flatMap fun target => target.reports table o snippets)

theorem allReports_eq_nil_iff {table : Table} {o : Options} {snippets : Snippets} :
    allReports table o snippets = [] ↔ ∀ target : Target, target.reports table o snippets = [] := by
  have hall : (Target.all.flatMap fun target => target.reports table o snippets) = []
      ↔ ∀ target : Target, target.reports table o snippets = [] := by
    rw [List.flatMap_eq_nil_iff]
    exact ⟨fun h target => h target target.mem_all, fun h target _ => h target⟩
  rw [← hall, allReports, ← distinctBy_eq_firstPlaces]
  constructor
  · intro h
    by_contra hne
    exact Diagnostic.distinct_ne_nil hne h
  · intro h
    rw [h]
    rfl

theorem Log.reported_finish (log : Log) (files : List File) :
    Generation.reported (log.finish files) = log := by
  unfold finish
  split
  · next hempty => exact (List.isEmpty_iff.mp hempty).symm
  · rfl

/-- Of the options, only the discriminator key matters to what a target reports. -/
theorem Target.log_emit_congr (target : Target) (plan : Codec.Plan) {o p : Options}
    (h : o.discriminatorKey = p.discriminatorKey) (snippets : Snippets) :
    (target.emit plan o snippets).2 = (target.emit plan p snippets).2 := by
  cases target with
  | typescript =>
    -- the modules differ in their banners and imports, and neither of these reports anything
    have hcodecs : (TypeScript.CodecModule.of plan o).codecs
        = (TypeScript.CodecModule.of plan p).codecs := by
      rw [TypeScript.CodecModule.of, TypeScript.CodecModule.of, h]
    have hcodec : ((TypeScript.CodecModule.of plan o).emit snippets).2
        = ((TypeScript.CodecModule.of plan p).emit snippets).2 := by
      simp only [TypeScript.CodecModule.emit, TypeScript.CodecModule.classes, hcodecs]
    have htypes : ((TypeScript.TypesModule.of plan o.banner).emit snippets).2
        = ((TypeScript.TypesModule.of plan p.banner).emit snippets).2 := rfl
    simp only [Target.emit, htypes, hcodec]
  | jsonschema => rw [Target.emit, Target.emit, h]
  | markdown => rfl
  | html => rfl

/-- Generation is never refused for nothing. -/
theorem ne_nil_of_generate {table : Table} {target : Target} {o : Options} {snippets : Snippets}
    {ds : List Diagnostic} (h : generate table target o snippets = .ok (.error ds)) : ds ≠ [] := by
  obtain ⟨plan, -, hgenerate⟩ := map_eq_ok_iff.mp h
  rintro rfl
  exact Log.finish_ne_error_nil _ _ hgenerate

section Planned

variable {table : Table} {plan : Codec.Plan} (hplan : Codec.Plan.of table = .ok plan)
  (target : Target) (o : Options) (snippets : Snippets)
include hplan

theorem reports_of_plan : target.reports table o snippets
    = plan.table.constructorDiagnostics ++ (target.emit plan o snippets).2 := by
  rw [Target.reports, generate_of_plan hplan]
  exact Log.reported_finish _ _

theorem Target.reports_congr {p : Options} (h : p.discriminatorKey = o.discriminatorKey) :
    target.reports table p snippets = target.reports table o snippets := by
  rw [reports_of_plan hplan, reports_of_plan hplan, target.log_emit_congr plan h]

/-- **All targets are asked**, one after the other. -/
theorem checkDiagnostics_of_plan :
    checkDiagnostics table o snippets = .ok (allReports table o snippets) := by
  have hresults : (Target.all.mapM fun target => generate table target o snippets)
      = .ok (Target.all.map fun target => plan.generate target o snippets) := by
    simp only [generate_of_plan hplan]
    exact List.mapM_pure
  have hreported : (fun target => Generation.reported (plan.generate target o snippets))
      = fun target => target.reports table o snippets := by
    funext target
    rw [Target.reports, generate_of_plan hplan]
  rw [checkDiagnostics, hresults, allReports, ← distinctBy_eq_firstPlaces, ← hreported,
    ← List.flatMap_map]
  rfl

end Planned

namespace CommandLine

variable {env : Terminal.Environment} {tree : FileTree} {f g : Flags} {o p : Options}

/-! ## Inputs in common -/

/-- Flags that name the same model, snippets and discriminator key. -/
structure Flags.SharesInputs (g f : Flags) : Prop where
  model : g.model = f.model
  snippets : g.snippets = f.snippets
  discriminatorKey : g.discriminatorKey = f.discriminatorKey

theorem discriminatorKey_of_settings {settings : Settings} (h : f.settings = .ok settings) :
    settings.discriminatorKey = f.discriminatorKey := by
  unfold Flags.settings at h
  dsimp only at h
  split at h
  · obtain ⟨indent, -, hsettings⟩ := bind_eq_ok_iff.mp h
    cases hsettings
    rfl
  · cases h
    rfl

/-- The discriminator key that flags ask for. -/
theorem discriminatorKey_of_options (h : f.options = .ok o) :
    o.discriminatorKey = f.discriminatorKey.getD "modelType" := by
  obtain ⟨settings, hsettings, hresolve⟩ := bind_eq_ok_iff.mp h
  unfold Options.resolve at hresolve
  dsimp only at hresolve
  split at hresolve
  · cases hresolve
  · cases hresolve
    rw [Options.ofSettings, discriminatorKey_of_settings hsettings]

/-- The same inputs, read under the same discriminator key, are the same. -/
theorem Flags.SharesInputs.readInputs_congr (h : g.SharesInputs f)
    (hkey : p.discriminatorKey = o.discriminatorKey) :
    readInputs tree g p = readInputs tree f o := by
  have hmodel : modelOf tree g = modelOf tree f := by rw [modelOf, modelOf, h.model]
  have hsnippets : snippetsOf tree g = snippetsOf tree f := by
    rw [snippetsOf, snippetsOf, h.snippets]
  have hcompile : ∀ value, compileOrFail value p = compileOrFail value o := by
    intro value
    rw [compileOrFail, compileOrFail, compile, compile, hkey]
  simp only [readInputs_eq, hmodel, hsnippets, hcompile]

/-- What a target reports about inputs depends on the discriminator key and on no other option. -/
theorem reports_of_readInputs {table : Table} {snippets : Snippets}
    (hread : readInputs tree f o = .ok (table, snippets))
    (hkey : p.discriminatorKey = o.discriminatorKey) (target : Target) :
    target.reports table p snippets = target.reports table o snippets := by
  obtain ⟨⟨value, -, hcompile⟩, -⟩ := readInputs_eq_ok_iff.mp hread
  obtain ⟨plan, hplan⟩ := exists_plan_of_compile hcompile
  exact target.reports_congr hplan o snippets hkey

/-! ## The verdicts of both commands -/

/-- Inputs that are there and about which a target has nothing to report. -/
def Accepts (tree : FileTree) (f : Flags) (o : Options) (target : Target) : Prop :=
  ∃ table snippets, readInputs tree f o = .ok (table, snippets)
    ∧ target.reports table o snippets = []

theorem accepts_iff {target : Target} {table : Table} {snippets : Snippets}
    (hread : readInputs tree f o = .ok (table, snippets)) :
    Accepts tree f o target ↔ target.reports table o snippets = [] := by
  constructor
  · rintro ⟨table, snippets, hok, hreports⟩
    cases hread.symm.trans hok
    exact hreports
  · intro hreports
    exact ⟨table, snippets, hread, hreports⟩

theorem not_accepts_of_unread {target : Target} {e : Failure}
    (hread : readInputs tree f o = .error e) : ¬Accepts tree f o target := by
  rintro ⟨table, snippets, hok, -⟩
  cases hread.symm.trans hok

/-- **`check`** shows what the targets report, or says `ok` if that is nothing. -/
theorem runCheck_of_readInputs (ho : f.options = .ok o) {table : Table} {snippets : Snippets}
    (hread : readInputs tree f o = .ok (table, snippets)) :
    runCheck env tree f = if allReports table o snippets = [] then ⟨0, "ok\n", "", tree⟩
      else failed env "" tree (.generation (allReports table o snippets)) := by
  obtain ⟨⟨value, -, hcompile⟩, -⟩ := readInputs_eq_ok_iff.mp hread
  obtain ⟨plan, hplan⟩ := exists_plan_of_compile hcompile
  rw [runCheck, ho]
  simp only [hread, checkDiagnostics_of_plan hplan]
  cases allReports table o snippets with
  | nil => rfl
  | cons d ds => rfl

theorem runCheck_of_unread (ho : f.options = .ok o) {e : Failure}
    (hread : readInputs tree f o = .error e) : runCheck env tree f = failed env "" tree e := by
  simp only [runCheck, ho, hread]

/-- **`check` says `ok`** iff the inputs are there and no target has anything to report. -/
theorem runCheck_output_iff (ho : f.options = .ok o) :
    (runCheck env tree f).output = "ok\n" ↔ ∀ target, Accepts tree f o target := by
  have hfailed : ∀ e, (failed env "" tree e).output ≠ "ok\n" := by
    intro e
    change "" ≠ "ok\n"
    decide
  cases hread : readInputs tree f o with
  | error e =>
    rw [runCheck_of_unread ho hread]
    exact iff_of_false (hfailed e) fun haccepts =>
      not_accepts_of_unread hread (haccepts .typescript)
  | ok inputs =>
    obtain ⟨table, snippets⟩ := inputs
    simp only [accepts_iff hread, ← allReports_eq_nil_iff, runCheck_of_readInputs ho hread]
    split
    · next hnil => exact iff_of_true rfl hnil
    · next hne => exact iff_of_false (hfailed _) hne

/-- **`generate` fails** because of its inputs or its target iff it does not accept them. -/
theorem GenerateEnds.exitStatus_iff {outcome : Outcome} (h : GenerateEnds env tree g outcome)
    {target : Target} (hconfig : g.configuration = .ok (target, p)) :
    outcome.exitStatus ∈ [60, 20, 21, 30, 31] ↔ ¬Accepts tree g p target := by
  cases h with
  | misconfigured hother => cases hconfig.symm.trans hother
  | unread log hother hread =>
    cases hconfig.symm.trans hother
    have hstatuses : [60, 20, 21] ⊆ [60, 20, 21, 30, 31] := by decide
    exact iff_of_true (hstatuses (exitStatus_of_readInputs hread)) (not_accepts_of_unread hread)
  | refused log hother hread hgenerate =>
    cases hconfig.symm.trans hother
    rw [accepts_iff hread, Target.reports, hgenerate]
    refine iff_of_true ?_ (ne_nil_of_generate hgenerate)
    change (Failure.generation _).exitStatus ∈ _
    rw [Failure.exitStatus_generation]
    split <;> decide
  | blocked log hother hread hgenerate hobstacle =>
    cases hconfig.symm.trans hother
    rw [accepts_iff hread, Target.reports, hgenerate]
    exact iff_of_false (by change 99 ∉ [60, 20, 21, 30, 31]; decide) fun h => h rfl
  | written log hother hread hgenerate =>
    cases hconfig.symm.trans hother
    rw [accepts_iff hread, Target.reports, hgenerate]
    exact iff_of_false (by change 0 ∉ [60, 20, 21, 30, 31]; decide) fun h => h rfl

/-- A run of `generate` for a target that has something to report shows just that. -/
theorem GenerateEnds.eq_failed {outcome : Outcome} (h : GenerateEnds env tree g outcome)
    {target : Target} (hconfig : g.configuration = .ok (target, p)) {table : Table}
    {snippets : Snippets} (hread : readInputs tree g p = .ok (table, snippets))
    (hne : target.reports table p snippets ≠ []) :
    ∃ log, outcome = failed env log tree (.generation (target.reports table p snippets)) := by
  cases h with
  | misconfigured hother => cases hconfig.symm.trans hother
  | unread log hother hunread =>
    cases hconfig.symm.trans hother
    cases hread.symm.trans hunread
  | refused log hother hinputs hgenerate =>
    cases hconfig.symm.trans hother
    cases hread.symm.trans hinputs
    rw [Target.reports, hgenerate]
    exact ⟨log, rfl⟩
  | blocked log hother hinputs hgenerate hobstacle =>
    cases hconfig.symm.trans hother
    cases hread.symm.trans hinputs
    rw [Target.reports, hgenerate] at hne
    exact absurd rfl hne
  | written log hother hinputs hgenerate =>
    cases hconfig.symm.trans hother
    cases hread.symm.trans hinputs
    rw [Target.reports, hgenerate] at hne
    exact absurd rfl hne

/-! ## From one command to the other -/

theorem options_of_configuration {target : Target} (h : g.configuration = .ok (target, p)) :
    g.options = .ok p := by
  obtain ⟨target, -, h⟩ := bind_eq_ok_iff.mp h
  obtain ⟨o, ho, h⟩ := bind_eq_ok_iff.mp h
  cases h
  exact ho

theorem Flags.SharesInputs.discriminatorKey_eq (h : g.SharesInputs f) (ho : f.options = .ok o)
    {target : Target} (hconfig : g.configuration = .ok (target, p)) :
    p.discriminatorKey = o.discriminatorKey := by
  rw [discriminatorKey_of_options (options_of_configuration hconfig), h.discriminatorKey,
    discriminatorKey_of_options ho]

/-- The same inputs have the same reports. -/
theorem Flags.SharesInputs.accepts_congr (h : g.SharesInputs f)
    (hkey : p.discriminatorKey = o.discriminatorKey) {target : Target} :
    Accepts tree g p target ↔ Accepts tree f o target := by
  have hsame : readInputs tree g p = readInputs tree f o := h.readInputs_congr hkey
  cases hread : readInputs tree f o with
  | error e =>
    exact iff_of_false (not_accepts_of_unread (hsame.trans hread)) (not_accepts_of_unread hread)
  | ok inputs =>
    obtain ⟨table, snippets⟩ := inputs
    rw [accepts_iff hread, accepts_iff (hsame.trans hread),
      reports_of_readInputs hread hkey]

/-- The same flags for a target, with a directory for its output. -/
def Flags.forTarget (f : Flags) (target : Target) : Flags :=
  { f with target := some target.name, output := some "out" }

theorem Flags.sharesInputs_forTarget (f : Flags) (target : Target) :
    (f.forTarget target).SharesInputs f :=
  ⟨rfl, rfl, rfl⟩

theorem resolveTarget_name (target : Target) : resolveTarget (some target.name) = .ok target := by
  cases target <;> rfl

/-- Neither the target nor the output is an option. -/
theorem configuration_forTarget (ho : f.options = .ok o) (target : Target) :
    (f.forTarget target).configuration = .ok (target, o) := by
  have hoptions : (f.forTarget target).options = .ok o := ho
  rw [Flags.configuration, hoptions, Flags.forTarget, resolveTarget_name]
  rfl

/-- **What the flags of `check` predict** of `generate` with flags for the same inputs. -/
theorem runCheck_predicts_runGenerate (env : Terminal.Environment) (tree : FileTree)
    (hmodel : f.model.isSome = true) (ho : f.options = .ok o) :
    ((runCheck env tree f).output = "ok\n" ↔
        ∀ g target p, (Command.generate g).HasRequired → g.SharesInputs f →
          g.configuration = .ok (target, p) →
            (runGenerate env tree g).exitStatus ∉ [60, 20, 21, 30, 31])
      ∧ ∀ table snippets, readInputs tree f o = .ok (table, snippets) →
        ((runCheck env tree f).output ≠ "ok\n" →
          runCheck env tree f = failed env "" tree (.generation (allReports table o snippets))
            ∧ (runCheck env tree f).exitStatus
              = if ∀ d ∈ allReports table o snippets, d.code = .missingSnippet then 31 else 30)
        ∧ ∀ g target p, g.SharesInputs f → g.configuration = .ok (target, p) →
          target.reports table o snippets ≠ [] →
            ∃ log, runGenerate env tree g
              = failed env log tree (.generation (target.reports table o snippets)) := by
  refine ⟨?_, fun table snippets hread => ⟨fun hne => ?_, ?_⟩⟩
  · rw [runCheck_output_iff ho]
    constructor
    · intro haccepts g target p _ hshares hconfig
      have hkey := hshares.discriminatorKey_eq ho hconfig
      rw [(runGenerate_ends env tree g).exitStatus_iff hconfig, not_not]
      exact (hshares.accepts_congr hkey).mpr (haccepts target)
    · -- for each target there are flags that ask for it
      intro hgenerate target
      have hshares := f.sharesInputs_forTarget target
      have hconfig := configuration_forTarget ho target
      have hrequired : (Command.generate (f.forTarget target)).HasRequired := ⟨hmodel, rfl⟩
      have hstatus := hgenerate (f.forTarget target) target o hrequired hshares hconfig
      rw [(runGenerate_ends env tree _).exitStatus_iff hconfig, not_not] at hstatus
      exact (hshares.accepts_congr rfl).mp hstatus
  · have hnil : allReports table o snippets ≠ [] := by
      intro hnil
      rw [runCheck_of_readInputs ho hread, if_pos hnil] at hne
      exact hne rfl
    rw [runCheck_of_readInputs ho hread, if_neg hnil]
    exact ⟨rfl, Failure.exitStatus_generation _⟩
  · intro g target p hshares hconfig hne
    have hkey := hshares.discriminatorKey_eq ho hconfig
    have hsame : readInputs tree g p = .ok (table, snippets) :=
      (hshares.readInputs_congr hkey).trans hread
    rw [← reports_of_readInputs hread hkey] at hne ⊢
    exact (runGenerate_ends env tree g).eq_failed hconfig hsame hne

/-- **`check` predicts `generate`.** It says `ok` iff no run of `generate` with the same model,
snippets and key, for any target and with any other options that are acceptable, ends with an error
of the inputs (60), the model (20 or 21) or generation (30 or 31). Where the inputs are there, what
it shows otherwise is what the targets report, and its exit status is 31 iff nothing but snippets
is missing; and what a target reports is what its run of `generate` shows. -/
theorem check_predicts_generate (env : Terminal.Environment) (tree : FileTree)
    {arguments : List String} (h : Command.parse arguments = .ok (.check f))
    (ho : f.options = .ok o) :
    ((run env tree arguments).output = "ok\n" ↔
        ∀ others g target p, Command.parse others = .ok (.generate g) → g.SharesInputs f →
          g.configuration = .ok (target, p) →
            (run env tree others).exitStatus ∉ [60, 20, 21, 30, 31])
      ∧ ∀ table snippets, readInputs tree f o = .ok (table, snippets) →
        ((run env tree arguments).output ≠ "ok\n" →
          run env tree arguments = failed env "" tree (.generation (allReports table o snippets))
            ∧ (run env tree arguments).exitStatus
              = if ∀ d ∈ allReports table o snippets, d.code = .missingSnippet then 31 else 30)
        ∧ ∀ others g target p, Command.parse others = .ok (.generate g) → g.SharesInputs f →
          g.configuration = .ok (target, p) → target.reports table o snippets ≠ [] →
            ∃ log, run env tree others
              = failed env log tree (.generation (target.reports table o snippets)) := by
  have hmodel : f.model.isSome = true := Command.isParser_parse.required h
  have hrun : run env tree arguments = runCheck env tree f := by rw [run, h]
  obtain ⟨hok, hreports⟩ := runCheck_predicts_runGenerate env tree hmodel ho
  rw [hrun, hok]
  refine ⟨⟨?_, ?_⟩, fun table snippets hread => ⟨(hreports table snippets hread).1, ?_⟩⟩
  · intro hflags others g target p hparse hshares hconfig
    rw [run, hparse]
    exact hflags g target p (Command.isParser_parse.required hparse) hshares hconfig
  · -- a command line asks for the flags
    intro hlines g target p hrequired hshares hconfig
    obtain ⟨others, hparse⟩ := Command.isParser_parse.reached hrequired
    have hstatus := hlines others g target p hparse hshares hconfig
    rwa [run, hparse] at hstatus
  · intro others g target p hparse hshares hconfig hne
    rw [run, hparse]
    exact (hreports table snippets hread).2 g target p hshares hconfig hne

/-- A directory with two models: an enumeration, and a handwritten class whose snippets are not
there. -/
def stand : FileTree where
  workingDirectory := ["work"]
  files :=
    [(["work", "colors.json"],
        "\x7b\"name\":\"colors\",\"types\":[\x7b\"kind\":\"enumeration\",\"name\":\"color\","
          ++ "\"literals\":[\x7b\"name\":\"red\",\"value\":\"RED\"\x7d]\x7d]\x7d"),
      (["work", "garage.json"],
        "\x7b\"name\":\"garage\",\"types\":[\x7b\"kind\":\"concreteClass\",\"name\":\"cart\","
          ++ "\"implementationSpecific\":true\x7d]\x7d")]

/-- `check` accepts the enumeration, so every target can be generated from it; it misses snippets of
the class, so some target cannot. -/
theorem stand_predicted :
    (∀ others g target p, Command.parse others = .ok (.generate g) →
        g.SharesInputs { model := some "colors.json" } → g.configuration = .ok (target, p) →
          (run {} stand others).exitStatus ∉ [60, 20, 21, 30, 31])
      ∧ (run {} stand ["check", "-m", "garage.json"]).exitStatus = 31
      ∧ ∃ others g target p, Command.parse others = .ok (.generate g)
        ∧ g.SharesInputs { model := some "garage.json" } ∧ g.configuration = .ok (target, p)
        ∧ (run {} stand others).exitStatus ∈ [60, 20, 21, 30, 31] := by
  have hcolors : Command.parse ["check", "-m", "colors.json"]
      = .ok (.check { model := some "colors.json" }) := by decide +kernel
  have hgarage : Command.parse ["check", "-m", "garage.json"]
      = .ok (.check { model := some "garage.json" }) := by decide +kernel
  have hoptions : Flags.options {} = .ok {} := by decide +kernel
  have hends : (fun outcome : Outcome => (outcome.exitStatus, outcome.output))
      (run {} stand ["check", "-m", "garage.json"]) = (31, "") := by decide +kernel
  obtain ⟨hstatus, houtput⟩ := Prod.mk.inj hends
  refine ⟨(check_predicts_generate {} stand hcolors hoptions).1.mp (by decide +kernel), hstatus, ?_⟩
  by_contra hnone
  have hsays := (check_predicts_generate {} stand hgarage hoptions).1.mpr
    fun others g target p hparse hshares hconfig hfails =>
      hnone ⟨others, g, target, p, hparse, hshares, hconfig, hfails⟩
  exact absurd (houtput.symm.trans hsays) (by decide)

end CommandLine
end WireModel
