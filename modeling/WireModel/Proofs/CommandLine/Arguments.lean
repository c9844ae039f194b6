import WireModel.CommandLine.Arguments
import WireModel.Proofs.Planning

/-!
# Flags and the command lines that spell them

Reading a command line goes from argument to argument and changes what has been read in two ways:
it takes over a flag of the command, or it notes an argument that the command does not know.
`CommandLine.read_induction` is the induction over that loop.

Runs are described for flags, and what is said of them is carried over to command lines by two
facts about the parser, which `CommandLine.Command.IsParser` names. Whatever else it does, such as
showing help, does not matter.

* **`CommandLine.Command.isParser_parse`**: flags that are handed to a command have a model, and an
  output directory if the command is `generate`; and in the other direction, all flags that have
  both are spelled by a command line (`CommandLine.parse_arguments`). So what holds of `generate`
  for all command lines holds for all flags.
* **`CommandLine.ofCheck_of_parse`**: `check` takes nothing but a model, snippets and a
  discriminator key.
* **`CommandLine.parse_arguments_help`**: a call for help is answered before anything else is asked
  of the flags in front of it.
-/

namespace WireModel.CommandLine

/-! ## The loop over arguments -/

theorem mem_of_joined? {flags : List Flag} {argument value : String} {f : Flag}
    (h : joined? flags argument = some (f, value)) : f ∈ flags := by
  unfold joined? at h
  split at h
  · split at h
    · obtain ⟨g, hg, heq⟩ := Option.map_eq_some_iff.mp h
      cases heq
      exact List.mem_of_find?_eq_some hg
    · cases h
  · split at h
    · cases h
    · obtain ⟨g, hg, heq⟩ := Option.map_eq_some_iff.mp h
      cases heq
      exact List.mem_of_find?_eq_some hg
  · cases h

/-- What holds before the loop and is kept by each of its steps holds after it. -/
theorem read_induction {flags : List Flag} {P : Reading → Prop}
    (htake : ∀ r f value, f ∈ flags → P r → P (r.take f value))
    (hunknown : ∀ r unknown, P r → P { r with unknown := unknown })
    {r r' : Reading} {arguments : List String} (h : read flags r arguments = .ok r') (hr : P r) :
    P r' := by
  fun_induction read flags r arguments with
  | case1 r => cases h; exact hr
  | case2 r rest =>
    cases h
    split
    · exact hr
    · exact hunknown r _ hr
  | case3 r argument rest _ f hfind _ ih =>
    refine ih h (htake r f "" ?_ hr)
    split at hfind
    · exact List.mem_of_find?_eq_some hfind
    · cases hfind
  | case4 r argument _ f hfind _ value rest ih =>
    refine ih h (htake r f value ?_ hr)
    split at hfind
    · exact List.mem_of_find?_eq_some hfind
    · cases hfind
  | case5 => cases h
  | case6 r argument rest _ _ f value hjoined ih =>
    exact ih h (htake r f value (mem_of_joined? hjoined) hr)
  | case7 r argument rest _ _ _ _ ih => exact ih h (hunknown r _ hr)
  | case8 r argument rest _ _ _ _ ih => exact ih h hr

theorem readFlags_eq_ok_iff {flags : List Flag} {arguments : List String} {f : Flags} :
    readFlags flags arguments = .ok (some f) ↔ ∃ r, read flags {} arguments = .ok r
      ∧ (∀ g ∈ flags, g.isRequired = true → g.long ∈ r.given) ∧ r.unknown = [] ∧ r.flags = f := by
  unfold readFlags
  cases hread : read flags {} arguments with
  | error e => exact iff_of_false (nomatch ·) fun ⟨_, h, _⟩ => nomatch h
  | ok r =>
    have hgiven : (flags.find? fun g => g.isRequired && !r.given.contains g.long) = none
        ↔ ∀ g ∈ flags, g.isRequired = true → g.long ∈ r.given := by
      simp
    simp only [bind, Except.bind, Except.ok.injEq, exists_eq_left']
    split
    · next hhelp =>
      -- a call for help is an argument that the command does not know
      refine iff_of_false (nomatch ·) fun h => ?_
      rw [h.2.1] at hhelp
      cases hhelp
    · split
      · next g hfind =>
        refine iff_of_false (nomatch ·) fun h => ?_
        rw [hgiven.mpr h.1] at hfind
        cases hfind
      · next hfind =>
        rw [and_iff_right (hgiven.mp hfind)]
        split
        · next argument rest hunknown => simp [hunknown]
        · next hunknown => simp [hunknown]

/-! ## Accepted command lines -/

/-- A command that a command line can ask for: its flags, if it has any, have been read. -/
inductive Command.Accepted : Command → Prop where
  | version : Accepted .version
  | help (topic : Topic) : Accepted (.help topic)
  | generate {handed : List String} {f : Flags}
      (h : readFlags generateFlags handed = .ok (some f)) : Accepted (.generate f)
  | check {handed : List String} {f : Flags} (h : readFlags checkFlags handed = .ok (some f)) :
      Accepted (.check f)

/-- Without a command, there is nothing to ask for but help. -/
theorem eq_help_of_parseOwn {operands unknown : List String} {c : Command}
    (h : parseOwn operands unknown = .ok c) : c = .help .program := by
  unfold parseOwn at h
  split at h
  · cases h
    rfl
  · split at h <;> cases h

theorem Command.accepted_of_parse {arguments : List String} {c : Command}
    (h : Command.parse arguments = .ok c) : c.Accepted := by
  unfold Command.parse at h
  split at h
  · cases h
    exact .version
  · split at h
    · next handed _ =>
      obtain ⟨flags, hread, rfl⟩ := map_eq_ok_iff.mp h
      cases flags with
      | none => exact .help .generate
      | some f => exact .generate hread
    · next handed _ =>
      obtain ⟨flags, hread, rfl⟩ := map_eq_ok_iff.mp h
      cases flags with
      | none => exact .help .check
      | some f => exact .check hread
    · split at h
      · cases h
        exact .help _
      · cases h
    · rw [eq_help_of_parseOwn h]
      exact .help .program

/-- A model or an output directory that was given has been taken over. -/
structure Reading.Sound (r : Reading) : Prop where
  model : "--model" ∈ r.given → r.flags.model.isSome = true
  output : "--output" ∈ r.given → r.flags.output.isSome = true

theorem Reading.Sound.take {r : Reading} (h : r.Sound) {f : Flag} (hf : f ∈ generateFlags)
    (value : String) : (r.take f value).Sound := by
  obtain ⟨hmodel, houtput⟩ := h
  simp only [generateFlags, List.mem_cons, List.not_mem_nil, or_false] at hf
  rcases hf with rfl | rfl | rfl | rfl | rfl | rfl | rfl | rfl | rfl | rfl <;>
    constructor <;> simp_all [Reading.take, modelFlag, targetFlag, outputFlag, snippetsFlag,
      discriminatorKeyFlag, indentFlag, runtimeModuleFlag, typesModuleFlag, titleFlag, verboseFlag]

theorem sound_of_read {flags : List Flag} (hflags : flags ⊆ generateFlags)
    {arguments : List String} {r : Reading} (h : read flags {} arguments = .ok r) : r.Sound :=
  read_induction (fun _ _ value hf hr => hr.take (hflags hf) value)
    (fun _ _ hr => ⟨hr.model, hr.output⟩) h ⟨nofun, nofun⟩

/-- **A command line for `generate` gives a model and an output directory.** -/
theorem model_output_of_parse {arguments : List String} {f : Flags}
    (h : Command.parse arguments = .ok (.generate f)) :
    f.model.isSome = true ∧ f.output.isSome = true := by
  cases Command.accepted_of_parse h with | generate hflags => ?_
  obtain ⟨r, hread, hgiven, -, rfl⟩ := readFlags_eq_ok_iff.mp hflags
  have hsound := sound_of_read (List.Subset.refl _) hread
  exact ⟨hsound.model (hgiven modelFlag (by simp [generateFlags]) rfl),
    hsound.output (hgiven outputFlag (by simp [generateFlags]) rfl)⟩

/-- A command line for `check` gives a model. -/
theorem model_of_parse {arguments : List String} {f : Flags}
    (h : Command.parse arguments = .ok (.check f)) : f.model.isSome = true := by
  cases Command.accepted_of_parse h with | check hflags => ?_
  obtain ⟨r, hread, hgiven, -, rfl⟩ := readFlags_eq_ok_iff.mp hflags
  have hsubset : checkFlags ⊆ generateFlags := by simp [checkFlags, generateFlags]
  exact (sound_of_read hsubset hread).model (hgiven modelFlag (by simp [checkFlags]) rfl)

/-- The flags that `check` knows. -/
def Flags.ofCheck (f : Flags) : Flags :=
  { model := f.model, snippets := f.snippets, discriminatorKey := f.discriminatorKey }

/-- **`check` takes a model, snippets and a discriminator key**, and nothing else. -/
theorem ofCheck_of_parse {arguments : List String} {f : Flags}
    (h : Command.parse arguments = .ok (.check f)) : f.ofCheck = f := by
  cases Command.accepted_of_parse h with | check hflags => ?_
  obtain ⟨r, hread, -, -, rfl⟩ := readFlags_eq_ok_iff.mp hflags
  refine read_induction (P := fun r => r.flags.ofCheck = r.flags) ?_ (fun r unknown hr => hr)
    hread rfl
  intro r f value hf hr
  simp only [checkFlags, List.mem_cons, List.not_mem_nil, or_false] at hf
  rcases hf with rfl | rfl | rfl <;> rw [Reading.take, ← hr] <;> rfl

/-! ## Command lines that spell flags -/

/-- A flag with its value in one argument. -/
def spelled (p : Flag × String) : String := p.1.long ++ "=" ++ p.2

/-- Takes over flags with their values one after the other. -/
def Reading.takeAll (r : Reading) (pairs : List (Flag × String)) : Reading :=
  pairs.foldl (fun r p => r.take p.1 p.2) r

theorem Reading.takeAll_eq (r : Reading) (pairs : List (Flag × String)) :
    r.takeAll pairs = ⟨pairs.foldl (fun f p => p.1.set p.2 f) r.flags,
      (pairs.map fun p => p.1.long).reverse ++ r.given, r.unknown⟩ := by
  induction pairs generalizing r with
  | nil => rfl
  | cons p pairs ih =>
    rw [takeAll, List.foldl_cons]
    exact (ih (r.take p.1 p.2)).trans (by simp [take])

/-- A long form of the command that takes a value: it begins with two dashes, has no equals sign,
and is found by its name. -/
structure Flag.IsLong (g : Flag) : Prop where
  shape : ∃ c name, g.long.toList = '-' :: '-' :: c :: name ∧ '=' ∉ c :: name
  found : (generateFlags.find? fun h => h.is g.long && h.value.isSome && g.long != "--") = some g

theorem isLong_of_mem {g : Flag} (hg : g ∈ generateFlags) (hvalue : g.value.isSome = true) :
    g.IsLong := by
  simp only [generateFlags, List.mem_cons, List.not_mem_nil, or_false] at hg
  rcases hg with rfl | rfl | rfl | rfl | rfl | rfl | rfl | rfl | rfl | rfl <;>
    first
      | exact ⟨⟨_, _, rfl, by decide⟩, rfl⟩
      | cases hvalue

/-- No form of a flag has an equals sign. -/
theorem is_eq_false_of_mem {g : Flag} (hg : g ∈ generateFlags) {argument : String}
    (h : '=' ∈ argument.toList) : g.is argument = false := by
  have hforms : ∀ g ∈ generateFlags, '=' ∉ g.long.toList ∧ ∀ s ∈ g.short, '=' ∉ s.toList := by
    decide +kernel
  obtain ⟨hlong, hshort⟩ := hforms g hg
  rw [Flag.is, Bool.or_eq_false_iff, beq_eq_false_iff_ne, beq_eq_false_iff_ne]
  constructor
  · rintro rfl
    exact hlong h
  · intro heq
    exact hshort argument heq h

namespace Flag.IsLong

variable {g : Flag} (hg : g.IsLong) (value : String)
include hg

theorem toList_spelled : ∃ c name, '=' ∉ c :: name ∧ g.long.toList = '-' :: '-' :: c :: name
    ∧ (spelled (g, value)).toList = '-' :: '-' :: (c :: name ++ '=' :: value.toList) := by
  obtain ⟨c, name, hlong, hname⟩ := hg.shape
  exact ⟨c, name, hname, hlong, by simp [spelled, hlong]⟩

theorem spelled_ne_dashes : spelled (g, value) ≠ "--" := by
  obtain ⟨c, name, -, -, htext⟩ := hg.toList_spelled value
  intro heq
  rw [heq] at htext
  cases htext

theorem looksLikeFlag_spelled : looksLikeFlag (spelled (g, value)) = true := by
  obtain ⟨c, name, -, -, htext⟩ := hg.toList_spelled value
  rw [looksLikeFlag, htext]
  rfl

theorem mem_spelled : '=' ∈ (spelled (g, value)).toList := by
  obtain ⟨c, name, -, -, htext⟩ := hg.toList_spelled value
  simp [htext]

theorem joined?_spelled : joined? generateFlags (spelled (g, value)) = some (g, value) := by
  obtain ⟨c, name, hname, hlong, htext⟩ := hg.toList_spelled value
  have hpass : ∀ d ∈ c :: name, (d != '=') = true := fun d hd => by
    rw [bne_iff_ne]
    rintro rfl
    exact hname hd
  have hrest : (c :: name ++ '=' :: value.toList).dropWhile (· != '=') = '=' :: value.toList := by
    rw [List.dropWhile_append_of_pos hpass]
    rfl
  have hfirst : (c :: name ++ '=' :: value.toList).takeWhile (· != '=') = c :: name := by
    rw [List.takeWhile_append_of_pos hpass]
    simp
  have hread : String.ofList ('-' :: '-' :: c :: name) = g.long := by
    rw [← hlong, String.ofList_toList]
  simp only [joined?, htext, hrest, hfirst, hread, hg.found, Option.map_some, String.ofList_toList]

theorem asksVersion_spelled : asksVersion (spelled (g, value)) = false := by
  obtain ⟨c, name, -, -, htext⟩ := hg.toList_spelled value
  rw [asksVersion, Bool.or_eq_false_iff, beq_eq_false_iff_ne]
  constructor
  · intro heq
    have hmem := hg.mem_spelled value
    rw [heq] at hmem
    revert hmem
    decide
  · rw [String.startsWith_string_eq_false_iff, htext]
    simp

/-- One step of the loop takes over a flag that is spelled with its value. -/
theorem read_spelled (r : Reading) (rest : List String) :
    read generateFlags r (spelled (g, value) :: rest)
      = read generateFlags (r.take g value) rest := by
  -- with its equals sign the argument is not the name of a flag, so it is taken apart
  have hfind : (generateFlags.find? fun f => f.is (spelled (g, value))) = none := by
    rw [List.find?_eq_none]
    intro f hf
    rw [is_eq_false_of_mem hf (hg.mem_spelled value)]
    exact Bool.false_ne_true
  rw [read.eq_def]
  simp only [hg.spelled_ne_dashes value, hg.looksLikeFlag_spelled value, hfind,
    hg.joined?_spelled value, if_false, if_true]

end Flag.IsLong

/-- The loop takes over all flags that are spelled with their values. -/
theorem read_map_spelled {pairs : List (Flag × String)} (h : ∀ p ∈ pairs, p.1.IsLong)
    (r : Reading) (rest : List String) :
    read generateFlags r (pairs.map spelled ++ rest)
      = read generateFlags (r.takeAll pairs) rest := by
  induction pairs generalizing r with
  | nil => rfl
  | cons p pairs ih =>
    rw [List.map_cons, List.cons_append, (h p List.mem_cons_self).read_spelled]
    exact ih (fun q hq => h q (List.mem_cons_of_mem p hq)) _

theorem read_verbose (r : Reading) (rest : List String) :
    read generateFlags r (verboseFlag.long :: rest)
      = read generateFlags (r.take verboseFlag "") rest := by
  have hdashes : verboseFlag.long ≠ "--" := by decide
  have hlooks : looksLikeFlag verboseFlag.long = true := by decide +kernel
  have hfind : (generateFlags.find? fun f => f.is verboseFlag.long) = some verboseFlag := rfl
  rw [read.eq_def]
  simp only [hdashes, hlooks, hfind, if_true, if_false]
  rfl

/-- A call for help is not known to a command. -/
theorem read_help (r : Reading) :
    read generateFlags r ["--help"] = .ok { r with unknown := r.unknown ++ ["--help"] } := by
  have hlooks : looksLikeFlag "--help" = true := by decide +kernel
  have hfind : (generateFlags.find? fun f => f.is "--help") = none := rfl
  have hjoined : joined? generateFlags "--help" = none := rfl
  rw [read.eq_def]
  simp only [hlooks, hfind, hjoined, if_true, Bool.true_or, read]
  rfl

/-- Arguments that look like flags are all handed to the command. -/
theorem split_of_looksLikeFlag {arguments : List String}
    (h : ∀ a ∈ arguments, a ≠ "--" ∧ looksLikeFlag a = true) (operands unknown : List String) :
    split operands unknown arguments = (operands, unknown ++ arguments) := by
  induction arguments generalizing unknown with
  | nil => simp [split]
  | cons a rest ih =>
    obtain ⟨hne, hflag⟩ := h a List.mem_cons_self
    have hrest := ih (fun b hb => h b (List.mem_cons_of_mem a hb)) (unknown ++ [a])
    simp only [split, hne, hflag, if_false, Bool.true_or, if_true, hrest, List.append_assoc,
      List.cons_append, List.nil_append]

/-- Takes over a value if there is one. -/
def Flag.setIf (g : Flag) (value : Option String) (f : Flags) : Flags :=
  value.elim f fun v => g.set v f

/-- Every flag that takes a value sets a field of its own. -/
theorem setIf_eq (v : Option String) (f : Flags) :
    modelFlag.setIf v f = { f with model := v.or f.model }
      ∧ targetFlag.setIf v f = { f with target := v.or f.target }
      ∧ outputFlag.setIf v f = { f with output := v.or f.output }
      ∧ snippetsFlag.setIf v f = { f with snippets := v.or f.snippets }
      ∧ discriminatorKeyFlag.setIf v f = { f with discriminatorKey := v.or f.discriminatorKey }
      ∧ indentFlag.setIf v f = { f with indent := v.or f.indent }
      ∧ runtimeModuleFlag.setIf v f = { f with runtimeModule := v.or f.runtimeModule }
      ∧ typesModuleFlag.setIf v f = { f with typesModule := v.or f.typesModule }
      ∧ titleFlag.setIf v f = { f with title := v.or f.title } := by
  cases v <;> exact ⟨rfl, rfl, rfl, rfl, rfl, rfl, rfl, rfl, rfl⟩

namespace Flags

variable (f : Flags)

/-- The flags that take a value, each with what it has. -/
def entries : List (Flag × Option String) :=
  [(modelFlag, f.model), (targetFlag, f.target), (outputFlag, f.output),
    (snippetsFlag, f.snippets), (discriminatorKeyFlag, f.discriminatorKey),
    (indentFlag, f.indent), (runtimeModuleFlag, f.runtimeModule),
    (typesModuleFlag, f.typesModule), (titleFlag, f.title)]

/-- The flags that have a value, with that value. -/
def pairs : List (Flag × String) := f.entries.filterMap fun p => p.2.map fun v => (p.1, v)

/-- The arguments that spell flags. -/
def arguments : List String :=
  f.pairs.map spelled ++ if f.verbose then [verboseFlag.long] else []

theorem mem_pairs {p : Flag × String} : p ∈ f.pairs ↔ (p.1, some p.2) ∈ f.entries := by
  rw [pairs, List.mem_filterMap]
  constructor
  · rintro ⟨⟨g, value⟩, hmem, hp⟩
    obtain ⟨v, rfl, rfl⟩ := Option.map_eq_some_iff.mp hp
    exact hmem
  · intro hmem
    exact ⟨_, hmem, rfl⟩

theorem isLong_of_mem_pairs {p : Flag × String} (h : p ∈ f.pairs) : p.1.IsLong := by
  -- all flags but the last one take a value
  have hvalue : ∀ g ∈ generateFlags.dropLast, g.value.isSome = true := by decide
  have hflag : p.1 ∈ f.entries.map Prod.fst := List.mem_map_of_mem (f.mem_pairs.mp h)
  exact isLong_of_mem (List.dropLast_subset _ hflag) (hvalue _ hflag)

/-- Taken over from the beginning, the flags that have a value give all of these values. -/
theorem foldl_pairs :
    f.pairs.foldl (fun g p => p.1.set p.2 g) {} = { f with verbose := false } := by
  have hsteps : f.pairs.foldl (fun g p => p.1.set p.2 g) {}
      = f.entries.foldl (fun g p => p.1.setIf p.2 g) {} := by
    rw [pairs, List.foldl_filterMap]
    congr 1
    funext g p
    cases p.2 <;> rfl
  rw [hsteps, entries]
  simp only [List.foldl_cons, List.foldl_nil, setIf_eq, Option.or_none]

/-- Every argument that spells flags is handed to the command as a flag. -/
theorem of_mem_arguments {a : String} (h : a ∈ f.arguments) :
    a ≠ "--" ∧ looksLikeFlag a = true ∧ asksVersion a = false := by
  rcases List.mem_append.mp h with hpair | hverbose
  · obtain ⟨⟨g, v⟩, hp, rfl⟩ := List.mem_map.mp hpair
    have hlong := f.isLong_of_mem_pairs hp
    exact ⟨hlong.spelled_ne_dashes v, hlong.looksLikeFlag_spelled v, hlong.asksVersion_spelled v⟩
  · split at hverbose
    · cases List.mem_singleton.mp hverbose
      decide +kernel
    · cases hverbose

/-- What has been read when all flags have been taken over. -/
def reading : Reading :=
  (({} : Reading).takeAll f.pairs).takeAll (if f.verbose then [(verboseFlag, "")] else [])

theorem unknown_reading : f.reading.unknown = [] := by
  rw [reading, Reading.takeAll_eq, Reading.takeAll_eq]

/-- The loop takes over the flags that are spelled, and goes on with what follows. -/
theorem read_arguments (rest : List String) :
    read generateFlags {} (f.arguments ++ rest) = read generateFlags f.reading rest := by
  rw [arguments, List.append_assoc, read_map_spelled fun p hp => f.isLong_of_mem_pairs hp, reading]
  split
  · exact read_verbose _ rest
  · rfl

theorem mem_pairs_of_isRequired (hmodel : f.model.isSome = true) (houtput : f.output.isSome = true)
    {g : Flag} (hg : g ∈ generateFlags) (hrequired : g.isRequired = true) :
    ∃ v, (g, v) ∈ f.pairs := by
  obtain ⟨model, hmodel⟩ := Option.isSome_iff_exists.mp hmodel
  obtain ⟨output, houtput⟩ := Option.isSome_iff_exists.mp houtput
  simp only [generateFlags, List.mem_cons, List.not_mem_nil, or_false] at hg
  rcases hg with rfl | rfl | rfl | rfl | rfl | rfl | rfl | rfl | rfl | rfl
  case inl => exact ⟨model, f.mem_pairs.mpr (by simp [entries, hmodel])⟩
  case inr.inr.inl => exact ⟨output, f.mem_pairs.mpr (by simp [entries, houtput])⟩
  all_goals cases hrequired

theorem readFlags_arguments (hmodel : f.model.isSome = true) (houtput : f.output.isSome = true) :
    readFlags generateFlags f.arguments = .ok (some f) := by
  have hread : read generateFlags {} f.arguments = .ok f.reading := by
    rw [← f.arguments.append_nil, f.read_arguments, read]
  refine readFlags_eq_ok_iff.mpr ⟨f.reading, hread, ?_, f.unknown_reading, ?_⟩
  · intro g hg hrequired
    obtain ⟨v, hv⟩ : ∃ v, (g, v) ∈ f.pairs := f.mem_pairs_of_isRequired hmodel houtput hg hrequired
    simp only [reading, Reading.takeAll_eq, List.mem_append, List.mem_reverse, List.mem_map]
    exact .inr (.inl ⟨_, hv, rfl⟩)
  · rw [reading, Reading.takeAll_eq, Reading.takeAll_eq, foldl_pairs]
    cases hverbose : f.verbose with
    | true =>
      change { f with verbose := true } = f
      rw [← hverbose]
    | false =>
      change { f with verbose := false } = f
      rw [← hverbose]

/-- Help is shown whichever flags are given, required ones or not. -/
theorem readFlags_help : readFlags generateFlags (f.arguments ++ ["--help"]) = .ok none := by
  rw [readFlags, f.read_arguments, read_help, f.unknown_reading]
  rfl

end Flags

/-- Arguments that spell flags are handed to the command that is named in front of them, and so is
what follows them. -/
theorem parse_generate (f : Flags) {rest : List String}
    (hrest : ∀ a ∈ rest, a ≠ "--" ∧ looksLikeFlag a = true ∧ asksVersion a = false) :
    Command.parse ("generate" :: (f.arguments ++ rest))
      = (readFlags generateFlags (f.arguments ++ rest)).map
        fun flags => flags.elim (.help .generate) .generate := by
  have hhanded : ∀ a ∈ f.arguments ++ rest,
      a ≠ "--" ∧ looksLikeFlag a = true ∧ asksVersion a = false :=
    List.forall_mem_append.mpr ⟨fun a ha => f.of_mem_arguments ha, hrest⟩
  -- no argument asks for the version, and all but the first are handed to the command
  have hversion : (("generate" :: (f.arguments ++ rest)).takeWhile (· != "--")).any asksVersion
      = false := by
    rw [List.any_eq_false]
    intro a ha
    rcases List.mem_cons.mp (List.takeWhile_subset _ ha) with rfl | ha
    · decide +kernel
    · rw [(hhanded a ha).2.2]
      exact Bool.false_ne_true
  have hsplit : split [] [] ("generate" :: (f.arguments ++ rest))
      = (["generate"], f.arguments ++ rest) :=
    split_of_looksLikeFlag (fun a ha => ⟨(hhanded a ha).1, (hhanded a ha).2.1⟩) ["generate"] []
  rw [Command.parse, hversion, hsplit]
  rfl

/-- **Flags with a model and an output directory are what some command line asks for.** -/
theorem parse_arguments {f : Flags} (hmodel : f.model.isSome = true)
    (houtput : f.output.isSome = true) :
    Command.parse ("generate" :: f.arguments) = .ok (.generate f) := by
  have hparse := parse_generate f (List.forall_mem_nil _)
  rw [List.append_nil, f.readFlags_arguments hmodel houtput] at hparse
  exact hparse

/-- **A call for help is answered**, whichever flags stand in front of it. -/
theorem parse_arguments_help (f : Flags) :
    Command.parse ("generate" :: (f.arguments ++ ["--help"])) = .ok (.help .generate) := by
  have hhelp : ∀ a ∈ ["--help"], a ≠ "--" ∧ looksLikeFlag a = true ∧ asksVersion a = false :=
    List.forall_mem_singleton.mpr (by decide +kernel)
  rw [parse_generate f hhelp, f.readFlags_help]
  rfl

/-! ## What runs rely on -/

/-- Flags that are required by the command have been given. -/
def Command.HasRequired : Command → Prop
  | .generate f => f.model.isSome = true ∧ f.output.isSome = true
  | .check f => f.model.isSome = true
  | .version | .help _ => True

/-- What runs of the program rely on in the parser of its arguments. -/
structure Command.IsParser (parse : List String → Except UsageError Command) : Prop where
  /-- No command goes without its required flags. -/
  required : ∀ {arguments : List String} {c : Command}, parse arguments = .ok c → c.HasRequired
  /-- All flags with which `generate` can go are reached by a command line. -/
  reached : ∀ {f : Flags}, (Command.generate f).HasRequired →
    ∃ arguments, parse arguments = .ok (.generate f)

theorem Command.isParser_parse : Command.IsParser Command.parse where
  required {arguments c} h := by
    cases c with
    | version => trivial
    | help topic => trivial
    | generate f => exact model_output_of_parse h
    | check f => exact model_of_parse h
  reached h := ⟨_, parse_arguments h.1 h.2⟩

end WireModel.CommandLine
