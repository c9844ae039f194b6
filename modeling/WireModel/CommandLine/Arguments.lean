import WireModel.CommandLine.Flags
import WireModel.CommandLine.Suggestion
import WireModel.Terminal.View

/-!
# Arguments of the command line

The command line names a command and gives flags. A flag with a value can be written `--flag v`,
`--flag=v`, `-f v` or `-fv`, and the last one counts. Arguments that the program itself does not
know are handed to the command. A flag without its value is an error at once; then it is seen
whether help is asked for, then that the required flags are there, and last that there is nothing
that the command does not know.

Reading arguments is the work of a library, and only its rules are given here, not its texts of
help. Of these rules, runs of the program rely on two, which are named and proved with the results
about `Command.parse`.
-/

namespace WireModel.CommandLine

/-- A flag: its short form if it has one, its long form, and the name of its value if it takes
one. -/
structure Flag where
  short : Option String
  long : String
  value : Option String
  isRequired : Bool := false
  /-- Takes over the value, or the mere presence. -/
  set : String → Flags → Flags

/-- The flag as it is described to a user. -/
def Flag.text (f : Flag) : String :=
  (match f.short with
    | some s => s ++ ", "
    | none => "")
  ++ f.long
  ++ (match f.value with
    | some v => " " ++ v
    | none => "")

def Flag.is (f : Flag) (argument : String) : Bool :=
  f.long == argument || f.short == some argument

def modelFlag : Flag :=
  ⟨some "-m", "--model", some "<file>", true, fun v f => { f with model := some v }⟩

def snippetsFlag : Flag :=
  ⟨none, "--snippets", some "<dir>", false, fun v f => { f with snippets := some v }⟩

def discriminatorKeyFlag : Flag :=
  ⟨none, "--discriminator-key", some "<key>", false,
    fun v f => { f with discriminatorKey := some v }⟩

def targetFlag : Flag :=
  ⟨some "-t", "--target", some "<target>", false, fun v f => { f with target := some v }⟩

def outputFlag : Flag :=
  ⟨some "-o", "--output", some "<dir>", true, fun v f => { f with output := some v }⟩

def indentFlag : Flag :=
  ⟨none, "--indent", some "<n>", false, fun v f => { f with indent := some v }⟩

def runtimeModuleFlag : Flag :=
  ⟨none, "--runtime-module", some "<specifier>", false,
    fun v f => { f with runtimeModule := some v }⟩

def typesModuleFlag : Flag :=
  ⟨none, "--types-module", some "<specifier>", false, fun v f => { f with typesModule := some v }⟩

def titleFlag : Flag :=
  ⟨none, "--title", some "<title>", false, fun v f => { f with title := some v }⟩

def verboseFlag : Flag :=
  ⟨none, "--verbose", none, false, fun _ f => { f with verbose := true }⟩

def generateFlags : List Flag :=
  [modelFlag, targetFlag, outputFlag, snippetsFlag, discriminatorKeyFlag, indentFlag,
    runtimeModuleFlag, typesModuleFlag, titleFlag, verboseFlag]

def checkFlags : List Flag := [modelFlag, snippetsFlag, discriminatorKeyFlag]

/-- The long forms of the flags that every command knows. -/
def commonFlags : List String := ["--help", "--version"]

/-- The names of the commands. -/
def commandNames : List String := ["generate", "check", "help"]

/-- What there is help about. -/
inductive Topic where
  | program
  | generate
  | check
  deriving DecidableEq, Repr

def Topic.text (help : Terminal.Help) : Topic → String
  | .program => help.program
  | .generate => help.generate
  | .check => help.check

/-- What the command `help` is asked about. -/
def Topic.ofOperands? : List String → Option Topic
  | [] | "" :: _ => some .program
  | "generate" :: _ => some .generate
  | "check" :: _ => some .check
  | _ => none

/-- Why a command line is refused. -/
inductive UsageError where
  /-- No command is named, or help is asked for about something else. -/
  | noCommand
  | unknownCommand (name : String)
  /-- The argument, and the long forms of the flags that are known in its place. -/
  | unknownFlag (argument : String) (known : List String)
  | missingValue (flag : String)
  | missingFlag (flag : String)
  deriving DecidableEq, Repr

/-- What is printed when a command line is refused. -/
def UsageError.message (help : Terminal.Help) : UsageError → String
  | .noCommand => help.program
  | .unknownCommand name =>
    "error: unknown command '" ++ name ++ "'" ++ suggestion name commandNames ++ "\n"
  | .unknownFlag argument known =>
    "error: unknown option '" ++ argument ++ "'" ++ flagSuggestion argument known ++ "\n"
  | .missingValue flag => "error: option '" ++ flag ++ "' argument missing\n"
  | .missingFlag flag => "error: required option '" ++ flag ++ "' not specified\n"

/-- An argument that looks like a flag. -/
def looksLikeFlag (argument : String) : Bool :=
  match argument.toList with
  | '-' :: _ :: _ => true
  | _ => false

/-- The flag and the value in an argument of the form `-fv` or `--flag=v`. -/
def joined? (flags : List Flag) (argument : String) : Option (Flag × String) :=
  match argument.toList with
  | '-' :: '-' :: rest =>
    match rest.dropWhile (· != '=') with
    | _ :: value =>
      let name := String.ofList ('-' :: '-' :: rest.takeWhile (· != '='))
      (flags.find? fun f => f.is name && f.value.isSome && name != "--").map
        fun f => (f, String.ofList value)
    | [] => none
  | '-' :: c :: value =>
    if value.isEmpty then none
    else
      (flags.find? fun f => f.is (String.ofList ['-', c]) && f.value.isSome).map
        fun f => (f, String.ofList value)
  | _ => none

/-- What has been read of the arguments of a command. -/
structure Reading where
  flags : Flags := {}
  /-- The long forms of the flags that were given. -/
  given : List String := []
  unknown : List String := []

def Reading.take (r : Reading) (f : Flag) (value : String) : Reading :=
  { r with flags := f.set value r.flags, given := f.long :: r.given }

/-- Reads the arguments of a command. From the first unknown flag on, everything that is not a
known flag counts as unknown; other operands are ignored. -/
def read (flags : List Flag) (r : Reading) : List String → Except UsageError Reading
  | [] => .ok r
  | argument :: rest =>
    if argument = "--" then
      .ok (if r.unknown.isEmpty then r else { r with unknown := r.unknown ++ argument :: rest })
    else
      match (if looksLikeFlag argument then flags.find? fun f => f.is argument else none) with
      | some f =>
        if f.value.isNone then read flags (r.take f "") rest
        else
          match rest with
          | value :: rest => read flags (r.take f value) rest
          | [] => .error (.missingValue f.text)
      | none =>
        match joined? flags argument with
        | some (f, value) => read flags (r.take f value) rest
        | none =>
          if looksLikeFlag argument || !r.unknown.isEmpty then
            read flags { r with unknown := r.unknown ++ [argument] } rest
          else read flags r rest

/-- An argument that asks for help. -/
def asksHelp (argument : String) : Bool := argument == "--help" || argument == "-h"

/-- The flags of a command, if its arguments are acceptable and do not ask for help. -/
def readFlags (flags : List Flag) (arguments : List String) : Except UsageError (Option Flags) := do
  let r ← read flags {} arguments
  if r.unknown.any asksHelp then .ok none
  else
    match flags.find? fun f => f.isRequired && !r.given.contains f.long with
    | some f => .error (.missingFlag f.text)
    | none =>
      match r.unknown with
      | argument :: _ => .error (.unknownFlag argument (flags.map (·.long) ++ commonFlags))
      | [] => .ok (some r.flags)

inductive Command where
  | version
  | help (topic : Topic)
  | generate (flags : Flags)
  | check (flags : Flags)
  deriving DecidableEq, Repr

/-- An argument that asks for the version. -/
def asksVersion (argument : String) : Bool :=
  argument == "--version" || argument.startsWith "-V"

/-- The arguments of the program: operands, and what is handed to a command. Operands after the
first flag that the program does not know are handed on too. -/
def split (operands unknown : List String) : List String → List String × List String
  | [] => (operands, unknown)
  | argument :: rest =>
    if argument = "--" then
      if unknown.isEmpty then (operands ++ rest, unknown)
      else (operands, unknown ++ argument :: rest)
    else if looksLikeFlag argument || !unknown.isEmpty then
      split operands (unknown ++ [argument]) rest
    else split (operands ++ [argument]) unknown rest

/-- A command line that the program does not hand to a command. -/
def parseOwn (operands unknown : List String) : Except UsageError Command :=
  if unknown.any asksHelp then .ok (.help .program)
  else
    match operands, unknown with
    | name :: _, _ => .error (.unknownCommand name)
    | [], argument :: _ => .error (.unknownFlag argument commonFlags)
    | [], [] => .error .noCommand

/-- The command that a command line asks for. -/
def Command.parse (arguments : List String) : Except UsageError Command :=
  if (arguments.takeWhile (· != "--")).any asksVersion then .ok .version
  else
    match split [] [] arguments with
    | ("generate" :: _, handed) =>
      (readFlags generateFlags handed).map fun flags => flags.elim (.help .generate) .generate
    | ("check" :: _, handed) =>
      (readFlags checkFlags handed).map fun flags => flags.elim (.help .check) .check
    | ("help" :: operands, _) =>
      match Topic.ofOperands? operands with
      | some topic => .ok (.help topic)
      | none => .error .noCommand
    | (operands, unknown) => parseOwn operands unknown

end WireModel.CommandLine
