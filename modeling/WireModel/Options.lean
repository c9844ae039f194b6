import WireModel.Failure
import WireModel.Name
import WireModel.Text.Blank

/-!
# Options

Settings that a caller may leave out, and the options that result from them with defaults for
the rest. Options are checked when they are made, so that generation can rely on them: the
discriminator key is an identifier that no JSON object inherits, the indentation is made of spaces
or of tabs, the banner fits into a comment, and module specifiers are not blank.
-/

namespace WireModel

/-- What a caller asks for. -/
structure Settings where
  discriminatorKey : Option String := none
  indent : Option String := none
  banner : Option (List String) := none
  runtimeModule : Option String := none
  typesModule : Option String := none
  title : Option String := none
  deriving DecidableEq, Repr

structure Options where
  /-- The wire property that names the concrete class of an object. -/
  discriminatorKey : String := "modelType"
  /-- One level of indentation. -/
  indent : String := "  "
  /-- The lines of the warning at the top of generated code. -/
  banner : List String :=
    ["This code has been automatically generated by metacodec.", "Do NOT edit or append."]
  /-- The module that the generated codec imports its support code from. -/
  runtimeModule : String := "@metacodec/runtime"
  /-- The module that the generated codec imports the generated types from. -/
  typesModule : String := "./types.js"
  /-- The title of the reference, if it is not the name of the model. -/
  title : Option String := none
  deriving DecidableEq, Repr

/-- Why a setting is not acceptable. -/
inductive ConfigError where
  | keyNotIdentifier (key : String)
  | keyInherited (key : String)
  | mixedIndent
  | brokenBanner
  | blankRuntimeModule
  | blankTypesModule
  | unsupportedTarget (value : String)
  | indentOutOfRange (value : String)
  deriving DecidableEq, Repr

namespace ConfigError

/-- The setting that is at fault. -/
def setting : ConfigError → String
  | .keyNotIdentifier _ | .keyInherited _ => "jsonization.discriminatorKey"
  | .mixedIndent | .indentOutOfRange _ => "emit.indent"
  | .brokenBanner => "emit.banner"
  | .blankRuntimeModule => "typescript.runtimeModule"
  | .blankTypesModule => "typescript.typesModule"
  | .unsupportedTarget _ => "target"

def message : ConfigError → String
  | .keyNotIdentifier key =>
    "Invalid discriminator key " ++ Text.quote key ++ ": expected an identifier"
  | .keyInherited key =>
    "Invalid discriminator key " ++ Text.quote key ++ ": it is a member of Object.prototype"
  | .mixedIndent => "Indentation must consist of spaces only or of tabs only"
  | .brokenBanner => "Banner lines must be single lines without \"*/\""
  | .blankRuntimeModule => "The runtime module specifier must not be empty"
  | .blankTypesModule => "The types module specifier must not be empty"
  | .unsupportedTarget value =>
    "Unsupported target \"" ++ value
      ++ "\". Expected one of typescript, jsonschema, markdown, html."
  | .indentOutOfRange value =>
    "Invalid --indent \"" ++ value ++ "\": expected a number of spaces (1-8) or \"tab\""

def failure (e : ConfigError) : Failure := .config e.message (some e.setting)

end ConfigError

namespace Options

/-- Keys that every object of the generated code has without listing them. -/
def inheritedKeys : List String :=
  ["__proto__", "constructor", "__defineGetter__", "__defineSetter__", "hasOwnProperty",
    "__lookupGetter__", "__lookupSetter__", "isPrototypeOf", "propertyIsEnumerable", "toString",
    "valueOf", "toLocaleString"]

/-- Spaces only or tabs only, and at least one. -/
def isIndent (s : String) : Bool :=
  !s.isEmpty && (s.toList.all (· == ' ') || s.toList.all (· == '\t'))

/-- Whether the end of a comment stands somewhere in a text. -/
def closesComment : List Char → Bool
  | '*' :: '/' :: _ => true
  | _ :: rest => closesComment rest
  | [] => false

/-- A single line that does not end a comment. -/
def isBannerLine (s : String) : Bool :=
  !closesComment s.toList && !s.toList.any fun c => c == '\r' || c == '\n'

/-- The first problem with options, if there is one. -/
def check (o : Options) : Option ConfigError :=
  if !Name.isPlain o.discriminatorKey then some (.keyNotIdentifier o.discriminatorKey)
  else if inheritedKeys.contains o.discriminatorKey then some (.keyInherited o.discriminatorKey)
  else if !isIndent o.indent then some .mixedIndent
  else if !o.banner.all isBannerLine then some .brokenBanner
  else if (Text.trim o.runtimeModule).isEmpty then some .blankRuntimeModule
  else if (Text.trim o.typesModule).isEmpty then some .blankTypesModule
  else none

/-- The options that settings ask for, with defaults for the rest. -/
def ofSettings (s : Settings) : Options :=
  let standard : Options := {}
  { discriminatorKey := s.discriminatorKey.getD standard.discriminatorKey
    indent := s.indent.getD standard.indent
    banner := s.banner.getD standard.banner
    runtimeModule := s.runtimeModule.getD standard.runtimeModule
    typesModule := s.typesModule.getD standard.typesModule
    title := s.title }

/-- The options that settings ask for, if they are acceptable. -/
def resolve (s : Settings) : Except ConfigError Options :=
  let o := ofSettings s
  match o.check with
  | some e => .error e
  | none => .ok o

theorem check_of_resolve {s : Settings} {o : Options} (h : resolve s = .ok o) :
    o.check = none := by
  unfold resolve at h
  dsimp only at h
  split at h
  · cases h
  · next hnone =>
    cases h
    exact hnone

end Options
end WireModel
