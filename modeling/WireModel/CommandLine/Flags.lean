import WireModel.Emission.Target
import WireModel.Options
import WireModel.Text.Blank

/-!
# Flags

The values of the flags of the command line, as they were given, and the settings that they stand
for.
-/

namespace WireModel.CommandLine

structure Flags where
  model : Option String := none
  target : Option String := none
  output : Option String := none
  snippets : Option String := none
  discriminatorKey : Option String := none
  indent : Option String := none
  runtimeModule : Option String := none
  typesModule : Option String := none
  title : Option String := none
  verbose : Bool := false
  deriving DecidableEq, Repr

/-- The target with a name, in any case and with any space around it. -/
def resolveTarget (value : Option String) : Except ConfigError Target :=
  match Target.ofName? (Text.lower (Text.trim (value.getD "typescript"))) with
  | some target => .ok target
  | none => .error (.unsupportedTarget (value.getD ""))

/-- The natural number that a text of digits spells. -/
def widthOf? (s : String) : Option Nat :=
  let cs := s.toList
  if cs.isEmpty || !cs.all Text.isDigit then none
  else some (cs.foldl (fun n c => 10 * n + (c.toNat - 48)) 0)

/-- The indentation for a number of spaces from one to eight, or for `tab`. -/
def parseIndent (value : String) : Except ConfigError String :=
  let s := Text.lower (Text.trim value)
  if s = "tab" then .ok "\t"
  else
    match widthOf? s with
    | some n =>
      if 1 ≤ n ∧ n ≤ 8 then .ok (String.ofList (List.replicate n ' '))
      else .error (.indentOutOfRange value)
    | none => .error (.indentOutOfRange value)

/-- The settings that flags ask for. -/
def Flags.settings (f : Flags) : Except ConfigError Settings := do
  let indent ← match f.indent with
    | some value => (parseIndent value).map some
    | none => .ok none
  .ok {
    discriminatorKey := f.discriminatorKey
    indent
    runtimeModule := f.runtimeModule
    typesModule := f.typesModule
    title := f.title }

end WireModel.CommandLine
