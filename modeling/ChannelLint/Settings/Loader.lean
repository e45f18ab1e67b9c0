import ChannelLint.FileTree
import ChannelLint.Json.Reader
import ChannelLint.Log
import ChannelLint.Settings.Reader

/-!
# Settings of a project

Settings come from a file that is named, or from the settings file in the root of the project, or
are the defaults. Levels given besides win over those of the file.
-/
namespace ChannelLint

inductive SettingsFault where
  | missing (path : String)
  | unreadable (path : String) (fault : ReadFault)
  | malformed (path reason : String)
  | notObject (path : String)
  | invalid (path : String) (faults : List Invalid)
  | invalidOverride (faults : List Invalid)
  deriving DecidableEq, Repr

def SettingsFault.message : SettingsFault → String
  | missing path => s!"Configuration file '{path}' not found"
  | unreadable path fault => s!"Cannot read configuration file '{path}': " ++ fault.message path
  | malformed path reason => s!"Invalid bslint configuration file '{path}': {reason}"
  | notObject path => s!"Invalid bslint configuration file '{path}': expected a JSON object"
  | invalid path _ => s!"Invalid bslint configuration file '{path}'"
  | invalidOverride _ => "Invalid rule override"

/-- The fields at fault. -/
def SettingsFault.details : SettingsFault → List Invalid
  | invalid _ faults | invalidOverride faults => faults
  | _ => []

namespace Settings

def fileName : String := "bslint.json"

/-- The settings file in the root of a project, if there is one. -/
def find? (t : FileTree) (root : String) : Option String :=
  let path := Path.join root fileName
  if t.isFile path then some path else none

/-- What loading settings from a file logs. -/
def loadLog (path : String) (s : Settings) : Log :=
  let unknown := s.unknownRules
  let names := ", ".intercalate unknown
  let warning : Log := if unknown.isEmpty then []
    else [⟨.warning, .settings, s!"Unknown rule(s) in {path} ignored: {names}"⟩]
  warning ++ [⟨.info, .settings, s!"Loaded configuration from {path}"⟩]

def load (t : FileTree) (path : String) : Except SettingsFault Settings := do
  let text ← (t.readText path).mapError fun
    | .path .missing => .missing path
    | fault => .unreadable path fault
  let json ← (Json.Reader.read text.toList).mapError fun fault =>
    .malformed path (fault.message text.toList)
  match json with
  | .object _ => (Settings.ofJson json).mapError (.invalid path)
  | _ => throw (.notObject path)

/-- The settings for a project, and what finding them logs. An empty path names no file. -/
def resolve (t : FileTree) (root : String) (path? : Option String) (rules : OrderedMap Json) :
    Except SettingsFault (Settings × Log) := do
  let path? := match path? with
    | some path => if path.isEmpty then find? t root else some path
    | none => find? t root
  let (settings, log) ← match path? with
    | some path => do
      let s ← load t path
      pure (s, loadLog path s)
    | none => pure ({}, [])
  if rules.isEmpty then return (settings, log)
  else return (← (settings.override rules).mapError .invalidOverride, log)

end Settings

end ChannelLint
