import ChannelLint.Settings
import ChannelLint.Text.Position

/-!
# Findings, diagnostics and edits

An analysis yields findings: an issue and the range it concerns. Settings turn a finding into a
diagnostic with a severity, or drop it if its rule is off. The analyses themselves do not look at
the levels of the rules.
-/
namespace ChannelLint

/-- Whether a function was declared as a sub or as a function. -/
inductive FunctionKind where
  | sub | function
  deriving DecidableEq, Repr

def FunctionKind.text : FunctionKind → String
  | sub => "Sub"
  | function => "Function"

/-- What can be wrong. -/
inductive Issue where
  | uninitialized (name scope : String)
  | iteratorOutsideLoop (name : String)
  | unassignedPath (name : String)
  | caseMismatch (name known : String)
  | unusedVariable (name : String)
  | unreachableCode
  | unexpectedReturnValue (kind : FunctionKind)
  | missingReturnPath
  | missingReturnValue (kind : FunctionKind)
  | unusedComponent (pkgPath : String)
  | unusedScript (pkgPath : String)
  deriving DecidableEq, Repr

namespace Issue

def code : Issue → Code
  | uninitialized .. => .uninitializedVariable
  | iteratorOutsideLoop _ => .iteratorOutsideLoop
  | unassignedPath _ => .unassignedPath
  | caseMismatch .. => .caseMismatch
  | unusedVariable _ => .unusedVariable
  | unreachableCode => .unreachableCode
  | unexpectedReturnValue _ => .unexpectedReturnValue
  | missingReturnPath => .missingReturnPath
  | missingReturnValue _ => .missingReturnValue
  | unusedComponent _ => .unusedComponent
  | unusedScript _ => .unusedScript

def message : Issue → String
  | uninitialized name scope =>
    s!"Using uninitialised variable '{name}' when this file is included in scope '{scope}'"
  | iteratorOutsideLoop name => s!"Using iterator variable '{name}' outside loop"
  | unassignedPath name => s!"Not all the code paths assign '{name}'"
  | caseMismatch name known =>
    s!"Variable '{name}' was previously set with a different casing as '{known}'"
  | unusedVariable name => s!"Variable '{name}' is set but value is never used"
  | unreachableCode => "Unreachable code"
  | unexpectedReturnValue kind => kind.text ++ " as void should not return a value"
  | missingReturnPath => "Not all code paths return a value"
  | missingReturnValue kind => kind.text ++ " should consistently return a value"
  | unusedComponent pkgPath => s!"Component '{pkgPath}' does not seem to be used"
  | unusedScript pkgPath => s!"Script '{pkgPath}' does not seem to be used"

def tags : Issue → List String
  | unreachableCode => ["unnecessary"]
  | _ => []

end Issue

/-- The replacement of a range of text. -/
structure TextEdit where
  range : Range
  text : String
  deriving DecidableEq, Repr

structure Finding where
  issue : Issue
  range : Range
  deriving DecidableEq, Repr

structure Diagnostic where
  severity : Severity
  issue : Issue
  range : Range
  /-- The path, in the package, of the file it concerns. -/
  file : String
  deriving DecidableEq, Repr

namespace Diagnostic

def code (d : Diagnostic) : Code := d.issue.code

def message (d : Diagnostic) : String := d.issue.message

/-- The edits that resolve a diagnostic: a name in the wrong case takes the known spelling. -/
def fixes (d : Diagnostic) : List TextEdit :=
  match d.issue with
  | .caseMismatch _ known => [⟨d.range, known⟩]
  | _ => []

/-- Order by file, then by start, then by code. -/
def precedes (a b : Diagnostic) : Bool :=
  if a.file != b.file then a.file < b.file
  else if a.range.start.line != b.range.start.line then a.range.start.line < b.range.start.line
  else if a.range.start.column != b.range.start.column then
    a.range.start.column < b.range.start.column
  else a.code.text ≤ b.code.text

/-- Sorts by `precedes`; diagnostics that tie keep their order. -/
def sort (ds : List Diagnostic) : List Diagnostic :=
  ds.mergeSort precedes

/-- `file:line:column severity code: message`, counted from one. -/
def render (d : Diagnostic) : String :=
  let line := d.range.start.line + 1
  let column := d.range.start.column + 1
  s!"{d.file}:{line}:{column} {d.severity.text} {d.code.text}: {d.message}"

end Diagnostic

/-- The diagnostic for a finding in `file`; nothing if its rule is off. -/
def Settings.report? (s : Settings) (file : String) (f : Finding) : Option Diagnostic :=
  (s.severity? f.issue.code.rule).map fun severity => ⟨severity, f.issue, f.range, file⟩

def Settings.report (s : Settings) (file : String) (fs : List Finding) : List Diagnostic :=
  fs.filterMap (s.report? file)

end ChannelLint
