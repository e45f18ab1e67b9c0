import ChannelLint.OrderedMap

/-!
# Rules and codes

Every finding has a code. Every code belongs to a rule, and the level of the rule decides whether
its findings are reported and how severe they are.
-/
namespace ChannelLint

inductive Severity where
  | error | warn | info
  deriving DecidableEq, Repr

def Severity.text : Severity → String
  | error => "error"
  | warn => "warn"
  | info => "info"

/-- The level of a rule. Findings of a rule that is off are not reported. -/
inductive Level where
  | error | warn | info | off
  deriving DecidableEq, Repr

namespace Level

def text : Level → String
  | error => "error"
  | warn => "warn"
  | info => "info"
  | off => "off"

def ofText? (s : String) : Option Level :=
  [error, warn, info, off].find? (·.text == s)

def severity? : Level → Option Severity
  | error => some .error
  | warn => some .warn
  | info => some .info
  | off => none

end Level

inductive Rule where
  | uninitializedVariable | unsafeIterators | assignAllPaths | unsafePathLoop | caseSensitivity
  | unusedVariable | unreachableCode | consistentReturn | unusedCode
  deriving DecidableEq, Repr

namespace Rule

def all : List Rule :=
  [uninitializedVariable, unsafeIterators, assignAllPaths, unsafePathLoop, caseSensitivity,
    unusedVariable, unreachableCode, consistentReturn, unusedCode]

/-- The key of a rule in the settings. -/
def key : Rule → String
  | uninitializedVariable => "uninitialized-variable"
  | unsafeIterators => "unsafe-iterators"
  | assignAllPaths => "assign-all-paths"
  | unsafePathLoop => "unsafe-path-loop"
  | caseSensitivity => "case-sensitivity"
  | unusedVariable => "unused-variable"
  | unreachableCode => "unreachable-code"
  | consistentReturn => "consistent-return"
  | unusedCode => "unused-code"

def defaultLevel : Rule → Level
  | uninitializedVariable | unsafeIterators | assignAllPaths | unsafePathLoop
  | consistentReturn => .error
  | caseSensitivity | unusedVariable | unusedCode => .warn
  | unreachableCode => .info

/-- The levels that hold without any settings. -/
def defaultLevels : OrderedMap Level :=
  ⟨all.map fun rule => (rule.key, rule.defaultLevel)⟩

end Rule

inductive Code where
  | uninitializedVariable | iteratorOutsideLoop | unassignedPath | caseMismatch | unusedVariable
  | unreachableCode | unexpectedReturnValue | missingReturnPath | missingReturnValue
  | unusedComponent | unusedScript
  deriving DecidableEq, Repr

namespace Code

def all : List Code :=
  [uninitializedVariable, iteratorOutsideLoop, unassignedPath, caseMismatch, unusedVariable,
    unreachableCode, unexpectedReturnValue, missingReturnPath, missingReturnValue,
    unusedComponent, unusedScript]

def text : Code → String
  | uninitializedVariable => "LINT1001"
  | iteratorOutsideLoop => "LINT1002"
  | unassignedPath => "LINT1003"
  | caseMismatch => "LINT1004"
  | unusedVariable => "LINT1005"
  | unreachableCode => "LINT2001"
  | unexpectedReturnValue => "LINT2002"
  | missingReturnPath => "LINT2004"
  | missingReturnValue => "LINT2006"
  | unusedComponent => "LINT4001"
  | unusedScript => "LINT4002"

def rule : Code → Rule
  | uninitializedVariable => .uninitializedVariable
  | iteratorOutsideLoop => .unsafeIterators
  | unassignedPath => .assignAllPaths
  | caseMismatch => .caseSensitivity
  | unusedVariable => .unusedVariable
  | unreachableCode => .unreachableCode
  | unexpectedReturnValue | missingReturnPath | missingReturnValue => .consistentReturn
  | unusedComponent | unusedScript => .unusedCode

end Code

end ChannelLint
