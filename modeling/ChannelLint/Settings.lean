import ChannelLint.Rule
import ChannelLint.Text.Path
import ChannelLint.Text.Pattern

/-!
# Settings

Which rules are reported at which level, which names are known from outside, which files are
ignored. A level given here wins over the default level of its rule; a rule that has neither is
off.
-/
namespace ChannelLint

structure Settings where
  rules : OrderedMap Level := ∅
  globals : List String := []
  ignores : List String := []
  checkUsage : Bool := false
  fix : Bool := false
  deriving DecidableEq, Repr, Inhabited

namespace Settings

/-- The default levels with the given levels over them. -/
def levels (s : Settings) : OrderedMap Level :=
  Rule.defaultLevels.merge s.rules

def level (s : Settings) (key : String) : Level :=
  (s.levels.find? key).getD .off

/-- The severity of the findings of a rule; nothing if the rule is off. -/
def severity? (s : Settings) (rule : Rule) : Option Severity :=
  (s.level rule.key).severity?

/-- Whether a loop counts as a branch that may not run. -/
def loopsBranch (s : Settings) : Bool :=
  (s.severity? .unsafePathLoop).isSome

/-- Names known from outside, in lower case. -/
def globalNames (s : Settings) : List String :=
  s.globals.map Text.lower

/-- An ignore pattern may match at any depth. -/
def anywhere (pattern : String) : String :=
  if pattern.startsWith "**/" then pattern else "**/" ++ pattern

/-- Whether a file is ignored. Paths are compared with forward slashes and a leading one. -/
def isIgnored (s : Settings) (path : String) : Bool :=
  let normal := Path.forwardSlashes path
  let normal := if normal.startsWith "/" then normal else "/" ++ normal
  s.ignores.any fun pattern => Text.Pattern.isMatch (anywhere pattern) normal

end Settings

end ChannelLint
