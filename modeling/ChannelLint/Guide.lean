import ChannelLint.Rule
import ChannelLint.Text.Case

/-!
# The guide to the codes

For each code a title, the reason behind it, an example that is flagged, one that is clean, and how
to get from one to the other.
-/
namespace ChannelLint

structure Guide where
  title : String
  rationale : String
  flagged : String
  clean : String
  fixStrategy : String
  autoFixable : Bool := false
  related : List Code := []
  deriving DecidableEq, Repr

def Code.guide : Code → Guide
  | .uninitializedVariable =>
    { title := "Uninitialised variable"
      rationale :=
        "Reading a name that is never assigned in the function and is not a function, " ++
        "namespace, class, enum or constant visible in the scope yields `invalid` at runtime, " ++
        "or a crash when it is dereferenced."
      flagged :=
        "sub main()\n    print title\nend sub"
      clean :=
        "sub main()\n    title = \"Home\"\n    print title\nend sub"
      fixStrategy :=
        "Assign the variable before reading it, or declare the function it refers to in a " ++
        "script included by every scope that loads this file. Project-wide helpers injected " ++
        "at runtime can be listed in `globals`."
      related := [.unassignedPath] }
  | .iteratorOutsideLoop =>
    { title := "Unsafe iterator variable"
      rationale :=
        "A `for` counter or `for each` item keeps the value of the last iteration, or is never " ++
        "set when the loop does not run.  Using it after the loop hides that dependency."
      flagged :=
        "for each item in items\nend for\nprint item"
      clean :=
        "last = invalid\nfor each item in items\n    last = item\nend for\nprint last"
      fixStrategy :=
        "Copy the value into a variable assigned before the loop." }
  | .unassignedPath =>
    { title := "Not all the code paths assign the variable"
      rationale :=
        "A variable assigned in only some branches of an `if`, a loop body or a `try` is " ++
        "uninitialised on the other paths."
      flagged :=
        "if ready then\n    a = 1\nend if\nprint a"
      clean :=
        "a = 0\nif ready then\n    a = 1\nend if\nprint a"
      fixStrategy :=
        "Assign a default before the conditional, or assign the variable in every branch " ++
        "(including an `else`)."
      related := [.uninitializedVariable] }
  | .caseMismatch =>
    { title := "Variable case mismatch"
      rationale :=
        "BrightScript names are case-insensitive, so `userName` and `username` are the same " ++
        "variable.  Mixed spellings read as different variables."
      flagged :=
        "userName = \"a\"\nprint username"
      clean :=
        "userName = \"a\"\nprint userName"
      fixStrategy :=
        "Use the spelling of the first assignment.  `apply_fixes` renames it."
      autoFixable := true }
  | .unusedVariable =>
    { title := "Unused variable"
      rationale :=
        "A value that is assigned but never read is dead code or a typo."
      flagged :=
        "sub main()\n    count = 1\nend sub"
      clean :=
        "sub main()\nend sub"
      fixStrategy :=
        "Delete the assignment, or use the value."
      related := [.unreachableCode] }
  | .unreachableCode =>
    { title := "Unreachable code"
      rationale :=
        "Statements after a `return` or `throw` in the same block never run. They are usually a " ++
        "logic error or leftover code."
      flagged :=
        "function f()\n    return 1\n    print \"done\"\nend function"
      clean :=
        "function f()\n    print \"done\"\n    return 1\nend function"
      fixStrategy :=
        "Delete the unreachable statements or move them before the return." }
  | .unexpectedReturnValue =>
    { title := "Return value unexpected"
      rationale :=
        "A `sub`, or a function declared `as void`, must not return a value."
      flagged :=
        "sub f()\n    return 1\nend sub"
      clean :=
        "function f() as integer\n    return 1\nend function"
      fixStrategy :=
        "Remove the value from the `return`, or declare a `function` with a return type."
      related := [.missingReturnValue] }
  | .missingReturnPath =>
    { title := "Not all code paths return a value"
      rationale :=
        "A function declared with a return type, or one that returns a value somewhere, " ++
        "silently returns `invalid` when a path falls through."
      flagged :=
        "function f(x) as integer\n    if x then\n        return 1\n    end if\nend function"
      clean :=
        "function f(x) as integer\n    if x then\n        return 1\n    end if\n    return " ++
        "0\nend function"
      fixStrategy :=
        "Add a `return` (or `throw`) at the end of every path."
      related := [.missingReturnValue] }
  | .missingReturnValue =>
    { title := "Inconsistent return"
      rationale :=
        "Mixing `return` and `return value` in one function makes the result unpredictable."
      flagged :=
        "function f(x)\n    if x then return\n    return 1\nend function"
      clean :=
        "function f(x)\n    if x then return 0\n    return 1\nend function"
      fixStrategy :=
        "Return a value from every `return` statement."
      related := [.missingReturnPath] }
  | .unusedComponent =>
    { title := "Unused component"
      rationale :=
        "A component that is never extended, instantiated as a child node, used as an item " ++
        "component, nor named in a string literal reachable from `source/main.brs` is never " ++
        "loaded."
      flagged :=
        "<component name=\"OldScreen\" extends=\"Group\" />"
      clean :=
        "' MainScene.xml\n<children>\n    <OldScreen id=\"screen\" />\n</children>"
      fixStrategy :=
        "Delete the component and its scripts, or reference it from a reachable component.  " ++
        "Only enabled with `checkUsage`."
      related := [.unusedScript] }
  | .unusedScript =>
    { title := "Unused script"
      rationale :=
        "A script that is not under `source/`, not included by a reachable component and not " ++
        "imported is never loaded."
      flagged :=
        "' components/legacy/helpers.brs, included by no component"
      clean :=
        "<script type=\"text/brightscript\" uri=\"pkg:/components/legacy/helpers.brs\" />"
      fixStrategy :=
        "Delete the script, or include it from the component that needs it."
      related := [.unusedComponent] }

namespace Code

/-- Upper case as far as it can make a code: two letters outside ASCII have a capital inside it. -/
def upperChar (c : Char) : Char :=
  if c == 'ı' then 'I' else if c == 'ſ' then 'S' else c.toUpper

/-- A code by its text in any letter case, or the first code of a rule by the key of the rule. -/
def lookup? (s : String) : Option Code :=
  let upper := String.ofList (s.toList.map upperChar)
  (all.find? (·.text == upper)).or (all.find? (·.rule.key == s))

/-- The codes whose number begins with `family`. -/
def family (family : String) : List Code :=
  all.filter (·.text.startsWith ("LINT" ++ family))

/-- Everything the guide says about a code. -/
def explain (c : Code) : String :=
  let g := c.guide
  s!"## {c.text}: {g.title}\n" ++
  s!"**Rule**: `{c.rule.key}` (default: {c.rule.defaultLevel.text})\n\n" ++
  s!"### Rationale\n{g.rationale}\n\n" ++
  s!"### Flagged\n```brightscript\n{g.flagged}\n```\n\n" ++
  s!"### Clean\n```brightscript\n{g.clean}\n```\n\n" ++
  s!"### How to Fix\n{g.fixStrategy}" ++
  (if g.autoFixable then "\n\n*This diagnostic can be fixed automatically.*" else "") ++
  (if g.related.isEmpty then ""
    else "\n\n### Related Rules\n" ++ ", ".intercalate (g.related.map (·.text)))

end Code

/-- The explanation of a code or rule that is given by name. -/
def explainRule (name : String) : String :=
  match Code.lookup? name with
  | some code => code.explain
  | none => "Unknown rule: " ++ name

end ChannelLint
