import ChannelLint.Guide
import ChannelLint.Lint
import ChannelLint.Settings.Loader

/-!
# Tools for an assistant

Six tools that answer in text. They share a state: the settings of the last project that was to be
linted, and the result of the last one that was. The two are kept apart, because settings are taken
over before a project is linted, and linting it may fail.
-/
namespace ChannelLint

structure ToolState where
  settings : Option Settings := none
  result : Option LintResult := none

/-- The answer of a tool, with the state and the files afterwards. A component in an encoding that
cannot be handled is the only fault that is not part of the text. -/
structure ToolAnswer where
  text : Except Markup.Fault String
  state : ToolState
  tree : FileTree

namespace ToolState

def noResult : String := "Error: No project linted. Call lint_project first."

/-- How many files that were skipped are listed. -/
def listedSkips : Nat := 10

def skippedText (skipped : List Skipped) : String :=
  if skipped.isEmpty then ""
  else s!"\n**{skipped.length} file(s) skipped** (syntax errors):\n" ++
    String.join ((skipped.take listedSkips).map fun s => s!"- `{s.path}`: {s.reason}\n")

def codesText (counts : OrderedMap Nat) : String :=
  if counts.isEmpty then ""
  else "By code: " ++ ", ".intercalate (counts.entries.map fun (code, n) => s!"`{code}` x{n}") ++
    "\n"

def summaryText (r : LintResult) : String :=
  let total := r.diagnostics.length
  let errors := r.count .error
  let warnings := r.count .warn
  let infos := r.count .info
  s!"**{total} diagnostic(s)**: {errors} error(s), {warnings} warning(s), {infos} info.\n" ++
    codesText r.byCode ++
    (if r.fixable = 0 then ""
      else s!"{r.fixable} diagnostic(s) can be fixed automatically (apply_fixes).\n") ++
    skippedText r.skipped

/-- Lints the project with given settings. -/
def lint (s : ToolState) (t : FileTree) (settings : Settings) (root : String) : ToolAnswer :=
  let run := lintProject t settings root false
  let state := { s with settings := some settings }
  match run.result with
  | .error (.project (.encoding fault)) => ⟨.error fault, state, t⟩
  | .error fault => ⟨.ok ("Error: " ++ fault.message), state, t⟩
  | .ok r =>
    let scripts := r.project.sources.scripts.entries.length
    let components := r.project.sources.components.entries.length
    let scopes := r.project.scopes.length
    ⟨.ok (s!"Linted `{root}`.\n" ++
        s!"Workspace indexed: {scripts} scripts, {components} components, {scopes} scopes.\n\n" ++
        summaryText r),
      { state with result := some r }, t⟩

/-- Lints a project. -/
def lintProject (s : ToolState) (t : FileTree) (root configPath : String) (checkUsage : Bool) :
    ToolAnswer :=
  if !t.isFolder root then ⟨.ok s!"Error: Project root not found at {root}", s, t⟩
  else match Settings.resolve t root (some configPath) ∅ with
    | .error fault => ⟨.ok ("Error: " ++ fault.message), s, t⟩
    | .ok (settings, _) =>
      s.lint t { settings with checkUsage := settings.checkUsage || checkUsage } root

def badge : Severity → String
  | .error => "ERROR"
  | .warn => "WARN"
  | .info => "INFO"

def diagnosticText (d : Diagnostic) : String :=
  let line := d.range.start.line + 1
  let column := d.range.start.column + 1
  s!"- **[{d.code.text}]** Line {line}, col {column} ({badge d.severity}): {d.message}\n" ++
    s!"  *{d.code.guide.title}*\n"

def fileText (file : String) (ds : List Diagnostic) : String :=
  s!"**{ds.length} diagnostic(s) in {file}**:\n\n" ++ String.join (ds.map diagnosticText) ++ "\n"

/-- Lists the diagnostics of a file in any letter case, or of all files. -/
def listDiagnostics (s : ToolState) (path : String) : String :=
  match s.result with
  | none => noResult
  | some r =>
    let files := r.byFile
    let chosen := if path.isEmpty then files
      else files.filter fun file _ => Text.lower file == Text.lower (Path.forwardSlashes path)
    if chosen.isEmpty then
      if path.isEmpty then "No diagnostics found." else s!"No diagnostics found for {path}"
    else String.join ((chosen.entries.mergeSort fun a b => a.1 ≤ b.1).map fun (file, ds) =>
      fileText file ds)

def usageRow (d : Diagnostic) : String :=
  s!"| {d.code.text} | `{d.file}` | {d.message} |\n"

def usageText (g : UsageGraph) (unused : List Diagnostic) : String :=
  let n := g.summary
  "# Usage Report\n\n" ++
    s!"**Vertices**: {n.vertices} ({n.components} components, {n.scripts} scripts), " ++
    s!"{n.edges} edges, {n.reached} reached.\n\n" ++
    (if unused.isEmpty then "Every component and script is reachable from the entry point."
      else "| Code | File | Message |\n|------|------|---------|\n" ++
        String.join (unused.map usageRow))

def isUnused (d : Diagnostic) : Bool :=
  d.code == .unusedComponent || d.code == .unusedScript

/-- Reports the usage graph. If the last run did not check it, it is checked now. -/
def usageReport (s : ToolState) : String :=
  match s.result with
  | none => noResult
  | some r =>
    match r.graph, r.project.brokenEntry? with
    | some g, _ => usageText g (r.diagnostics.filter isUnused)
    | none, some entry =>
      s!"Usage check skipped: `{entry.path}` could not be parsed ({entry.reason})."
    | none, none =>
      match r.project.usageGraph.check? with
      | none => "Error: " ++ UsageGraph.missingEntry
      | some check => usageText check.graph (check.diagnostics (s.settings.getD {}))

def appliedText (applied : OrderedMap Nat) : String :=
  s!"Fixes for {applied.entries.length} file(s):\n\n" ++
    String.join ((applied.entries.mergeSort fun a b => a.1 ≤ b.1).map fun (file, n) =>
      s!"- `{file}`: {n} edit(s)\n")

/-- Writes the fixes of the last result, or those of one file, and lints the project again. -/
def applyFixes (s : ToolState) (t : FileTree) (path : String) (dryRun : Bool) : ToolAnswer :=
  match s.result with
  | none => ⟨.ok noResult, s, t⟩
  | some r =>
    if r.fixes.isEmpty then ⟨.ok "No automatic fixes available.", s, t⟩
    else
      let chosen := if path.isEmpty then r.fixes
        else r.fixes.filter fun file _ => Text.lower file == Text.lower (Path.forwardSlashes path)
      if chosen.isEmpty then ⟨.ok s!"No automatic fixes available for {path}", s, t⟩
      else
        let report := ChannelLint.applyFixes t r.project.root chosen dryRun
        let text := appliedText report.applied
        if dryRun then ⟨.ok ("**[Dry Run]** " ++ text), s, report.tree⟩
        else
          let settings := s.settings.getD {}
          match (ChannelLint.lintProject report.tree settings r.project.root false).result with
          | .error (.project (.encoding fault)) => ⟨.error fault, s, report.tree⟩
          | .error fault => ⟨.ok (text ++ "\nError re-linting: " ++ fault.message), s, report.tree⟩
          | .ok r =>
            ⟨.ok (text ++ "\nRe-linted after fixes.\n\n" ++ summaryText r),
              { s with result := some r }, report.tree⟩

def familyName (code : Code) : String :=
  match code.text.toList[4]? with
  | some '1' => "Variables"
  | some '2' => "Returns"
  | some '4' => "Unused code"
  | _ => "Other"

def coverageRow (s : ToolState) (code : Code) : String :=
  let key := code.rule.key
  let configured := match s.settings with
    | some settings => (settings.level key).text
    | none => "-"
  s!"| {familyName code} | {code.text} | {code.guide.title} | `{key}` | " ++
    s!"{code.rule.defaultLevel.text} | {configured} |\n"

/-- All codes, with the levels of their rules. -/
def coverageReport (s : ToolState) : String :=
  "# BrightScript Lint Coverage Report\n\n" ++
    s!"**Total Rules Supported**: {Code.all.length}\n\n" ++
    "| Family | Code | Title | Rule | Default | Configured |\n" ++
    "|--------|------|-------|------|---------|------------|\n" ++
    String.join ((Code.all.mergeSort fun a b => a.text ≤ b.text).map s.coverageRow)

end ToolState

end ChannelLint
