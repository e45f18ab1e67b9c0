import ChannelLint.Fixer
import ChannelLint.Flow.Session
import ChannelLint.Project

/-!
# Linting a project

The project is read, every script is analysed, names that wait for their scope are decided, and on
request the usage graph is checked and the fixes are written back. Diagnostics of ignored files are
dropped at the end, so that ignoring a file changes nothing about the others.
-/
namespace ChannelLint

structure LintResult where
  project : Project
  diagnostics : List Diagnostic
  /-- The edits that resolve diagnostics, by package path. -/
  fixes : OrderedMap (List TextEdit)
  /-- How many edits were written, by package path. -/
  applied : OrderedMap Nat
  graph : Option UsageGraph

inductive LintFault where
  | project (fault : ProjectFault)
  | noEntry
  deriving DecidableEq, Repr

def LintFault.message : LintFault → String
  | project fault => fault.message
  | noEntry => UsageGraph.missingEntry

/-- How linting a project ended, what it logged, and the files afterwards. -/
structure LintRun where
  result : Except LintFault LintResult
  log : Log
  tree : FileTree

namespace Project

/-- Scripts in the order of their keys. -/
def sortedScripts (p : Project) : List Script :=
  (p.sources.scripts.keys.mergeSort (· ≤ ·)).filterMap p.sources.scripts.find?

/-- The diagnostics of every script by itself, and the names that wait for their scope. -/
def analyze (p : Project) (settings : Settings) : List Diagnostic × Session :=
  p.sortedScripts.foldl (fun (ds, session) script =>
    let (more, session) := session.analyze settings script
    (ds ++ more, session)) ([], {})

def flowLog (p : Project) (settings : Settings) (session : Session) : Log :=
  let ignored := p.sortedScripts.filter fun script => settings.isIgnored script.path
  (ignored.map fun script => ⟨.debug, .flow, s!"Ignoring {script.pkgPath}"⟩) ++
    p.scopes.map fun scope =>
      let n := (session.finalize settings scope).length
      ⟨.debug, .flow, s!"Scope '{scope.name}': {n} deferred diagnostic(s)"⟩

/-- The entry script, if it is there and could not be read. -/
def brokenEntry? (p : Project) : Option Skipped :=
  p.sources.skipped.find? fun s => entryPoints.contains (Text.lower s.path)

/-- The usage graph of a project: components first, then scopes. -/
def usageGraph (p : Project) : UsageGraph :=
  p.scopes.foldl UsageGraph.addScope (p.sources.sortedComponents.foldl UsageGraph.addComponent {})

def usageLog (p : Project) : Log :=
  p.scopes.flatMap UsageGraph.scopeLog

end Project

/-- What the usage check of a run gives: a graph and diagnostics, unless the check is left out. -/
structure UsageOutcome where
  graph : Option UsageGraph := none
  diagnostics : List Diagnostic := []

/-- The usage check. It is left out if it is off, and with a warning if the entry script could not
be read. -/
def checkUsage (settings : Settings) (p : Project) : Logged LintFault UsageOutcome :=
  if !settings.checkUsage then ⟨.ok {}, []⟩
  else match p.brokenEntry? with
    | some entry =>
      ⟨.ok {}, [⟨.warning, .linter, s!"Usage check skipped: entry point {entry.path} " ++
        s!"could not be parsed ({entry.reason})"⟩]⟩
    | none =>
      match p.usageGraph.check? with
      | none => ⟨.error .noEntry, p.usageLog⟩
      | some check =>
        ⟨.ok ⟨some check.graph, check.diagnostics settings⟩, p.usageLog ++ check.log settings⟩

/-- The edits that resolve diagnostics, by file. -/
def fixesByFile (ds : List Diagnostic) : OrderedMap (List TextEdit) :=
  ds.foldl (fun fixes d =>
    if d.fixes.isEmpty then fixes
    else fixes.insert d.file ((fixes.find? d.file).getD [] ++ d.fixes)) ∅

/-- Fixes with the paths of the files in place of their package paths. -/
def onDisk (root : String) (fixes : OrderedMap (List TextEdit)) : OrderedMap (List TextEdit) :=
  .ofList (fixes.entries.map fun (path, edits) => (Path.join root path, edits))

/-- Writes fixes to the files below a root; the report has package paths. -/
def applyFixes (t : FileTree) (root : String) (fixes : OrderedMap (List TextEdit))
    (dryRun : Bool) : FixReport :=
  let report := t.fix (onDisk root fixes) dryRun
  { report with
    applied := .ofList (fixes.keys.filterMap fun path =>
      (report.applied.find? (Path.join root path)).map (path, ·)) }

/-- The diagnostics of a project that are not ignored, in order. -/
def kept (settings : Settings) (ds : List Diagnostic) : List Diagnostic :=
  Diagnostic.sort (ds.filter fun d => !settings.isIgnored d.file)

/-- Lints the project in a folder. -/
def lintProject (t : FileTree) (settings : Settings) (root : String) (fix : Bool) : LintRun :=
  let index := Project.read t root
  match index.result with
  | .error fault => ⟨.error (.project fault), index.log, t⟩
  | .ok p =>
    let (flow, session) := p.analyze settings
    let deferred := p.scopes.flatMap (session.finalize settings)
    let usage := checkUsage settings p
    let log := index.log ++ p.flowLog settings session ++ usage.log
    match usage.result with
    | .error fault => ⟨.error fault, log, t⟩
    | .ok outcome =>
      let diagnostics := kept settings (flow ++ deferred ++ outcome.diagnostics)
      let fixes := fixesByFile diagnostics
      let report := if fix then applyFixes t root fixes false else { tree := t }
      let skipped := p.sources.skipped.length
      let done : LogLine := ⟨.info, .linter,
        s!"Linted {root}: {diagnostics.length} diagnostic(s), {skipped} file(s) skipped"⟩
      ⟨.ok ⟨p, diagnostics, fixes, report.applied, outcome.graph⟩, log ++ report.log ++ [done],
        report.tree⟩

namespace LintResult

def skipped (r : LintResult) : List Skipped :=
  r.project.sources.skipped

/-- Diagnostics by file, in order. -/
def byFile (r : LintResult) : OrderedMap (List Diagnostic) :=
  r.diagnostics.foldl (fun files d =>
    files.insert d.file ((files.find? d.file).getD [] ++ [d])) ∅

def count (r : LintResult) (severity : Severity) : Nat :=
  (r.diagnostics.filter (·.severity == severity)).length

/-- How often each code was reported, in the order of the codes. -/
def byCode (r : LintResult) : OrderedMap Nat :=
  let counts : OrderedMap Nat := r.diagnostics.foldl (fun counts d =>
    counts.insert d.code.text ((counts.find? d.code.text).getD 0 + 1)) ∅
  ⟨counts.entries.mergeSort fun a b => a.1 ≤ b.1⟩

def fixable (r : LintResult) : Nat :=
  r.fixes.values.foldl (fun n edits => n + edits.length) 0

end LintResult

end ChannelLint
