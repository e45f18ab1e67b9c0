import ChannelLint.Proofs.Casing.Outline
import ChannelLint.Proofs.Ending
import ChannelLint.Proofs.Usage.Loading

/-!
# Dead scripts

A run with the usage check reports a script exactly once if some scope loads it and nothing that
loads it is reached from the entry script. A script gets its vertex from the scopes that load it, so
one that no scope loads is never reported, though nothing reaches it.

The vertex of a script is one of the vertices that the check runs over, which are all different, and
no walk over a function and no scope says anything about files. That the project can be read implies
a relative root.
-/
namespace ChannelLint

open List

variable {session : Session}

open UsageGraph

variable {settings : Settings}

/-- A diagnostic that a script is not used. -/
def Diagnostic.reportsScript (path : String) (d : Diagnostic) : Bool :=
  d.code == .unusedScript && d.file == path

/-- What a run says about a script that is not used. -/
def LintResult.unusedScripts (r : LintResult) (path : String) : List Diagnostic :=
  r.diagnostics.filter (Diagnostic.reportsScript path)

theorem Owner.filter_diagnostic? (severity : Severity) (owner : Owner) (path : String) :
    (owner.diagnostic? severity).filter (Diagnostic.reportsScript path) =
      if owner = .script path then some ⟨severity, .unusedScript path, .create 0 0 1 0, path⟩
      else none := by
  cases owner with
  | component path' range =>
    cases range with
    | none => rfl
    | some r => rfl
  | script path' =>
    by_cases same : path' = path
    · simp [Owner.diagnostic?, Diagnostic.reportsScript, Diagnostic.code, Issue.code, same]
    · simp [Owner.diagnostic?, Diagnostic.reportsScript, Diagnostic.code, Issue.code, same]

/-- In a list without duplicates one place at most gives something. -/
theorem filterMap_single {α : Type} {names : List String} (distinct : names.Nodup) {name : String}
    (member : name ∈ names) (a : α) :
    (names.filterMap fun other => if other = name then some a else none) = [a] := by
  have once : names.filter (· = name) = [name] := by
    rw [filter_eq, distinct.count, if_pos member, replicate_one]
  calc _ = (names.filter (· = name)).filterMap fun _ => some a := by simp [filterMap_filter]
    _ = [a] := by rw [once]; rfl

/-! ## Other findings -/

/-- Walking over a function says nothing about files. -/
theorem Func.rule_of_mem_flow {f : Func} {loopsBranch : Bool} {finding : Finding}
    (member : finding ∈ (f.flow loopsBranch).findings) : finding.issue.code.rule ≠ .unusedCode := by
  obtain ⟨last, -, -, closed⟩ := f.flow_eq loopsBranch
  rw [closed] at member
  rcases mem_append.1 member with early | unused
  · rcases mem_append.1 early with walked | late
    · exact (f.bodyWalk_findings loopsBranch finding walked).2
    · rw [Walk.rule_of_mem_returnFindings late]
      exact nofun
  · obtain ⟨name, issue⟩ := Walk.unusedFindings_issue _ finding unused
    rw [issue]
    exact nofun

theorem Settings.rule_of_mem_report {file : String} {findings : List Finding}
    (each : ∀ finding ∈ findings, finding.issue.code.rule ≠ .unusedCode) :
    ∀ d ∈ settings.report file findings, d.code.rule ≠ .unusedCode := by
  intro d member
  obtain ⟨finding, isFinding, reported⟩ := mem_filterMap.1 member
  obtain ⟨severity, -, rfl⟩ := Option.map_eq_some_iff.1 reported
  exact each finding isFinding

theorem Session.rule_of_mem_analyze {s : Script} :
    ∀ d ∈ (session.analyze settings s).1, d.code.rule ≠ .unusedCode := by
  unfold Session.analyze
  split
  · exact nofun
  · refine Settings.rule_of_mem_report fun finding member => ?_
    obtain ⟨⟨f, w⟩, isWalk, inWalk⟩ := mem_flatMap.1 member
    obtain ⟨g, -, same⟩ := mem_map.1 isWalk
    cases same
    exact Func.rule_of_mem_flow inWalk

theorem Session.rule_of_mem_finalize {scope : Scope} :
    ∀ d ∈ session.finalize settings scope, d.code.rule ≠ .unusedCode := by
  intro d member
  obtain ⟨file, -, inFile⟩ := mem_flatMap.1 member
  refine Settings.rule_of_mem_report (fun finding isFinding => ?_) d inFile
  obtain ⟨use, -, rfl⟩ := mem_map.1 isFinding
  exact nofun

theorem Project.rule_of_mem_analyze (p : Project) (settings : Settings) :
    ∀ d ∈ (p.analyze settings).1, d.code.rule ≠ .unusedCode := by
  have step (scripts : List Script) (ds : List Diagnostic) (session : Session)
      (each : ∀ d ∈ ds, d.code.rule ≠ .unusedCode) :
      ∀ d ∈ (scripts.foldl (fun state script =>
        (state.1 ++ (state.2.analyze settings script).1,
          (state.2.analyze settings script).2)) (ds, session)).1, d.code.rule ≠ .unusedCode := by
    induction scripts generalizing ds session with
    | nil => exact each
    | cons script rest ih =>
      exact ih _ _ (forall_mem_append.2 ⟨each, Session.rule_of_mem_analyze⟩)
  exact step p.sortedScripts [] {} (forall_mem_nil _)

/-! ## The run -/

namespace Project

section

variable {t : FileTree} {root : String} {p : Project}
  (read : (Project.read t root).result = .ok p)

include read

/-- What the check of a project says about an indexed script. -/
theorem filter_diagnostics {start : String} (isEntry : start ∈ entryPoints) {entry : Script}
    (present : p.sources.scripts.find? start = some entry) :
    ∃ check, p.usageGraph.check? = some check ∧
      ∀ settings : Settings, ∀ severity, settings.severity? .unusedCode = some severity →
        ∀ f, p.sources.HasScript f →
          (p.Loads f → ¬ p.Reaches start f →
            (check.diagnostics settings).filter (Diagnostic.reportsScript f.pkgPath) =
              [⟨severity, .unusedScript f.pkgPath, .create 0 0 1 0, f.pkgPath⟩]) ∧
          (¬ p.Loads f ∨ p.Reaches start f →
            (check.diagnostics settings).filter (Diagnostic.reportsScript f.pkgPath) = []) := by
  obtain ⟨check, checked, walked, owners, diagnostics⟩ := exists_check read isEntry present
  refine ⟨check, checked, fun settings severity on f ⟨key, found⟩ => ?_⟩
  have vertex (name : String) :
      Option.filter (Diagnostic.reportsScript f.pkgPath) (if name ∈ check.graph.walked then none
        else (check.graph.owner? name).bind (·.diagnostic? severity)) =
      if name ∉ check.graph.walked ∧ check.graph.owner? name = some (.script f.pkgPath) then
        some ⟨severity, .unusedScript f.pkgPath, .create 0 0 1 0, f.pkgPath⟩
      else none := by
    by_cases entered : name ∈ check.graph.walked
    · simp [entered]
    · cases check.graph.owner? name with
      | none => simp [entered]
      | some owner => simp [entered, Owner.filter_diagnostic?]
  rw [diagnostics settings severity on, filter_filterMap]
  simp only [vertex]
  constructor
  · intro loads notReached
    have own (name : String) :
        (name ∉ check.graph.walked ∧ check.graph.owner? name = some (.script f.pkgPath)) ↔
          name = key := by
      rw [owners, owner_eq_iff read found]
      constructor
      · exact fun ⟨_, isKey, _⟩ => isKey
      · rintro rfl
        exact ⟨fun entered => notReached ((walked _ f found).1 entered), rfl, loads⟩
    simp only [own]
    apply filterMap_single (nodup_addNames nodup_nil _)
    rw [mem_addNames]
    have isStep := mem_loaded.1 (mem_filesOf_registrations.2 loads)
    exact .inr (mem_map.2 ⟨_, isStep, (indexed_of_read read).scriptVertex_eq found⟩)
  · intro spared
    rw [filterMap_eq_nil_iff]
    intro name _
    apply if_neg
    rw [owners, owner_eq_iff read found]
    rintro ⟨notEntered, rfl, loads⟩
    rcases spared with notLoaded | reached
    · exact notLoaded loads
    · exact notEntered ((walked _ f found).2 reached)

/-- What a run says about scripts comes from its usage check. -/
theorem exists_lint (fix : Bool) {outcome : UsageOutcome}
    (checked : (checkUsage settings p).result = .ok outcome) :
    ∃ r, (lintProject t settings root fix).result = .ok r ∧
      ∀ path, settings.isIgnored path = false → r.unusedScripts path =
        Diagnostic.sort (outcome.diagnostics.filter (Diagnostic.reportsScript path)) := by
  unfold lintProject
  dsimp only
  rw [read]
  dsimp only
  rw [checked]
  refine ⟨_, rfl, fun path isKept => ?_⟩
  unfold LintResult.unusedScripts kept
  dsimp only
  have others : ∀ d ∈ (p.analyze settings).1 ++
      p.scopes.flatMap ((p.analyze settings).2.finalize settings), d.code.rule ≠ .unusedCode := by
    refine forall_mem_append.2 ⟨p.rule_of_mem_analyze settings, fun d member => ?_⟩
    obtain ⟨scope, -, inScope⟩ := mem_flatMap.1 member
    exact Session.rule_of_mem_finalize d inScope
  have aboutScripts (d : Diagnostic) :
      (Diagnostic.reportsScript path d && !settings.isIgnored d.file) =
        Diagnostic.reportsScript path d := by
    by_cases same : d.file = path
    · rw [same, isKept]
      exact Bool.and_true _
    · simp [Diagnostic.reportsScript, same]
  have nothing : ((p.analyze settings).1 ++
      p.scopes.flatMap ((p.analyze settings).2.finalize settings)).filter
        (Diagnostic.reportsScript path) = [] := by
    rw [filter_eq_nil_iff]
    intro d member reports
    have isCode : d.code = .unusedScript := by
      simp only [Diagnostic.reportsScript, Bool.and_eq_true, beq_iff_eq] at reports
      exact reports.1
    exact others d member (congrArg Code.rule isCode)
  rw [Diagnostic.filter_sort, filter_filter]
  simp only [aboutScripts]
  rw [filter_append, nothing, nil_append]

end

theorem checkUsage_of_check {p : Project}
    (requested : settings.checkUsage = true) (parsed : p.brokenEntry? = none) {check : Check}
    (checked : p.usageGraph.check? = some check) :
    (checkUsage settings p).result = .ok ⟨some check.graph, check.diagnostics settings⟩ := by
  unfold checkUsage
  rw [requested, parsed, checked]
  rfl

end Project

/-- A run with the usage check over a project whose entry script could be read ends, and reports a
script that is not ignored exactly once if some scope loads it and no scope that loads it is reached
from the entry script. It does not report a script that is reached, and neither one that no scope
loads. -/
theorem lintProject_unusedScripts {t : FileTree} {settings : Settings} {root : String} (fix : Bool)
    {p : Project} (read : (Project.read t root).result = .ok p) {start : String}
    (isEntry : start ∈ entryPoints) (present : p.sources.scripts.contains start = true)
    (parsed : p.brokenEntry? = none) (requested : settings.checkUsage = true) {severity : Severity}
    (on : settings.severity? .unusedCode = some severity) :
    ∃ r, (lintProject t settings root fix).result = .ok r ∧
      ∀ f, p.sources.HasScript f → settings.isIgnored f.pkgPath = false →
        (p.Loads f → ¬ p.Reaches start f → r.unusedScripts f.pkgPath =
          [⟨severity, .unusedScript f.pkgPath, .create 0 0 1 0, f.pkgPath⟩]) ∧
        (¬ p.Loads f ∨ p.Reaches start f → r.unusedScripts f.pkgPath = []) := by
  obtain ⟨entry, found⟩ := Option.isSome_iff_exists.1 present
  obtain ⟨check, checked, scripts⟩ := Project.filter_diagnostics read isEntry found
  obtain ⟨r, linted, unused⟩ :=
    Project.exists_lint read fix (Project.checkUsage_of_check requested parsed checked)
  refine ⟨r, linted, fun f isScript isKept => ?_⟩
  obtain ⟨dead, spared⟩ := scripts settings severity on f isScript
  rw [unused _ isKept]
  constructor
  · intro loads notReached
    rw [dead loads notReached]
    exact mergeSort_singleton _
  · intro h
    rw [spared h]
    exact mergeSort_nil

/-! A component that nothing uses, with its script, and a script that nothing includes. -/

namespace Abandoned

variable {key : String} {f : Script}

def files : List String :=
  ["components/Old.brs", "components/Old.xml", "components/helpers.brs", "source/main.brs"]

def tree : FileTree :=
  let texts := [
    "sub init()\nend sub\n",
    "<component name=\"Old\" extends=\"Group\">\n<script uri=\"Old.brs\"/>\n</component>\n",
    "sub help()\nend sub\n",
    "sub main()\nend sub\n"]
  (files.zip texts).foldl
    (fun t (path, text) => t.insert ("proj" :: Path.parts path) (Text.encode text)) {}

def project : Project :=
  .ofSources "proj" files (Source.readAll tree "proj" files).1

def scriptKeys : List String :=
  ["components/old.brs", "components/helpers.brs", "source/main.brs"]

/-- Where the files stand: they are listed in order, and one script lies in the main program. -/
theorem layout : tree.isFolder "proj" = true ∧ (tree.resolve "proj").toOption = some ["proj"] ∧
      ((tree.files.filterMap fun (place, _) =>
        if ["proj"].isPrefixOf place then some (place.drop 1) else none).filter
          FileTree.isSource).map FileTree.pkgPath = files ∧
      files.Pairwise (· ≤ ·) ∧ SourceSet.scriptKey "components/Old.brs" = "components/old.brs" ∧
      ∀ key ∈ scriptKeys, key.startsWith (sourceScope ++ "/") = true → key = "source/main.brs" := by
  decide +kernel

/-- What was read: no script imports another one or holds a literal, and the only component has one
script. -/
theorem survey : (Source.readAll tree "proj" files).2 = none ∧ project.sources.skipped = [] ∧
      project.sources.scripts.keys = scriptKeys ∧
      (∀ f ∈ project.sources.scripts.values, f.imports = [] ∧ f.stringLiterals = []) ∧
      project.sources.components.keys = ["components/Old.xml"] ∧
      (∀ c ∈ project.sources.components.values,
        c.name = some "Old" ∧ c.scripts.map (·.pkgPath) = ["components/Old.brs"]) ∧
      (project.sources.scripts.find? "components/old.brs").map (·.pkgPath) =
        some "components/Old.brs" := by
  decide +kernel

theorem read_eq : (Project.read tree "proj").result = .ok project := by
  obtain ⟨isFolder, resolved, listed, sorted, -⟩ := layout
  exact Project.read_of_sources isFolder
    (FileTree.sources_of_sorted (ok_of_toOption resolved) listed sorted) survey.1

theorem scopes_eq : project.scopes = project.sources.scopes :=
  Project.scopes_of_read read_eq

theorem brokenEntry_eq : project.brokenEntry? = none := by
  unfold Project.brokenEntry?
  rw [survey.2.1]
  rfl

theorem exists_script (listed : key ∈ scriptKeys) :
    ∃ f, project.sources.scripts.find? key = some f := by
  rw [← survey.2.2.1, ← OrderedMap.contains_iff_mem_keys] at listed
  exact Option.isSome_iff_exists.1 listed

theorem contains_main : project.sources.scripts.contains "source/main.brs" = true := by
  rw [OrderedMap.contains_iff_mem_keys, survey.2.2.1]
  decide

theorem bare_of_find? (found : project.sources.scripts.find? key = some f) :
    f.imports = [] ∧ f.stringLiterals = [] :=
  survey.2.2.2.1 f (mem_map_of_mem (OrderedMap.mem_of_find? found))

theorem component_of_find? {path : String} {c : Component}
    (found : project.sources.components.find? path = some c) :
    c.name = some "Old" ∧ c.scripts.map (·.pkgPath) = ["components/Old.brs"] :=
  survey.2.2.2.2.2.1 c (mem_map_of_mem (OrderedMap.mem_of_find? found))

/-- The main program loads its entry script, the component its own script. -/
theorem key_of_mem {scope : Scope} (member : scope ∈ project.scopes) (inFiles : f ∈ scope.files) :
    project.sources.scripts.find?
      (if scope.component = none then "source/main.brs" else "components/old.brs") = some f := by
  have indexed := Project.indexed_of_read read_eq
  have least := indexed.isLeast_of_mem_scopes (scopes_eq ▸ member)
  refine least.2 ⟨fun f found => ⟨_, found⟩, fun f isRoot => ?_, ?_⟩ inFiles
  · cases isComponent : scope.component with
    | none =>
      rw [isComponent] at isRoot
      obtain ⟨key, found, inFolder⟩ := isRoot
      have listed : key ∈ scriptKeys := survey.2.2.1 ▸ Worklist.mem_keys_of_find? found
      obtain ⟨-, -, -, -, -, only⟩ := layout
      rw [only key listed inFolder] at found
      exact found
    | some c =>
      rw [isComponent] at isRoot
      obtain ⟨d, above, included, isIncluded, found⟩ := isRoot
      have named : some c ∈ project.scopes.map (·.component) :=
        isComponent ▸ mem_map_of_mem member
      rw [scopes_eq, SourceSet.components_scopes] at named
      have isNamed : c ∈ project.sources.namedComponents := by simpa using named
      have held := ((indexed.mem_namedComponents_iff c).1 isNamed).1
      obtain ⟨path, -, foundComponent⟩ := (indexed.extends_iff held).1 above
      have isPath : included.pkgPath ∈ ["components/Old.brs"] :=
        (component_of_find? foundComponent).2 ▸ mem_map_of_mem isIncluded
      rw [mem_singleton.1 isPath, SourceSet.script?, layout.2.2.2.2.1] at found
      exact found
  · rintro f found g ⟨path, isImport, -⟩
    rw [(bare_of_find? found).1] at isImport
    cases isImport

theorem not_reaches (found : project.sources.scripts.find? key = some f)
    (other : key ≠ "source/main.brs") : ¬ project.Reaches "source/main.brs" f := by
  intro reaches
  obtain ⟨entry, present⟩ := Option.isSome_iff_exists.1 contains_main
  have silent (g : Script) (inSource : project.InSource g) : g.stringLiterals = [] := by
    obtain ⟨scope, member, -, inFiles⟩ := inSource
    exact (bare_of_find? (key_of_mem member inFiles)).2
  obtain ⟨scope, member, owned, inFiles⟩ :=
    Project.inSource_of_reaches read_eq (by decide) present silent reaches
  obtain ⟨-, isMain⟩ | quoted := Project.component_of_scopeVertex? read_eq member owned
  · have found' := key_of_mem member inFiles
    rw [if_pos isMain] at found'
    exact other ((Project.indexed_of_read read_eq).key_unique found found')
  · exact absurd quoted (by decide)

theorem loads_old (found : project.sources.scripts.find? "components/old.brs" = some f) :
    project.Loads f := by
  have indexed := Project.indexed_of_read read_eq
  have listed : project.sources.components.contains "components/Old.xml" = true := by
    rw [OrderedMap.contains_iff_mem_keys, survey.2.2.2.2.1]
    exact mem_cons_self
  obtain ⟨c, held⟩ := Option.isSome_iff_exists.1 listed
  obtain ⟨named, scripts⟩ := component_of_find? held
  have isNamed : c ∈ project.sources.namedComponents := by
    rw [indexed.mem_namedComponents_iff, (indexed.component _ c held).2, named]
    exact ⟨held, rfl⟩
  have isComponent : some c ∈ project.sources.scopes.map (·.component) := by
    rw [SourceSet.components_scopes]
    exact mem_cons_of_mem _ (mem_map_of_mem isNamed)
  obtain ⟨scope, member, isComponent⟩ := mem_map.1 isComponent
  refine ⟨scope, scopes_eq ▸ member, ?_, ?_⟩
  · unfold scopeVertex?
    rw [isComponent, Option.bind_some, named]
    split <;> rfl
  · have isPath : "components/Old.brs" ∈ c.scripts.map (·.pkgPath) :=
      scripts ▸ mem_singleton_self _
    obtain ⟨included, isIncluded, isPath⟩ := mem_map.1 isPath
    apply (indexed.isLeast_of_mem_scopes member).1.roots
    rw [isComponent]
    refine ⟨c, .refl, included, isIncluded, ?_⟩
    rw [isPath, SourceSet.script?, layout.2.2.2.2.1]
    exact found

theorem not_loads_helpers
    (found : project.sources.scripts.find? "components/helpers.brs" = some f) :
    ¬ project.Loads f := by
  rintro ⟨scope, member, -, inFiles⟩
  have same := (Project.indexed_of_read read_eq).key_unique found (key_of_mem member inFiles)
  split at same
  · exact absurd same (by decide)
  · exact absurd same (by decide)

/-- A run that does not ignore the script of the component reports it. -/
theorem reported_old {settings : Settings} (requested : settings.checkUsage = true)
    {severity : Severity} (on : settings.severity? .unusedCode = some severity)
    (isKept : settings.isIgnored "components/Old.brs" = false) :
    ∃ r, (lintProject tree settings "proj" false).result = .ok r ∧
      ⟨severity, .unusedScript "components/Old.brs", .create 0 0 1 0, "components/Old.brs"⟩ ∈
        r.diagnostics := by
  obtain ⟨entry, isEntry⟩ := Option.isSome_iff_exists.1 contains_main
  obtain ⟨f, found⟩ := @exists_script "components/old.brs" (by decide)
  have path : f.pkgPath = "components/Old.brs" := by
    simpa [found] using survey.2.2.2.2.2.2
  obtain ⟨check, checked, scripts⟩ := Project.filter_diagnostics read_eq (by decide) isEntry
  have reported := (scripts settings severity on f ⟨_, found⟩).1 (loads_old found)
    (not_reaches found (by decide))
  obtain ⟨r, linted, unused⟩ := Project.exists_lint read_eq false
    (Project.checkUsage_of_check requested brokenEntry_eq checked)
  refine ⟨r, linted, mem_of_mem_filter (p := Diagnostic.reportsScript f.pkgPath) ?_⟩
  have listed := unused f.pkgPath (path ▸ isKept)
  rw [reported, LintResult.unusedScripts] at listed
  rw [listed, path]
  exact mem_mergeSort.2 (mem_singleton_self _)

end Abandoned

/-- The script of the component is reported. -/
theorem lintProject_unusedScripts_abandoned : let p := Abandoned.project
    let settings : Settings := { checkUsage := true }
    (Project.read Abandoned.tree "proj").result = .ok p ∧
      p.sources.scripts.contains "source/main.brs" = true ∧ p.brokenEntry? = none ∧
      ∃ r f, (lintProject Abandoned.tree settings "proj" false).result = .ok r ∧
        p.sources.scripts.find? "components/old.brs" = some f ∧
        p.Loads f ∧ ¬ p.Reaches "source/main.brs" f ∧
        r.unusedScripts f.pkgPath =
          [⟨.warn, .unusedScript f.pkgPath, .create 0 0 1 0, f.pkgPath⟩] := by
  intro p settings
  have read := Abandoned.read_eq
  have present := Abandoned.contains_main
  have parsed := Abandoned.brokenEntry_eq
  obtain ⟨f, found⟩ := @Abandoned.exists_script "components/old.brs" (by decide)
  have loads := Abandoned.loads_old found
  have notReached := Abandoned.not_reaches found (by decide)
  obtain ⟨r, linted, scripts⟩ := @lintProject_unusedScripts _ settings _ false _ read
    "source/main.brs" (by decide) present parsed rfl .warn rfl
  refine ⟨read, present, parsed, r, f, linted, found, loads, notReached, ?_⟩
  exact (scripts f ⟨_, found⟩ rfl).1 loads notReached

/-- The script that nothing includes is not reached, and not reported either. -/
theorem unreported_though_unreached_abandoned : let p := Abandoned.project
    let settings : Settings := { checkUsage := true }
    (Project.read Abandoned.tree "proj").result = .ok p ∧
      p.sources.scripts.contains "source/main.brs" = true ∧ p.brokenEntry? = none ∧
      ∃ r f, (lintProject Abandoned.tree settings "proj" false).result = .ok r ∧
        p.sources.scripts.find? "components/helpers.brs" = some f ∧
        ¬ p.Reaches "source/main.brs" f ∧ r.unusedScripts f.pkgPath = [] := by
  intro p settings
  have read := Abandoned.read_eq
  have present := Abandoned.contains_main
  have parsed := Abandoned.brokenEntry_eq
  have requested : settings.checkUsage = true := rfl
  obtain ⟨entry, isEntry⟩ := Option.isSome_iff_exists.1 present
  obtain ⟨f, found⟩ := @Abandoned.exists_script "components/helpers.brs" (by decide)
  have notReached := Abandoned.not_reaches found (by decide)
  have notLoaded := Abandoned.not_loads_helpers found
  obtain ⟨check, checked, scripts⟩ := Project.filter_diagnostics read (by decide) isEntry
  obtain ⟨r, linted, unused⟩ :=
    Project.exists_lint read false (Project.checkUsage_of_check requested parsed checked)
  refine ⟨read, present, parsed, r, f, linted, found, notReached, ?_⟩
  rw [unused _ rfl, (scripts settings .warn rfl f ⟨_, found⟩).2 (.inl notLoaded)]
  exact mergeSort_nil

end ChannelLint
