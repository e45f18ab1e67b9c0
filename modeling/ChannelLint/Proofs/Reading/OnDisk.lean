import ChannelLint.Lint
import ChannelLint.Proofs.Casing.Fixes
import ChannelLint.Proofs.Index
import ChannelLint.Proofs.Reading.Alone
import ChannelLint.Proofs.Reading.LineEnds
import ChannelLint.Proofs.Usage.Reach
import ChannelLint.Proofs.Usage.Vertices

/-!
# Where fixes stand in a file

A script is read from its file with unified line ends and without a byte-order mark, and its fixes
are applied to the file as it is. The range of a fix selects the flagged name in the file unless the
name stands in the line of the mark, or a carriage return that ends a line by itself stands before
it.
-/
namespace ChannelLint

open List Text

variable {path root : String} {edits : List TextEdit} {p : Project} {t : FileTree} {s : Script}

/-! ## The diagnostic behind a fix -/

variable {settings : Settings} {d : Diagnostic}

theorem exists_diagnostic_of_fixesByFile {ds : List Diagnostic} {e : TextEdit}
    (pending : (fixesByFile ds).find? path = some edits) (member : e ∈ edits) :
    ∃ d ∈ ds, d.file = path ∧ e ∈ d.fixes := by
  have inFixes : e ∈ ((fixesByFile ds).find? path).getD [] := pending ▸ member
  refine List.foldlRecOn (motive := fun fixes : OrderedMap _ => e ∈ (fixes.find? path).getD [] → _)
    ds _ (by exact nofun) (fun fixes known d isIn member => ?_) inFixes
  split at member
  · exact known member
  · rw [OrderedMap.find?_insert] at member
    split at member
    · next same =>
      rcases mem_append.1 member with older | own
      · exact known (same ▸ older)
      · exact ⟨d, isIn, same.symm, own⟩
    · exact known member

theorem mem_report {file : String} {findings : List Finding}
    (member : d ∈ settings.report file findings) :
    d.file = file ∧ ⟨d.issue, d.range⟩ ∈ findings := by
  obtain ⟨finding, isFinding, reported⟩ := mem_filterMap.1 member
  obtain ⟨severity, -, rfl⟩ := Option.map_eq_some_iff.1 reported
  exact ⟨rfl, isFinding⟩

/-- What the analysis of a project reports was found in a function of one of its scripts. -/
theorem Project.exists_finding_of_analyze (member : d ∈ (p.analyze settings).1) :
    ∃ s ∈ p.sortedScripts, d.file = s.pkgPath ∧
      ∃ f ∈ s.functions, ⟨d.issue, d.range⟩ ∈ (f.flow settings.loopsBranch).findings := by
  have step (session : Session) (s : Script) (member : d ∈ (session.analyze settings s).1) :
      d.file = s.pkgPath ∧
        ∃ f ∈ s.functions, ⟨d.issue, d.range⟩ ∈ (f.flow settings.loopsBranch).findings := by
    unfold Session.analyze at member
    split at member
    · cases member
    · obtain ⟨file, found⟩ := mem_report member
      obtain ⟨⟨f, w⟩, isWalk, inWalk⟩ := mem_flatMap.1 found
      obtain ⟨f, isFunction, same⟩ := mem_map.1 isWalk
      cases same
      exact ⟨file, f, isFunction, inWalk⟩
  refine List.foldlRecOn (motive := fun found : List Diagnostic × Session => d ∈ found.1 → _)
    p.sortedScripts _ (by exact nofun) (fun found known s isScript member => ?_) member
  rcases mem_append.1 member with older | own
  · exact known older
  · exact ⟨s, isScript, step found.2 s own⟩

theorem code_of_mem_finalize {session : Session} {scope : Scope}
    (member : d ∈ session.finalize settings scope) : d.code = .uninitializedVariable := by
  obtain ⟨file, -, inFile⟩ := mem_flatMap.1 member
  obtain ⟨use, -, same⟩ := mem_map.1 (mem_report inFile).2
  exact (congrArg (Issue.code ∘ Finding.issue) same).symm

theorem rule_of_mem_checkUsage {outcome : UsageOutcome}
    (checked : (checkUsage settings p).result = .ok outcome) (member : d ∈ outcome.diagnostics) :
    d.code.rule = .unusedCode := by
  unfold checkUsage at checked
  split at checked
  · cases checked
    cases member
  · split at checked
    · cases checked
      cases member
    · split at checked
      · cases checked
      · next check isCheck =>
        cases checked
        obtain ⟨⟨file, finding⟩, found, reported⟩ := mem_filterMap.1 member
        obtain ⟨severity, -, rfl⟩ := Option.map_eq_some_iff.1 reported
        exact UsageGraph.rule_of_mem_findings isCheck found

/-- A fix of a run resolves a diagnostic of the run, which was found in a function of a script. -/
theorem exists_mismatch_of_lintProject {fix : Bool} {r : LintResult} {e : TextEdit}
    (linted : (lintProject t settings root fix).result = .ok r)
    (pending : r.fixes.find? path = some edits) (member : e ∈ edits) :
    ∃ p, (Project.read t root).result = .ok p ∧ ∃ d ∈ r.diagnostics, d.file = path ∧
      ∃ name, d.issue = .caseMismatch name e.text ∧ d.range = e.range ∧
      ∃ s ∈ p.sortedScripts, s.pkgPath = path ∧ ∃ f ∈ s.functions,
        ⟨.caseMismatch name e.text, e.range⟩ ∈ (f.flow settings.loopsBranch).findings := by
  unfold lintProject at linted
  dsimp only at linted
  split at linted
  · cases linted
  · next p read =>
    split at linted
    · cases linted
    · next outcome checked =>
      cases linted
      obtain ⟨d, reported, file, fixed⟩ := exists_diagnostic_of_fixesByFile pending member
      unfold Diagnostic.fixes at fixed
      split at fixed
      · next name known mismatch =>
        obtain rfl := mem_singleton.1 fixed
        refine ⟨p, read, d, reported, file, name, mismatch, rfl, ?_⟩
        have found := (mem_filter.1 (mem_mergeSort.1 reported)).1
        rcases mem_append.1 found with early | usage
        · rcases mem_append.1 early with flow | deferred
          · obtain ⟨s, isScript, own, f, isFunction, inFlow⟩ :=
              Project.exists_finding_of_analyze flow
            exact ⟨s, isScript, own.symm.trans file, f, isFunction, mismatch ▸ inFlow⟩
          · obtain ⟨scope, -, inScope⟩ := mem_flatMap.1 deferred
            have code := code_of_mem_finalize inScope
            rw [Diagnostic.code, mismatch] at code
            cases code
        · have rule := rule_of_mem_checkUsage checked usage
          rw [Diagnostic.code, mismatch] at rule
          cases rule
      · cases fixed

/-! ## The file behind a script -/

namespace FileTree

/-- The text of a file with unified line ends comes from its text as it is. -/
theorem exists_raw_of_readText {text : String} (read : t.readText path = .ok text) :
    ∃ raw, t.readRaw path = .ok raw ∧ text = String.ofList (unifyLineEnds raw.toList) := by
  unfold readText at read
  unfold readRaw
  cases bytes : t.readBytes path with
  | error fault =>
    rw [bytes] at read
    cases read
  | ok contents =>
    rw [bytes] at read
    show ∃ raw, (decode contents).mapError _ = _ ∧ _
    have decoded : (decodeLines contents).mapError ReadFault.encoding = .ok text := read
    unfold decodeLines at decoded
    unfold decode
    cases chars : decodeFrom 0 contents.toList with
    | error fault =>
      rw [chars] at decoded
      cases decoded
    | ok cs =>
      rw [chars] at decoded
      cases decoded
      exact ⟨String.ofList cs, rfl, by rw [String.toList_ofList]⟩

end FileTree

/-- A script was read from the text of its file. -/
theorem Source.readText_of_mem_readAll {files : List String}
    (member : (path, .script s) ∈ (readAll t root files).1) :
    path ∈ files ∧ ∃ text, t.readText (Path.join root path) = .ok text ∧
      Script.read text (Path.join root path) path = .ok s := by
  refine (read_of_mem_readAll member).imp_right fun read => ?_
  unfold Source.read at read
  dsimp only at read
  split at read
  · cases read
  · next text isText =>
    split at read
    · split at read <;> cases read
    · split at read
      · next parsed =>
        cases read
        exact ⟨text, isText, parsed⟩
      · cases read

theorem SourceSet.exists_source_of_find? {sources : List (String × Source)} {key : String}
    (found : (SourceSet.ofList sources).scripts.find? key = some s) :
    ∃ path, (path, .script s) ∈ sources := by
  refine List.foldlRecOn (motive := fun set : SourceSet => set.scripts.find? key = some s → _)
    sources _ (by exact nofun) (fun set known (path, source) listed found => ?_) found
  cases source with
  | script f =>
    rcases (OrderedMap.find?_insert_eq_some ..).1 found with ⟨-, rfl⟩ | ⟨-, older⟩
    · exact ⟨path, listed⟩
    · exact known older
  | component c => exact known found
  | malformed reason => exact known found
  | unreadable reason => exact known found

/-- A script of a project was read from the file at its package path. -/
theorem Project.exists_raw_of_read
    (read : (Project.read t root).result = .ok p) (isScript : s ∈ p.sortedScripts) :
    ∃ raw, t.readRaw (Path.join root s.pkgPath) = .ok raw ∧
      Script.read (String.ofList (unifyLineEnds raw.toList)) s.path s.pkgPath = .ok s := by
  obtain ⟨key, -, found⟩ := mem_filterMap.1 isScript
  rw [eq_ofSources_of_read read] at found
  obtain ⟨path, listed⟩ := SourceSet.exists_source_of_find? found
  obtain ⟨inSources, text, isText, parsed⟩ := Source.readText_of_mem_readAll listed
  obtain ⟨isPath, isPkgPath⟩ := Source.paths_of_read parsed
  obtain ⟨raw, isRaw, rfl⟩ := FileTree.exists_raw_of_readText isText
  rw [isPkgPath (FileTree.ne_empty_of_mem_sources inSources), isPath]
  exact ⟨raw, isRaw, parsed⟩

/-! ## The range of a fix -/

/-- The range of a fix selects the flagged name in the file as it is on disk, and the replacement is
that name up to case, if the name is not in the line of a byte-order mark and every carriage return
in the lines before it is followed by a line feed. -/
theorem textAt_of_lintProject_fixes {t : FileTree} {settings : Settings} {root path : String}
    {fix : Bool} {r : LintResult} {edits : List TextEdit} {e : TextEdit}
    (linted : (lintProject t settings root fix).result = .ok r)
    (pending : r.fixes.find? path = some edits) (member : e ∈ edits) :
    ∃ raw, t.readRaw (Path.join root path) = .ok raw ∧
      ((raw.toList.head? = some '\ufeff' → e.range.start.line ≠ 0) →
        ReturnsPaired raw.toList e.range.start.line →
        (∃ d ∈ r.diagnostics, d.file = path ∧ d.range = e.range ∧
          d.issue = .caseMismatch (textAt raw e.range) e.text) ∧
        Text.lower (textAt raw e.range) = Text.lower e.text ∧
        (textAt raw e.range).length = e.text.length) := by
  obtain ⟨p, read, d, reported, file, name, mismatch, range, s, isScript, isPath, f, isFunction,
    found⟩ := exists_mismatch_of_lintProject linted pending member
  obtain ⟨raw, isRaw, parsed⟩ := Project.exists_raw_of_read read isScript
  rw [isPath] at isRaw
  refine ⟨raw, isRaw, fun unmoved paired => ?_⟩
  obtain ⟨names, named⟩ := Script.exists_named_unmarked parsed
  obtain ⟨i, known, isKnown, same⟩ := Func.known_of_mismatch found rfl
  obtain ⟨⟨rfl, isText⟩, isRange⟩ : (name = i.text ∧ e.text = known.text) ∧ e.range = i.range := by
    simpa using same
  have stands := named.stand i (named.inner f isFunction i (mem_append_right _ isKnown.used))
  rw [isRange] at unmoved paired ⊢
  have inFile := stands.textAt_raw unmoved paired
  have letters : uncased (textAt raw i.range) = uncased e.text := by
    rw [inFile, isText]
    exact (isKnown.uncased_eq named isFunction).symm
  refine ⟨⟨d, reported, file, range.trans isRange, inFile ▸ mismatch⟩,
    lower_eq_of_uncased_eq letters, ?_⟩
  simpa only [length_uncased] using congrArg String.length letters

/-- The findings of a text that is the only script of a project. -/
def mainFindings (text : String) : Option (List Finding) :=
  (Script.read (String.ofList (unifyLineEnds text.toList)) "source/main.brs"
    "source/main.brs").toOption.map (·.lintFindings {})

/-- If a name in the wrong case is all that a script has against it, its project has one fix. -/
theorem exists_lint_mainOnly {text name known : String} {range : Range}
    (found : mainFindings text = some [⟨.caseMismatch name known, range⟩]) :
    ∃ r, (lintProject (mainOnly text) {} "app" true).result = .ok r ∧
      r.fixes.find? "source/main.brs" = some [⟨range, known⟩] := by
  obtain ⟨s, read, findings⟩ := exists_ok_of_map_toOption found
  obtain ⟨r, linted, diagnostics, fixes⟩ : ∃ r,
      (lintProject (mainOnly text) {} "app" true).result = .ok r ∧
      r.diagnostics = lintScript {} s ∧ r.fixes = fixesByFile r.diagnostics :=
    (holdsMain_mainOnly text).exists_lint read rfl rfl true
  have isPath : s.pkgPath = "source/main.brs" := (Source.paths_of_read read).2 (by decide)
  refine ⟨r, linted, ?_⟩
  rw [fixes, diagnostics, lintScript_eq, findings, isPath]
  show (fixesByFile (Diagnostic.sort [_])).find? _ = _
  rw [Diagnostic.sort, mergeSort_singleton]
  rfl

/-- A script behind a byte-order mark whose lines end in two characters. -/
def markedReturns : String :=
  "\ufeffsub main()\r\n  x = 1\r\n  print X\r\nend sub\r\n"

theorem textAt_of_lintProject_fixes_markedReturns :
    ∃ r, (lintProject (mainOnly markedReturns) {} "app" true).result = .ok r ∧
      r.fixes.find? "source/main.brs" = some [⟨.create 2 8 2 9, "x"⟩] ∧
      (∃ d ∈ r.diagnostics, d.file = "source/main.brs" ∧ d.range = .create 2 8 2 9 ∧
        d.issue = .caseMismatch (textAt markedReturns (.create 2 8 2 9)) "x") ∧
      Text.lower (textAt markedReturns (.create 2 8 2 9)) = Text.lower "x" := by
  have found : mainFindings markedReturns =
      some [⟨.caseMismatch "X" "x", .create 2 8 2 9⟩] := by
    decide +kernel
  have next : ∀ k < markedReturns.toList.length, markedReturns.toList[k]? = some '\r' →
      markedReturns.toList[k + 1]? = some '\n' := by
    decide
  have paired (line : Nat) : ReturnsPaired markedReturns.toList line := by
    intro before behind split _
    have inside : before.length < markedReturns.toList.length := by
      rw [split, length_append, length_cons]
      omega
    have feed := next before.length inside
    rw [split, getElem?_append_right le_rfl, getElem?_append_right (Nat.le_succ _)] at feed
    simpa [head?_eq_getElem?] using feed
  obtain ⟨r, linted, pending⟩ := exists_lint_mainOnly found
  obtain ⟨raw, isRaw, selects⟩ :=
    textAt_of_lintProject_fixes linted pending (mem_singleton_self _)
  obtain rfl := Except.ok.inj ((holdsMain_mainOnly markedReturns).readRaw.symm.trans isRaw)
  obtain ⟨flagged, letters, -⟩ := selects (fun _ => by decide) (paired 2)
  exact ⟨r, linted, pending, flagged, letters⟩

/-- A script whose only line begins with a byte-order mark. -/
def markedLine : String :=
  "\ufeffsub main() : x = 1 : print X : end sub\n"

/-- In the line of the mark, the range of a fix selects what stands before the name. -/
theorem not_textAt_of_lintProject_fixes_markedLine :
    ∃ r, (lintProject (mainOnly markedLine) {} "app" true).result = .ok r ∧
      r.fixes.find? "source/main.brs" = some [⟨.create 0 27 0 28, "x"⟩] ∧
      (mainOnly markedLine).readRaw (Path.join "app" "source/main.brs") = .ok markedLine ∧
      Text.lower (textAt markedLine (.create 0 27 0 28)) ≠ Text.lower "x" := by
  have found : mainFindings markedLine = some [⟨.caseMismatch "X" "x", .create 0 27 0 28⟩] := by
    decide +kernel
  obtain ⟨r, linted, pending⟩ := exists_lint_mainOnly found
  exact ⟨r, linted, pending, (holdsMain_mainOnly markedLine).readRaw, by decide⟩

end ChannelLint
