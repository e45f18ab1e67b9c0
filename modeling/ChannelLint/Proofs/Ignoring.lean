import ChannelLint.Proofs.Naming.Deferred
import ChannelLint.Proofs.Reading.OnDisk
import ChannelLint.Proofs.Usage.DeadScripts

/-!
# Ignored files only leave the report

A pattern is looked for at any depth, so one that ignores a package path also ignores the path of
the file on disk. An ignored script is not analysed, but it stays in its scopes and in the usage
graph. Two runs over the same files, one that ignores some of them and one that ignores none, are
followed side by side: what is reported differs by a filter, and sorting commutes with it. As in all
runs over a tree of files, the root is a relative path; a run over an absolute one fails.
-/
namespace ChannelLint

open List

/-! ## Patterns -/

namespace Text.Pattern

/-- Behind a star, a text may have more in front of it. -/
theorem matchSteps_append {rest : List Step} {cs : List Char} (before : List Char)
    (matched : matchSteps (.anyRun :: rest) cs = true) :
    matchSteps (.anyRun :: rest) (before ++ cs) = true := by
  induction before with
  | nil => exact matched
  | cons c before ih =>
    rw [cons_append, matchSteps]
    simp only [ih, Bool.or_true]

/-- A pattern that begins with two stars and a slash matches whatever it matches the end of. -/
theorem isMatch_append {pattern text : String} {rest : List Char}
    (open_ : pattern.toList = '*' :: '*' :: '/' :: rest) {longer : String}
    (ends : text.toList <:+ longer.toList) (matched : isMatch pattern text = true) :
    isMatch pattern longer = true := by
  obtain ⟨before, split⟩ := ends
  have begins : squeeze (steps pattern.toList) =
      .anyRun :: squeeze (.exactly '/' :: steps rest) := by
    rw [open_, steps, steps, steps]
    · rfl
    all_goals simp
  rw [isMatch, begins] at matched ⊢
  rw [← split]
  exact matchSteps_append before matched

end Text.Pattern

namespace Settings

theorem exists_anywhere (pattern : String) :
    ∃ rest, (anywhere pattern).toList = '*' :: '*' :: '/' :: rest := by
  unfold anywhere
  split
  · next starts =>
    obtain ⟨rest, split⟩ := String.startsWith_string_iff.1 starts
    exact ⟨rest, split.symm⟩
  · exact ⟨pattern.toList, by rw [String.toList_append]; rfl⟩

/-- The form in which a path is compared with patterns. -/
def comparable (path : String) : String :=
  let normal := Path.forwardSlashes path
  if normal.startsWith "/" then normal else "/" ++ normal

theorem isIgnored_eq (s : Settings) (path : String) : s.isIgnored path =
      s.ignores.any fun pattern => Text.Pattern.isMatch (anywhere pattern) (comparable path) :=
  rfl

theorem forwardSlashes_append (a b : String) :
    Path.forwardSlashes (a ++ b) = Path.forwardSlashes a ++ Path.forwardSlashes b := by
  apply String.toList_inj.1
  simp [Path.forwardSlashes]

/-- Behind a slash, a path ends with its form for comparison. -/
theorem comparable_isSuffix (folder path : String) :
    (comparable path).toList <:+ (comparable (folder ++ "/" ++ path)).toList := by
  have whole : (Path.forwardSlashes (folder ++ "/" ++ path)).toList =
      (Path.forwardSlashes folder).toList ++ '/' :: (Path.forwardSlashes path).toList := by
    rw [forwardSlashes_append, forwardSlashes_append, String.toList_append, String.toList_append,
      append_assoc]
    rfl
  have inside : (comparable path).toList <:+ (Path.forwardSlashes (folder ++ "/" ++ path)).toList := by
    rw [whole]
    unfold comparable
    dsimp only
    split
    · exact (suffix_cons _ _).trans (suffix_append _ _)
    · rw [String.toList_append]
      exact suffix_append _ _
  refine inside.trans ?_
  generalize folder ++ "/" ++ path = full
  unfold comparable
  dsimp only
  split
  · exact suffix_rfl
  · rw [String.toList_append]
    exact suffix_append _ _

theorem comparable_join_isSuffix (root path : String) :
    (comparable path).toList <:+ (comparable (Path.join root path)).toList := by
  unfold Path.join
  split
  · exact suffix_rfl
  · split
    · next closed =>
      by_cases empty : root = ""
      · simp only [empty, String.empty_append, suffix_rfl]
      · have ends : root.endsWith "/" = true := by
          simpa [empty] using closed
        obtain ⟨folder, rfl⟩ := Path.exists_of_endsWith ends
        exact comparable_isSuffix folder path
    · exact comparable_isSuffix root path

/-- A file whose package path is ignored is ignored on disk, whatever the root. -/
theorem isIgnored_join {s : Settings} {path : String} (root : String)
    (ignored : s.isIgnored path = true) : s.isIgnored (Path.join root path) = true := by
  rw [isIgnored_eq, any_eq_true] at ignored ⊢
  obtain ⟨pattern, listed, matched⟩ := ignored
  obtain ⟨rest, open_⟩ := exists_anywhere pattern
  exact ⟨pattern, listed,
    Text.Pattern.isMatch_append open_ (comparable_join_isSuffix root path) matched⟩

end Settings

/-! ## What is left out -/

/-- Codes of what is found inside a script. -/
def Code.isFlow (c : Code) : Bool :=
  ["LINT1", "LINT2"].any fun family => family.toList.isPrefixOf c.text.toList

theorem Code.isFlow_iff (c : Code) : c.isFlow = true ↔ c.rule ≠ .unusedCode := by
  cases c <;> decide

namespace Settings

/-- Settings with other ignore patterns. -/
def ignoring (s : Settings) (patterns : List String) : Settings :=
  { s with ignores := patterns }

/-- Whether settings leave a diagnostic of a project in `root` out: its package path is ignored, or
it was found inside a script that is ignored on disk. -/
def hides (s : Settings) (root : String) (d : Diagnostic) : Bool :=
  s.isIgnored d.file || (d.code.isFlow && s.isIgnored (Path.join root d.file))

end Settings

/-! ## Two runs side by side -/

section

variable {quiet : Settings} {root : String}

/-- What is found inside a script is left out if the script is ignored on disk, else kept. -/
theorem Settings.filter_hides (ds : List Diagnostic) {file : String}
    (inside : ∀ d ∈ ds, d.file = file ∧ d.code.rule ≠ .unusedCode) :
    ds.filter (!quiet.hides root ·) =
      if quiet.isIgnored (Path.join root file) then [] else ds := by
  have same (d : Diagnostic) (member : d ∈ ds) :
      quiet.hides root d = quiet.isIgnored (Path.join root file) := by
    obtain ⟨isFile, flow⟩ := inside d member
    rw [Settings.hides, (Code.isFlow_iff _).2 flow, isFile, Bool.true_and,
      Bool.or_eq_right_iff_imp]
    exact Settings.isIgnored_join root
  split
  · next ignored =>
    refine filter_eq_nil_iff.2 fun d member => ?_
    rw [same d member, ignored]
    exact nofun
  · next kept =>
    refine filter_eq_self.2 fun d member => ?_
    rw [same d member]
    simpa using kept

/-- What is found about the usage of a file is left out with its package path alone. -/
theorem Settings.filter_hides_usage (ds : List Diagnostic)
    (usage : ∀ d ∈ ds, d.code.rule = .unusedCode) :
    ds.filter (!quiet.hides root ·) = ds.filter (!quiet.isIgnored ·.file) := by
  refine filter_congr fun d member => ?_
  have notFlow : d.code.isFlow = false :=
    Bool.eq_false_iff.2 fun flow => (Code.isFlow_iff _).1 flow (usage d member)
  rw [Settings.hides, notFlow, Bool.false_and, Bool.or_false]

/-- A diagnostic of an ignored package path is left out anyway. -/
theorem Settings.filter_kept (ds : List Diagnostic) :
    (ds.filter (!quiet.hides root ·)).filter (!quiet.isIgnored ·.file) =
      ds.filter (!quiet.hides root ·) := by
  rw [filter_filter]
  refine filter_congr fun d _ => ?_
  rw [Settings.hides]
  cases quiet.isIgnored d.file <;> simp

end

section

variable (s : Settings) (patterns : List String) {root : String}

/-- A session of the run that ignores some files, beside one of the run that ignores none: the files
that are ignored have no names that wait. -/
def Session.Beside (a b : Session) : Prop :=
  ∀ path, a.get path = if (s.ignoring patterns).isIgnored path then [] else b.get path

variable {s patterns}

/-- A script is analysed in both runs, unless it is ignored. -/
theorem Session.Beside.analyze {a b : Session} (beside : Beside s patterns a b) {f : Script}
    (onDisk : f.path = Path.join root f.pkgPath) : (a.analyze (s.ignoring patterns) f).1 =
        (b.analyze (s.ignoring []) f).1.filter (!(s.ignoring patterns).hides root ·) ∧
      Beside s patterns (a.analyze (s.ignoring patterns) f).2 (b.analyze (s.ignoring []) f).2 := by
  have inside : ∀ d ∈ (b.analyze (s.ignoring []) f).1,
      d.file = f.pkgPath ∧ d.code.rule ≠ .unusedCode :=
    fun d member => ⟨(mem_report member).1, Session.rule_of_mem_analyze d member⟩
  have full : (b.analyze (s.ignoring []) f).2 =
      ⟨b.deferred.insert f.path (f.flow (s.ignoring patterns).loopsBranch).deferred⟩ := rfl
  rw [Settings.filter_hides _ inside, ← onDisk, full]
  unfold Session.analyze
  by_cases ignored : (s.ignoring patterns).isIgnored f.path = true
  · rw [if_pos ignored, if_pos ignored]
    refine ⟨rfl, fun path => ?_⟩
    rw [Session.reset, get_insert, get_insert]
    split
    · next same => rw [same, if_pos ignored]
    · exact beside path
  · rw [if_neg ignored, if_neg ignored]
    refine ⟨rfl, fun path => ?_⟩
    rw [get_insert, get_insert]
    split
    · next same => rw [same, if_neg ignored]
    · exact beside path

/-- The scripts of a project are analysed in both runs. -/
theorem Project.analyze_beside (s : Settings) (patterns : List String) {p : Project}
    (onDisk : ∀ f ∈ p.sortedScripts, f.path = Path.join root f.pkgPath) :
    (p.analyze (s.ignoring patterns)).1 =
        (p.analyze (s.ignoring [])).1.filter (!(s.ignoring patterns).hides root ·) ∧
      Session.Beside s patterns (p.analyze (s.ignoring patterns)).2
        (p.analyze (s.ignoring [])).2 := by
  let step (settings : Settings) (found : List Diagnostic × Session) (f : Script) :=
    (found.1 ++ (found.2.analyze settings f).1, (found.2.analyze settings f).2)
  have run (scripts : List Script) (onDisk : ∀ f ∈ scripts, f.path = Path.join root f.pkgPath)
      (ds : List Diagnostic) (a b : Session) (beside : Session.Beside s patterns a b) :
      (scripts.foldl (step (s.ignoring patterns))
          (ds.filter (!(s.ignoring patterns).hides root ·), a)).1 =
        (scripts.foldl (step (s.ignoring [])) (ds, b)).1.filter
          (!(s.ignoring patterns).hides root ·) ∧
      Session.Beside s patterns (scripts.foldl (step (s.ignoring patterns))
          (ds.filter (!(s.ignoring patterns).hides root ·), a)).2
        (scripts.foldl (step (s.ignoring [])) (ds, b)).2 := by
    induction scripts generalizing ds a b with
    | nil => exact ⟨rfl, beside⟩
    | cons f rest ih =>
      obtain ⟨first, others⟩ := forall_mem_cons.1 onDisk
      obtain ⟨found, beside'⟩ := beside.analyze first
      rw [foldl_cons, foldl_cons]
      simp only [step, found, ← filter_append]
      exact ih others _ _ _ beside'
  exact run p.sortedScripts onDisk [] {} {} fun path => (ite_self _).symm

/-- The names that wait are decided in both runs. An ignored file still declares its names. -/
theorem Session.Beside.finalize {a b : Session} (beside : Beside s patterns a b) {scope : Scope}
    (onDisk : ∀ f ∈ scope.files, f.path = Path.join root f.pkgPath) :
    a.finalize (s.ignoring patterns) scope =
      (b.finalize (s.ignoring []) scope).filter (!(s.ignoring patterns).hides root ·) := by
  unfold Session.finalize
  rw [filter_flatMap]
  refine flatMap_congr fun f member => ?_
  have inside : ∀ d ∈ (s.ignoring []).report f.pkgPath
      (unknownUses (s.ignoring []) scope (b.get f.path)),
      d.file = f.pkgPath ∧ d.code.rule ≠ .unusedCode := by
    intro d reported
    refine ⟨(mem_report reported).1, ?_⟩
    have own : d ∈ b.finalize (s.ignoring []) scope :=
      mem_flatMap.2 ⟨f, member, reported⟩
    exact Session.rule_of_mem_finalize d own
  rw [Settings.filter_hides _ inside, ← onDisk f member, beside f.path]
  split <;> rfl

end

/-! ## The run -/

/-- A script of a project knows its file. -/
theorem Project.path_of_hasScript {t : FileTree} {root : String} {p : Project}
    (read : (Project.read t root).result = .ok p) {f : Script} (has : p.sources.HasScript f) :
    f.path = Path.join root f.pkgPath := by
  obtain ⟨key, found⟩ := has
  obtain ⟨path, listed, -, -, text, parsed⟩ := (indexed_of_read read).script key f found
  obtain ⟨isPath, isPkgPath⟩ := Source.paths_of_read parsed
  rw [isPath, isPkgPath (FileTree.ne_empty_of_mem_sources listed)]

/-- The diagnostics of a run, unless it fails. -/
def LintRun.diagnostics (run : LintRun) : Except LintFault (List Diagnostic) :=
  run.result.map LintResult.diagnostics

/-- What is kept of all that is found, if nothing is ignored. -/
theorem kept_ignoring_nothing (s : Settings) (ds : List Diagnostic) :
    kept (s.ignoring []) ds = Diagnostic.sort ds := by
  have all : ds.filter (fun d => !(s.ignoring []).isIgnored d.file) = ds :=
    filter_eq_self.2 fun _ _ => rfl
  rw [kept, all]

theorem lintProject_filter (t : FileTree) (s : Settings) (patterns : List String) (root : String) :
    (lintProject t (s.ignoring patterns) root false).diagnostics =
      (lintProject t (s.ignoring []) root false).diagnostics.map
        (List.filter (!(s.ignoring patterns).hides root ·)) := by
  unfold lintProject LintRun.diagnostics
  dsimp only
  cases read : (Project.read t root).result with
  | error fault => rfl
  | ok p =>
    have onDisk : ∀ f ∈ p.sortedScripts, f.path = Path.join root f.pkgPath := by
      intro f member
      obtain ⟨key, -, found⟩ := mem_filterMap.1 member
      exact Project.path_of_hasScript read ⟨key, found⟩
    obtain ⟨flow, beside⟩ := Project.analyze_beside s patterns onDisk
    have deferred :
        p.scopes.flatMap ((p.analyze (s.ignoring patterns)).2.finalize (s.ignoring patterns)) =
          (p.scopes.flatMap ((p.analyze (s.ignoring [])).2.finalize (s.ignoring []))).filter
            (!(s.ignoring patterns).hides root ·) := by
      rw [filter_flatMap]
      exact flatMap_congr fun scope member => beside.finalize fun f inFiles =>
        Project.path_of_hasScript read (Project.hasScript_of_mem read member inFiles)
    have usage : checkUsage (s.ignoring patterns) p = checkUsage (s.ignoring []) p := rfl
    dsimp only
    rw [usage]
    cases checked : (checkUsage (s.ignoring []) p).result with
    | error fault => rfl
    | ok outcome =>
      refine congrArg Except.ok ?_
      dsimp only
      rw [kept_ignoring_nothing, Diagnostic.filter_sort, kept, flow, deferred,
        filter_append, filter_append, filter_append, filter_append,
        Settings.filter_kept, Settings.filter_kept,
        Settings.filter_hides_usage outcome.diagnostics fun d => rule_of_mem_checkUsage checked]

/-- Ignore patterns act on what is reported alone. A run with some patterns reports what the run
without patterns reports, in the same order, less the diagnostics whose package path is ignored and
those from inside a script that is ignored on disk. A pattern that ignores a package path ignores
the file on disk, and a file that is not ignored there keeps all its diagnostics. -/
theorem lintProject_ignoring (t : FileTree) (s : Settings) (patterns : List String)
    (root : String) : (lintProject t (s.ignoring patterns) root false).diagnostics =
        (lintProject t (s.ignoring []) root false).diagnostics.map (List.filter fun d =>
          !((s.ignoring patterns).isIgnored d.file ||
            d.code.isFlow && (s.ignoring patterns).isIgnored (Path.join root d.file))) ∧
      (∀ path, (s.ignoring patterns).isIgnored path = true →
        (s.ignoring patterns).isIgnored (Path.join root path) = true) ∧
      ∀ path, (s.ignoring patterns).isIgnored (Path.join root path) = false →
        (lintProject t (s.ignoring patterns) root false).diagnostics.map
            (List.filter (·.file == path)) =
          (lintProject t (s.ignoring []) root false).diagnostics.map
            (List.filter (·.file == path)) := by
  refine ⟨lintProject_filter t s patterns root, fun path => Settings.isIgnored_join root,
    fun path watched => ?_⟩
  rw [lintProject_filter]
  cases (lintProject t (s.ignoring []) root false).diagnostics with
  | error fault => rfl
  | ok ds =>
    refine congrArg Except.ok ?_
    rw [filter_filter]
    refine filter_congr fun d _ => ?_
    have shown : d.file = path → (s.ignoring patterns).hides root d = false := by
      rintro rfl
      have listed : (s.ignoring patterns).isIgnored d.file = false :=
        Bool.eq_false_iff.2 fun ignored =>
          Bool.eq_false_iff.1 watched (Settings.isIgnored_join root ignored)
      rw [Settings.hides, listed, watched, Bool.and_false, Bool.or_false]
    by_cases same : d.file = path
    · rw [shown same]
      exact Bool.and_true _
    · simp [same]

/-- One pattern ignores package paths and takes an unused script out of the report, the other one
ignores the main script on disk alone. -/
theorem lintProject_ignoring_abandoned : let settings : Settings := { checkUsage := true }
    let quiet := settings.ignoring ["components/*.brs", "proj/source/*"]
    let full := settings.ignoring []
    quiet.isIgnored "components/Old.brs" = true ∧ quiet.isIgnored "source/main.brs" = false ∧
      quiet.isIgnored (Path.join "proj" "source/main.brs") = true ∧
      quiet.isIgnored (Path.join "proj" "components/Old.xml") = false ∧
      (∃ ds, (lintProject Abandoned.tree full "proj" false).diagnostics = .ok ds ∧
        ⟨.warn, .unusedScript "components/Old.brs", .create 0 0 1 0, "components/Old.brs"⟩ ∈ ds ∧
        (lintProject Abandoned.tree quiet "proj" false).diagnostics =
          .ok (ds.filter fun d => !(quiet.isIgnored d.file ||
            d.code.isFlow && quiet.isIgnored (Path.join "proj" d.file)))) ∧
      quiet.isIgnored (Path.join "proj" "components/Old.brs") = true ∧
      (lintProject Abandoned.tree quiet "proj" false).diagnostics.map
          (List.filter (·.file == "components/Old.xml")) =
        (lintProject Abandoned.tree full "proj" false).diagnostics.map
          (List.filter (·.file == "components/Old.xml")) := by
  intro settings quiet full
  have listed : quiet.isIgnored "components/Old.brs" = true ∧
      quiet.isIgnored "source/main.brs" = false ∧
      quiet.isIgnored (Path.join "proj" "source/main.brs") = true ∧
      quiet.isIgnored (Path.join "proj" "components/Old.xml") = false := by
    have joined : Path.join "proj" "source/main.brs" = "proj/source/main.brs" ∧
        Path.join "proj" "components/Old.xml" = "proj/components/Old.xml" := by
      decide +kernel
    rw [joined.1, joined.2]
    simp [quiet, Settings.isIgnored, Settings.anywhere, Settings.ignoring, Path.forwardSlashes,
      Text.Pattern.isMatch, Text.Pattern.steps, Text.Pattern.squeeze, Text.Pattern.matchSteps,
      Text.Pattern.Step.admits]
  obtain ⟨filtered, onDisk, others⟩ :=
    lintProject_ignoring Abandoned.tree settings ["components/*.brs", "proj/source/*"] "proj"
  obtain ⟨r, linted, reported⟩ := @Abandoned.reported_old full rfl _ rfl rfl
  have all : (lintProject Abandoned.tree full "proj" false).diagnostics = .ok r.diagnostics := by
    rw [LintRun.diagnostics, linted]
    rfl
  rw [all] at filtered
  exact ⟨listed.1, listed.2.1, listed.2.2.1, listed.2.2.2, ⟨_, all, reported, filtered⟩,
    onDisk _ listed.1, others _ listed.2.2.2⟩

end ChannelLint
