import ChannelLint.Proofs.Naming.Deferred

/-!
# Runs of a session

A session is used in steps: scripts are analysed, again if they have changed, lists are cleared and
looked at, and scopes are decided. Each step writes the list of one file at most, and what it writes
does not depend on the session. So the list of a file is the one its latest step wrote, and a scope
that is decided in the end only depends on the order of the steps for each file by itself.
-/
namespace ChannelLint

open List

namespace OrderedMap

theorem insertEntry_insertEntry {α : Type} (key : String) (old value : α)
    (entries : List (String × α)) :
    insertEntry key value (insertEntry key old entries) = insertEntry key value entries := by
  induction entries with
  | nil => simp [insertEntry]
  | cons entry rest ih =>
    by_cases same : entry.1 = key
    · simp [insertEntry, same]
    · simp [insertEntry, same, ih]

/-- Of two values for one key the later one counts. -/
theorem insert_insert {α : Type} (m : OrderedMap α) (key : String) (old value : α) :
    (m.insert key old).insert key value = m.insert key value :=
  congrArg mk (insertEntry_insertEntry key old value m.entries)

end OrderedMap

/-! ## A script, function by function -/

/-- What the functions of a script defer, each by itself. -/
def Script.deferredGroups (script : Script) (settings : Settings) : List (List DeferredUse) :=
  script.functions.map fun f => f.deferredUses (f.flow settings.loopsBranch)

theorem Script.flow_deferred (script : Script) (settings : Settings) :
    (script.flow settings.loopsBranch).deferred = (script.deferredGroups settings).flatten := by
  simp only [Script.flow, Script.deferredGroups, flatMap_def, map_map]
  rfl

namespace Session

/-- Puts uses behind those that a file has already. -/
def record (session : Session) (path : String) (uses : List DeferredUse) : Session :=
  ⟨session.deferred.insert path (session.get path ++ uses)⟩

theorem record_insert (session : Session) (path : String) (old uses : List DeferredUse) :
    (⟨session.deferred.insert path old⟩ : Session).record path uses =
      ⟨session.deferred.insert path (old ++ uses)⟩ := by
  rw [record, get_insert, if_pos rfl, OrderedMap.insert_insert]

/-- Uses that are recorded one group after the other end up one behind the other. -/
theorem foldl_record (session : Session) (path : String) (old : List DeferredUse)
    (groups : List (List DeferredUse)) :
    groups.foldl (·.record path ·) (⟨session.deferred.insert path old⟩ : Session) =
      ⟨session.deferred.insert path (old ++ groups.flatten)⟩ := by
  induction groups generalizing old with
  | nil => rw [flatten_nil, append_nil, foldl_nil]
  | cons uses rest ih =>
    rw [foldl_cons, record_insert, ih, flatten_cons, append_assoc]

/-- Analysing a script clears the list of its file, then records what each function defers. -/
theorem analyze_eq_record (session : Session) {settings : Settings} {script : Script}
    (watched : settings.isIgnored script.path = false) : (session.analyze settings script).2 =
      (script.deferredGroups settings).foldl (·.record script.path ·)
        (session.reset script.path) := by
  rw [reset, foldl_record, nil_append, ← Script.flow_deferred, analyze, watched]
  rfl

/-! ## Steps -/

/-- What can be done with a session. -/
inductive Step where
  | analyze (settings : Settings) (script : Script)
  | reset (path : String)
  | get (path : String)
  | finalize (settings : Settings) (scope : Scope)

inductive Answer where
  | diagnostics (ds : List Diagnostic)
  | uses (uses : List DeferredUse)

namespace Step

/-- The file whose list a step writes. -/
def file? : Step → Option String
  | analyze _ script => some script.path
  | reset path => some path
  | get _ | finalize .. => none

/-- What a step writes: the uses of all functions of a script, unless it is ignored. -/
def uses : Step → List DeferredUse
  | analyze settings script =>
    if settings.isIgnored script.path then [] else (script.deferredGroups settings).flatten
  | reset _ | get _ | finalize .. => []

def writes (path : String) (step : Step) : Bool :=
  step.file? == some path

end Step

def perform (session : Session) : Step → Answer × Session
  | .analyze settings script =>
    let (ds, session) := session.analyze settings script
    (.diagnostics ds, session)
  | .reset path =>
    let session := session.reset path
    (.uses (session.get path), session)
  | .get path => (.uses (session.get path), session)
  | .finalize settings scope => (.diagnostics (session.finalize settings scope), session)

def run (session : Session) : List Step → List Answer × Session
  | [] => ([], session)
  | step :: rest =>
    let (answer, session) := session.perform step
    let (answers, session) := session.run rest
    (answer :: answers, session)

/-- A step writes the list of its file, whatever the session holds, and no other list. -/
theorem get_perform (session : Session) (step : Step) (path : String) :
    (session.perform step).2.get path =
      if step.writes path then step.uses else session.get path := by
  cases step with
  | analyze settings script =>
    have isFile : (Step.analyze settings script).writes path = true ↔ path = script.path :=
      beq_iff_eq.trans (Option.some_inj.trans eq_comm)
    simp only [perform, analyze, isFile, Step.uses]
    split
    · rw [reset, get_insert]
    · rw [get_insert, Script.flow_deferred]
  | reset cleared =>
    have isFile : (Step.reset cleared).writes path = true ↔ path = cleared :=
      beq_iff_eq.trans (Option.some_inj.trans eq_comm)
    simp only [perform, isFile, Step.uses]
    rw [reset, get_insert]
  | get _ => rfl
  | finalize _ _ => rfl

/-- The list of a file after a run is the one that the last of its steps wrote. -/
theorem get_run (session : Session) (steps : List Step) (path : String) :
    (session.run steps).2.get path =
      ((steps.filter (·.writes path)).getLast?.map Step.uses).getD (session.get path) := by
  induction steps generalizing session with
  | nil => rfl
  | cons step rest ih =>
    rw [show (session.run (step :: rest)).2 = ((session.perform step).2.run rest).2 from rfl, ih,
      get_perform, filter_cons]
    split
    · rw [getLast?_cons]
      cases (rest.filter (·.writes path)).getLast? <;> rfl
    · rfl

/-- A step that writes no list leaves the session as it is. -/
theorem perform_of_file?_eq_none (session : Session) {step : Step} (reads : step.file? = none) :
    (session.perform step).2 = session := by
  cases step with
  | analyze settings script => cases reads
  | reset path => cases reads
  | get path => rfl
  | finalize settings scope => rfl

theorem run_filter_writing (session : Session) (steps : List Step) :
    (session.run (steps.filter (·.file?.isSome))).2 = (session.run steps).2 := by
  induction steps generalizing session with
  | nil => rfl
  | cons step rest ih =>
    rw [filter_cons]
    split
    · exact ih _
    · next reads =>
      rw [ih, show (session.run (step :: rest)).2 = ((session.perform step).2.run rest).2 from rfl,
        perform_of_file?_eq_none session (by simpa using reads)]

/-- A scope only looks at the lists of its files. -/
theorem finalize_congr {a b : Session} (same : ∀ path, a.get path = b.get path)
    (settings : Settings) (scope : Scope) :
    a.finalize settings scope = b.finalize settings scope := by
  unfold finalize
  simp only [same]

/-- The list of a file is the one that its latest step wrote, and empty if there was none; analysing
a script writes it anew, function by function. Looking at a list and deciding a scope change
nothing. Two runs in which the steps of each file come in the same order decide every scope
alike. -/
theorem run_file_by_file (session : Session) : (∀ (steps : List Step) (path : String),
      ((({} : Session).run steps).2.perform (.get path)).1 =
        .uses (((steps.filter (·.writes path)).getLast?.map Step.uses).getD [])) ∧
    (∀ (settings : Settings) (script : Script), settings.isIgnored script.path = false →
      (session.perform (.analyze settings script)).2 =
        (script.deferredGroups settings).foldl (·.record script.path ·)
          (session.reset script.path)) ∧
    (∀ steps : List Step,
      (session.run (steps.filter (·.file?.isSome))).2 = (session.run steps).2) ∧
    ∀ first second : List Step,
      (∀ path, first.filter (·.writes path) = second.filter (·.writes path)) →
      ∀ (settings : Settings) (scope : Scope),
        (session.run first).2.finalize settings scope =
          (session.run second).2.finalize settings scope := by
  refine ⟨fun steps path => congrArg Answer.uses (get_run {} steps path),
    fun settings script => analyze_eq_record session, run_filter_writing session, ?_⟩
  intro first second same
  apply finalize_congr
  intro path
  rw [get_run, get_run, same]

/-- A script that declares `a` and reads a name that is declared nowhere. -/
def declaringScript : String :=
  "sub a()\n  print lost\nend sub\n"

/-- A script that reads `a` and another name that is declared nowhere. -/
def readingScript : String :=
  "sub b()\n  print a, gone\nend sub\n"

/-- Two scripts in two orders: one of them is analysed again, at the end of the first run and at
once in the second. -/
theorem run_file_by_file_reanalyzed : ∃ a b, Script.read declaringScript "a.brs" "" = .ok a ∧
      Script.read readingScript "b.brs" "" = .ok b ∧
      let scope := [a, b].foldl Scope.addFile (Scope.withBuiltins "source")
      let first : List Step := [.analyze {} a, .analyze {} b, .get "a.brs", .analyze {} a]
      let second : List Step := [.analyze {} a, .analyze {} a, .finalize {} scope, .analyze {} b]
      (∀ path, first.filter (·.writes path) = second.filter (·.writes path)) ∧
      ((({} : Session).run first).2.finalize {} scope).map (·.issue) =
        [.uninitialized "lost" "source", .uninitialized "gone" "source"] ∧
      (({} : Session).run first).2.finalize {} scope =
        (({} : Session).run second).2.finalize {} scope := by
  have computed : ((Script.read declaringScript "a.brs" "").toOption.bind fun a =>
      (Script.read readingScript "b.brs" "").toOption.map fun b =>
        let scope := [a, b].foldl Scope.addFile (Scope.withBuiltins "source")
        let first : List Step := [.analyze {} a, .analyze {} b, .get "a.brs", .analyze {} a]
        (a.path, b.path, ((({} : Session).run first).2.finalize {} scope).map (·.issue))) =
      some ("a.brs", "b.brs",
        [.uninitialized "lost" "source", .uninitialized "gone" "source"]) := by
    decide +kernel
  obtain ⟨a, readA, rest⟩ := Option.bind_eq_some_iff.1 computed
  obtain ⟨b, readB, facts⟩ := exists_ok_of_map_toOption rest
  simp only [Prod.mk.injEq] at facts
  obtain ⟨pathA, pathB, issues⟩ := facts
  have same (scope : Scope) (path : String) :
      [Step.analyze {} a, .analyze {} b, .get "a.brs", .analyze {} a].filter (·.writes path) =
        [Step.analyze {} a, .analyze {} a, .finalize {} scope, .analyze {} b].filter
          (·.writes path) := by
    simp only [filter_cons, filter_nil, Step.writes, Step.file?, pathA, pathB]
    by_cases isA : "a.brs" = path
    · simp [← isA]
    · simp [isA]
  refine ⟨a, b, ok_of_toOption readA, readB, same _, issues, ?_⟩
  exact (run_file_by_file {}).2.2.2 _ _ (same _) {} _

end Session

end ChannelLint
