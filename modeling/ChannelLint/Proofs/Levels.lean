import ChannelLint.Proofs.Casing.Outline

/-!
# Levels only filter what is reported

The levels of the rules decide which findings become diagnostics and how severe these are. Nothing
else depends on them, apart from the level of the rule that makes loops branch: linting under some
levels gives what linting under levels that are all on gives, with the diagnostics of the rules that
are off left out and the others graded anew. The order of diagnostics does not look at severities,
so grading commutes with sorting. A walk does not look back at its findings, so it makes no
difference whether findings are dropped behind a walk or as soon as they are made
(`Func.dropping_eq`).
-/
namespace ChannelLint

open List

/-- A diagnostic as other settings grade it; nothing if its rule is off there. -/
def Settings.regrade? (s : Settings) (d : Diagnostic) : Option Diagnostic :=
  (s.severity? d.code.rule).map fun severity => { d with severity }

theorem Settings.rank_of_regrade? {s : Settings} {d graded : Diagnostic}
    (regraded : s.regrade? d = some graded) : graded.rank = d.rank := by
  obtain ⟨severity, -, rfl⟩ := Option.map_eq_some_iff.1 regraded
  rfl

/-! ## Sorting -/

/-- Leaving some elements out and changing the others. -/
theorem filterMap_eq_map_filter {α : Type} (f : α → Option α) (l : List α) :
    l.filterMap f = (l.filter fun a => (f a).isSome).map fun a => (f a).getD a := by
  rw [← filterMap_eq_map, filterMap_filter]
  refine filterMap_congr fun a _ => ?_
  cases changed : f a with
  | none => rfl
  | some b => simp [changed]

/-- A change that keeps what diagnostics are ordered by commutes with sorting. -/
theorem Diagnostic.filterMap_sort {f : Diagnostic → Option Diagnostic}
    (keeps : ∀ d graded, f d = some graded → graded.rank = d.rank) (ds : List Diagnostic) :
    (sort ds).filterMap f = sort (ds.filterMap f) := by
  have ranked (d : Diagnostic) : ((f d).getD d).rank = d.rank := by
    cases changed : f d with
    | none => rfl
    | some graded => exact keeps d graded changed
  rw [filterMap_eq_map_filter, filterMap_eq_map_filter, filter_sort]
  apply map_mergeSort
  intro a _ b _
  rw [Bool.eq_iff_iff, precedes_iff, precedes_iff, ranked a, ranked b]

/-! ## Reporting -/

section

variable {full other : Settings} (allOn : ∀ rule, (full.severity? rule).isSome)

include allOn

/-- What is reported under levels that are all on loses nothing, so that it can be graded anew. -/
theorem Settings.report?_regrade (file : String) (f : Finding) :
    (full.report? file f).bind other.regrade? = other.report? file f := by
  obtain ⟨severity, on⟩ := Option.isSome_iff_exists.1 (allOn f.issue.code.rule)
  rw [Settings.report?, on, Option.map_some, Option.bind_some]
  rfl

theorem Settings.report_regrade (file : String) (fs : List Finding) :
    (full.report file fs).filterMap other.regrade? = other.report file fs := by
  rw [Settings.report, Settings.report, filterMap_filterMap]
  congr 1
  funext f
  exact Settings.report?_regrade allOn file f

end

section

variable {full other : Settings} (globals : other.globals = full.globals)
  (ignores : other.ignores = full.ignores) (loops : other.loopsBranch = full.loopsBranch)

include ignores in
theorem Settings.isIgnored_congr (path : String) : other.isIgnored path = full.isIgnored path := by
  unfold Settings.isIgnored
  rw [ignores]

include globals in
theorem Session.unknownUses_congr (scope : Scope) (uses : List DeferredUse) :
    unknownUses other scope uses = unknownUses full scope uses := by
  have names : other.globalNames = full.globalNames := congrArg (map Text.lower) globals
  unfold unknownUses isKnown
  rw [names]

include globals loops in
/-- What is found does not depend on levels, apart from how loops count. -/
theorem Script.lintFindings_congr (s : Script) : s.lintFindings other = s.lintFindings full := by
  unfold Script.lintFindings
  rw [loops]
  dsimp only
  rw [Session.unknownUses_congr globals]

include ignores loops in
/-- Nor do the names that wait for their scope. -/
theorem Session.deferred_congr (session : Session) (s : Script) :
    (session.analyze other s).2 = (session.analyze full s).2 := by
  unfold Session.analyze
  rw [Settings.isIgnored_congr ignores, loops]
  split <;> rfl

end

/-! ## Dropping findings at once -/

namespace Walk

/-- The walk with other findings in front of its own. -/
def behind (fs : List Finding) (w : Walk) : Walk :=
  { w with findings := fs ++ w.findings }

/-- The walk with those of its findings that `p` keeps. -/
def sift (p : Finding → Bool) (w : Walk) : Walk :=
  { w with findings := w.findings.filter p }

/-- What does not look at findings gives the same whether some are dropped before or behind it. -/
theorem sift_of_behind {g : Walk → Walk} (ignores : ∀ fs w, g (w.behind fs) = (g w).behind fs)
    (p : Finding → Bool) (w : Walk) : (g (w.sift p)).sift p = (g w).sift p := by
  have kept := ignores w.findings { w with findings := [] }
  have sifted := ignores (w.findings.filter p) { w with findings := [] }
  simp only [behind, append_nil] at kept sifted
  simp [sift, kept, sifted]

variable (fs : List Finding) (w : Walk)

theorem behind_stack : (w.behind fs).stack = w.stack :=
  rfl

theorem noteReturn_behind (site : Site) :
    (w.behind fs).noteReturn site = (w.noteReturn site).behind fs := by
  change noteReturn { w with findings := fs ++ w.findings } site = _
  simp only [noteReturn, markReturning, report, modifyTop]
  repeat' split
  all_goals simp [behind]

theorem noteJump_behind (site : Site) :
    (w.behind fs).noteJump site = (w.noteJump site).behind fs := by
  change noteJump { w with findings := fs ++ w.findings } site = _
  simp only [noteJump, jump, noteLabel]
  repeat' split
  all_goals rfl

theorem readExprs_behind (es : List Expr) (state : Frame × Walk) :
    es.foldl readExpr (state.map id (behind fs)) =
      (es.foldl readExpr state).map id (behind fs) := by
  refine foldl_hom _ fun _ _ => foldl_hom _ fun state node => ?_
  rcases state with ⟨frame, ⟨⟩⟩
  simp only [Prod.map, id, readNode, readName, checkCase, report, behind, markReadAll, resolve]
  repeat' split
  all_goals simp [*]

theorem bind_behind (block : Frame) (name : Ident) (role : Role) (narrowed : Option Narrowing) :
    (w.behind fs).bind block name role narrowed =
      (w.bind block name role narrowed).map id (behind fs) := by
  cases w
  simp only [bind, checkCase, report, behind, visible?]
  repeat' split
  all_goals simp [behind]

theorem prepare_behind (frame : Frame) (first : Bool) :
    (w.behind fs).prepare frame first = (w.prepare frame first).map id (behind fs) := by
  simp only [prepare, behind_stack]
  repeat' split
  · exact bind_behind ..
  · exact bind_behind ..
  · rfl
  · rfl
  · rfl
  · next parent _ _ _ =>
    have note (state : Frame × Walk) (n : Narrowing) :
        bindNarrowing parent first (state.map id (behind fs)) n =
          (bindNarrowing parent first state n).map id (behind fs) :=
      bind_behind ..
    rw [← foldl_hom _ note]
    rfl

theorem settle_behind (site : Site) (first : Bool) (state : Frame × Walk) :
    settle site first (state.map id (behind fs)) = (settle site first state).behind fs := by
  simp only [settle, Prod.map, openFrame, prepare_behind, bindTop, behind_stack, bind_behind]
  repeat' split
  all_goals rfl

theorem close_behind : (w.behind fs).close = w.close.behind fs := by
  change close { w with findings := fs ++ w.findings } = _
  simp only [close]
  split
  · simp only [closeVariables, modifyTop, append_assoc]
    rfl
  · rfl

theorem closeFunction_behind (f : Func) :
    (w.behind fs).closeFunction f = (w.closeFunction f).behind fs := by
  simp only [closeFunction, behind_stack]
  split
  · simp [behind]
  · rfl

end Walk

section

variable {loopsBranch : Bool}

theorem Move.run_behind (m : Move) (fs : List Finding) (w : Walk) :
    m.run loopsBranch (w.behind fs) = (m.run loopsBranch w).behind fs := by
  cases m with
  | arrive site first =>
    have returned := Walk.noteReturn_behind fs (w.visit site (site.paths loopsBranch)).2 site
    have visited : (w.behind fs).visitSite loopsBranch site =
        (w.visitSite loopsBranch site).map id (.behind fs) :=
      congrArg (Prod.mk _) ((congrArg (·.noteJump site) returned).trans (Walk.noteJump_behind ..))
    simp only [run, Walk.arrive, visited, Walk.readExprs_behind, Walk.settle_behind]
  | readMore exprs =>
    simp only [run, Walk.readMore, Walk.behind_stack]
    split
    · rfl
    · exact congrArg Prod.snd (Walk.readExprs_behind fs exprs (_, w))
  | close => exact Walk.close_behind fs w

theorem Func.Run.sifted {f : Func} {made ahead : List Move} {w : Walk}
    (run : f.Run loopsBranch made w ahead) (p : Finding → Bool) :
    made.foldl (fun w m => (m.run loopsBranch w).sift p) (f.openBody.sift p) = w.sift p := by
  induction run with
  | nil => rfl
  | @snoc made ahead w m _ ih =>
    rw [foldl_append, ih]
    exact Walk.sift_of_behind (g := (m.run loopsBranch ·)) m.run_behind p w

/-- A walk that drops findings after each move. -/
def Func.dropping (f : Func) (loopsBranch : Bool) (p : Finding → Bool) (made : List Move) : Walk :=
  let w := made.foldl (fun w m => (m.run loopsBranch w).sift p) (f.openBody.sift p)
  (w.closeFunction f).sift p

theorem Func.dropping_eq {f : Func} {made : List Move}
    (run : f.Run loopsBranch made (f.bodyWalk loopsBranch) []) (p : Finding → Bool) :
    f.dropping loopsBranch p made = (f.flow loopsBranch).sift p := by
  rw [dropping, Run.sifted run]
  exact Walk.sift_of_behind (g := (·.closeFunction f)) (fun fs w => w.closeFunction_behind fs f) p _

/-- Whether the rule of a finding is on. -/
def Settings.keeps (s : Settings) (f : Finding) : Bool :=
  (s.severity? f.issue.code.rule).isSome

theorem Settings.report_sift (s : Settings) (file : String) (w : Walk) :
    s.report file (w.sift s.keeps).findings = s.report file w.findings := by
  unfold Settings.report Walk.sift
  rw [filterMap_filter]
  refine filterMap_congr fun f _ => ?_
  cases level : s.severity? f.issue.code.rule <;> simp [keeps, Settings.report?, level]

end

/-- Linting a text under some levels is linting it under levels that are all on, and grading what
was reported: a diagnostic whose rule is off is left out, any other takes the severity of its rule.
The names that wait for their scope are the same in both runs. A walk that drops at once what is off
finds the same names, and what it reports is what the walk under full levels reports, graded. -/
theorem Script.lint_regrade {full other : Settings} (allOn : ∀ rule, (full.severity? rule).isSome)
    (globals : other.globals = full.globals) (ignores : other.ignores = full.ignores)
    (loops : other.loopsBranch = full.loopsBranch) (source path pkgPath : String) :
    (Script.read source path pkgPath).map (lintScript other) =
        ((Script.read source path pkgPath).map (lintScript full)).map
          (filterMap other.regrade?) ∧
      (∀ (session : Session) (s : Script) (file : String),
        (session.analyze other s).2.get file = (session.analyze full s).2.get file) ∧
      ∀ (f : Func) (file : String), ∃ made,
        f.Run other.loopsBranch made (f.bodyWalk other.loopsBranch) [] ∧
        let walk := f.dropping other.loopsBranch other.keeps made
        walk.freeUses = (f.flow full.loopsBranch).freeUses ∧
          other.report file walk.findings =
            (full.report file (f.flow full.loopsBranch).findings).filterMap other.regrade? := by
  refine ⟨?_, ?_, ?_⟩
  · cases Script.read source path pkgPath with
    | error fault => rfl
    | ok s =>
      refine congrArg Except.ok ?_
      rw [lintScript_eq, lintScript_eq, Settings.isIgnored_congr ignores]
      split
      · rfl
      · rw [Diagnostic.filterMap_sort fun _ _ => Settings.rank_of_regrade?,
          Settings.report_regrade allOn, Script.lintFindings_congr globals loops]
  · intro session s file
    rw [Session.deferred_congr ignores loops]
  · intro f file
    obtain ⟨made, run⟩ := f.exists_run other.loopsBranch
    refine ⟨made, run, ?_⟩
    rw [← loops, Func.dropping_eq run]
    exact ⟨rfl, by rw [Settings.report_sift, Settings.report_regrade allOn]⟩

/-- A variable that is never read, one that is read before it is bound on every path, and a rule
that is off. -/
theorem Script.lint_regrade_unusedOff :
    let other : Settings :=
      { rules := ⟨[("unused-variable", .off), ("assign-all-paths", .info)]⟩ }
    let source := "sub s(c)\n  y = 1\n  if c then x = 1\n  print x, z\nend sub"
    (∀ rule, (({} : Settings).severity? rule).isSome) ∧ other.loopsBranch = true ∧
    (Script.read source "a.brs" "").map (lintScript other) =
        ((Script.read source "a.brs" "").map (lintScript {})).map
          (filterMap other.regrade?) ∧
      ∀ (session : Session) (s : Script) (file : String),
        (session.analyze other s).2.get file = (session.analyze {} s).2.get file := by
  intro other source
  have allOn : ∀ rule, (({} : Settings).severity? rule).isSome := by
    intro rule
    cases rule <;> decide
  obtain ⟨diagnostics, names, -⟩ :=
    @Script.lint_regrade {} other allOn rfl rfl (by decide) source "a.brs" ""
  exact ⟨allOn, by decide, diagnostics, names⟩

end ChannelLint
