import ChannelLint.Proofs.Ending

/-!
# Code behind a return

Whatever the walk visits in a frame that has ended is reported as unreachable, and nothing else is.
So the reported statements are those that stand in their block behind one that always leaves, each
of them once (`Func.unreachable_exactly`), and no path arrives at any of them.
-/
namespace ChannelLint

open List

variable {statements : List Stmt}

/-- The statements behind the first one that always leaves. -/
def Stmt.behind : List Stmt → List Stmt
  | [] => []
  | s :: rest => if s.ends then rest else Stmt.behind rest

def Site.behind : Site → List Stmt
  | .block b => Stmt.behind b.statements
  | _ => []

/-- How many statements behind one that always leaves have the given range. -/
def deadAt (range : Range) (sites : List Site) : Nat :=
  (sites.flatMap Site.behind).countP (·.range = range)

section

variable (range : Range)

@[simp] theorem deadAt_stmt (s : Stmt) (sites : List Site) :
    deadAt range (.stmt s :: sites) = deadAt range sites := rfl

@[simp] theorem deadAt_block (b : Block) (sites : List Site) : deadAt range (.block b :: sites) =
    (Stmt.behind b.statements).countP (·.range = range) + deadAt range sites := by
  simp [deadAt, Site.behind]

@[simp] theorem deadAt_append (first second : List Site) :
    deadAt range (first ++ second) = deadAt range first + deadAt range second := by
  simp [deadAt]

end

namespace Walk

/-- How often unreachable code was reported at a range. -/
def dead (range : Range) (w : Walk) : Nat :=
  w.findings.count ⟨.unreachableCode, range⟩

theorem Advances.dead {w w' : Walk} (advance : Advances AboutNames w w') (range : Range) :
    w'.dead range = w.dead range := by
  obtain ⟨new, findings, issues⟩ := advance.findings
  have nothing : new.count ⟨.unreachableCode, range⟩ = 0 :=
    count_eq_zero.2 fun member => (issues _ member).2 rfl
  rw [Walk.dead, findings, count_append, nothing]
  rfl

variable {w : Walk} {top : FrameShape} {rest : List FrameShape} (range : Range)

/-- A visit reports its site if the innermost frame has ended. -/
theorem visit_dead (shapes : w.shapes = top :: rest) (site : Site) (paths : Int) :
    ((w.visit site paths).2.noteReturn site).dead range =
      w.dead range + if top.returns ∧ site.range = range then 1 else 0 := by
  obtain ⟨frame, frames, stack, rfl, -⟩ := map_eq_cons_iff.1 shapes
  unfold noteReturn
  cases returned : frame.returns with
  | true =>
    rw [if_pos (by simp [visit, stack, returned])]
    simp [Walk.dead, report, visit, Frame.shape, returned, count_singleton]
  | false =>
    rw [if_neg (by simp [visit, stack, returned])]
    simp only [Frame.shape, returned, Bool.false_eq_true, false_and, if_false, Nat.add_zero]
    split
    · exact congrArg (List.count _) (modifyTop_report _ _).1
    · exact congrArg (List.count _) (modifyTop_report _ _).1
    · rfl

variable (loopsBranch : Bool)

theorem arrive_dead (shapes : w.shapes = top :: rest) (site : Site) (first : Bool) :
    (w.arrive loopsBranch site first).dead range =
      w.dead range + if top.returns ∧ site.range = range then 1 else 0 :=
  ((arrive_advances loopsBranch w site first).dead range).trans (visit_dead range shapes site _)

theorem enterLoop_dead {s : Stmt} {body : Block} (loops : s.Loops body)
    (shapes : w.shapes = top :: rest) : (w.enterLoop loopsBranch s).dead range =
      w.dead range + if top.returns ∧ s.range = range then 1 else 0 := by
  have entered := arrive_dead range loopsBranch shapes (.stmt s) false
  have opened := open_shapes loopsBranch w (.stmt s) (by cases loops <;> rfl)
    (by cases loops <;> rfl) false
  cases loops with
  | forTo counter =>
    have counted := arrive_dead range loopsBranch opened (.stmt (.assign counter)) false
    rw [if_neg (by simp)] at counted
    rw [enterLoop, (readMore_advances _ _).dead]
    exact counted.trans entered
  | forEach => exact entered
  | whileDo => exact entered

/-- The reports of a frame that may have ended about the statements that stand in it. -/
def deadHere (range : Range) (returned : Bool) : Chunk → Nat
  | .stmt s => if returned ∧ s.range = range then 1 else 0
  | .stmts statements =>
    (if returned then statements else Stmt.behind statements).countP (·.range = range)
  | .branch _ i => if returned ∧ i.range = range then 1 else 0
  | _ => 0

theorem deadHere_chunk (e : Else) : deadHere range false e.chunk = 0 := by
  cases e <;> simp [deadHere, Else.chunk]

/-- Blocks and handlers are visited in frames that have not ended. -/
def Awaits (top : FrameShape) : Chunk → Prop
  | .stmts _ => top.returns = false → top.paths = 1
  | .block .. | .handler _ => top.returns = false
  | _ => True

theorem follow_dead (c : Chunk) (first : Bool) (shapes : w.shapes = top :: rest)
    (awaits : Awaits top c) : (follow loopsBranch first w c).dead range =
      w.dead range + deadHere range top.returns c + deadAt range c.sites := by
  induction c generalizing w top rest first with
  | simple s simple =>
    rw [follow, followStmt_of_simple simple, arrive_dead range loopsBranch shapes, Chunk.sites,
      Stmt.sites_of_simple simple]
    rfl
  | assign a => exact arrive_dead range loopsBranch shapes (.stmt (.assign a)) false
  | dim name sizes stmtRange =>
    exact arrive_dead range loopsBranch shapes (.stmt (.dim name sizes stmtRange)) false
  | ifThen i ih => exact ih first shapes trivial
  | loop s body loops ih =>
    have walked := ih false (enterLoop_shapes loopsBranch loops w) rfl
    rw [follow, followStmt_of_loop loops, (close_advances _).dead]
    rw [enterLoop_dead range loopsBranch loops shapes] at walked
    rw [Chunk.sites, loops.sites, deadAt_stmt]
    exact walked
  | tryCatch body handler stmtRange tried caught =>
    have opened := open_shapes loopsBranch w (.stmt (.tryCatch body handler stmtRange)) rfl rfl false
    have caught := caught false (followBlock_shapes loopsBranch body false opened) rfl
    have tried := tried false opened rfl
    simp only [follow, deadHere, Chunk.sites, Nat.add_zero] at tried caught
    rw [tried, arrive_dead range loopsBranch shapes] at caught
    rw [Chunk.sites, Stmt.sites, cons_append, deadAt_stmt, deadAt_append, ← Nat.add_assoc]
    exact ((close_advances _).dead range).trans caught
  | cons s others here behind =>
    obtain ⟨paths, walked, -, stillSingle⟩ := follow_shapes loopsBranch (.stmt s) first shapes awaits
    rw [Chunk.ends] at walked stillSingle
    have here := here first shapes trivial
    have behind := behind first walked stillSingle
    simp only [follow, deadHere, Chunk.sites] at here behind ⊢
    rw [followStmts, behind, here, Stmt.sitesAll, deadAt_append, Stmt.behind]
    cases top.returns with
    | true =>
      simp only [Bool.true_or, if_true, true_and, countP_cons, decide_eq_true_eq]
      omega
    | false =>
      cases s.ends with
      | true =>
        simp only [Bool.or_true, if_true, Bool.false_eq_true, false_and, if_false]
        omega
      | false =>
        simp only [Bool.or_self, Bool.false_eq_true, false_and, if_false]
        omega
  | empty around blockRange =>
    have visited := arrive_dead range loopsBranch shapes (.block ⟨[], blockRange⟩) first
    rwa [show top.returns = _ from awaits] at visited
  | block around s others blockRange ih =>
    have walked := ih first (open_shapes loopsBranch w (.block ⟨s :: others, blockRange⟩) rfl rfl
      first) fun _ => rfl
    rw [arrive_dead range loopsBranch shapes, show top.returns = _ from awaits] at walked
    rw [Chunk.sites, Block.sites, deadAt_block, ← Nat.add_assoc]
    exact ((close_advances _).dead range).trans walked
  | branch around condition onTrue onFalse ifRange inline taken passed =>
    have opened := open_shapes loopsBranch w
      (.stmt (.ifThen ⟨condition, onTrue, onFalse, ifRange, inline⟩)) rfl rfl false
    have passed := passed false (followBlock_shapes loopsBranch onTrue true opened)
      (by cases onFalse <;> trivial)
    have taken := taken true opened rfl
    rw [deadHere_chunk, Nat.add_zero, follow_chunk] at passed
    simp only [follow, deadHere, Chunk.sites, Nat.add_zero] at taken
    rw [taken, arrive_dead range loopsBranch shapes] at passed
    rw [follow, followIf, (close_advances _).dead, Chunk.sites_branch, deadAt_stmt, deadAt_append,
      ← Nat.add_assoc]
    exact passed
  | handler caught body catchRange ih =>
    have walked := ih false
      (open_shapes loopsBranch w (.handler ⟨caught, body, catchRange⟩) rfl rfl false) rfl
    rw [arrive_dead range loopsBranch shapes, show top.returns = _ from awaits] at walked
    exact ((close_advances _).dead range).trans walked
  | nil => cases top.returns <;> rfl
  | nothing => rfl

end Walk

/-! ## What is reported -/

namespace Func

theorem count_unreachableCode (f : Func) (loopsBranch : Bool) (range : Range) :
    (f.flow loopsBranch).findings.count ⟨.unreachableCode, range⟩ = deadAt range f.body.sites := by
  obtain ⟨last, -, -, closed⟩ := f.flow_eq loopsBranch
  have walked := Walk.follow_dead range loopsBranch (.stmts f.body.statements) false
    f.openBody_shapes (fun _ => rfl)
  have returned : (Walk.returnFindings f last (f.bodyWalk loopsBranch).returns
      (f.bodyWalk loopsBranch).throws).count ⟨.unreachableCode, range⟩ = 0 :=
    count_eq_zero.2 fun member => nomatch Walk.rule_of_mem_returnFindings member
  have unused : (Walk.unusedFindings last.locals.values).count ⟨.unreachableCode, range⟩ = 0 :=
    count_eq_zero.2 fun member => nomatch Walk.unusedFindings_issue _ _ member
  rw [closed, count_append, count_append, returned, unused, Block.sites_eq, deadAt_block]
  exact walked.trans (by
    simp [Walk.dead, Walk.deadHere, Chunk.sites, show f.openBody.findings = [] from rfl])

theorem unreachable_perm (f : Func) (loopsBranch : Bool) :
    ((f.flow loopsBranch).findings.filter (·.issue = .unreachableCode)).Perm
      ((f.body.sites.flatMap Site.behind).map fun s => ⟨.unreachableCode, s.range⟩) := by
  rw [perm_iff_count]
  rintro ⟨issue, range⟩
  by_cases isDead : issue = .unreachableCode
  · subst isDead
    rw [count_filter (by simp), f.count_unreachableCode, deadAt, List.count, countP_map]
    refine countP_congr fun s _ => ?_
    simp
  · rw [count_eq_zero.2 (by simp [isDead]), count_eq_zero.2 (by simp [Ne.symm isDead])]

end Func

theorem Settings.filter_report {settings : Settings} {severity : Severity}
    (on : settings.severity? .unreachableCode = some severity) (file : String) (fs : List Finding) :
    (settings.report file fs).filter (·.code = .unreachableCode) =
      (fs.filter (·.issue = .unreachableCode)).map fun f => ⟨severity, f.issue, f.range, file⟩ := by
  rw [Settings.report, filter_filterMap, ← filterMap_eq_map, filterMap_filter]
  congr 1
  funext ⟨issue, range⟩
  unfold Settings.report?
  cases issue with
  | unreachableCode => simp [Issue.code, Code.rule, on, Diagnostic.code]
  | _ => cases settings.severity? _ <;> simp [Issue.code, Diagnostic.code]

theorem Stmt.mem_behind {s : Stmt} : s ∈ Stmt.behind statements ↔
    ∃ before after, statements = before ++ s :: after ∧ Stmt.endsAny before := by
  induction statements with
  | nil => simp [Stmt.behind]
  | cons first others ih =>
    rw [Stmt.behind]
    constructor
    · intro member
      split at member
      · next ends =>
        obtain ⟨before, after, rfl⟩ := append_of_mem member
        exact ⟨first :: before, after, rfl, by simp [Stmt.endsAny, ends]⟩
      · obtain ⟨before, after, rfl, ends⟩ := ih.1 member
        exact ⟨first :: before, after, rfl, by simp [Stmt.endsAny, ends]⟩
    · rintro ⟨before, after, split, ends⟩
      cases before with
      | nil => cases ends
      | cons head before =>
        obtain ⟨rfl, rfl⟩ := cons_eq_cons.1 split
        cases leaves : first.ends with
        | true => exact mem_append_right before mem_cons_self
        | false =>
          rw [Stmt.endsAny, leaves, Bool.false_or] at ends
          exact ih.2 ⟨before, after, rfl, ends⟩

/-! ## Blocks with nothing behind a return -/

/-- A statement that always leaves has nothing behind it. -/
def Stmt.Orderly : List Stmt → Prop
  | [] => True
  | s :: rest => (s.ends → rest = []) ∧ Stmt.Orderly rest

def Site.Orderly : Site → Prop
  | .block b => Stmt.Orderly b.statements
  | _ => True

theorem Stmt.orderly_of_behind (nothing : Stmt.behind statements = []) :
    Stmt.Orderly statements := by
  induction statements with
  | nil => trivial
  | cons s others ih =>
    rw [Stmt.behind] at nothing
    split at nothing
    · exact ⟨fun _ => nothing, nothing ▸ trivial⟩
    · next goesOn => exact ⟨fun ends => absurd ends goesOn, ih nothing⟩

/-- If no unreachable code is reported, every block of a function is orderly. -/
theorem Func.orderly_of_reachable {f : Func} (loopsBranch : Bool)
    (reachable : ∀ finding ∈ (f.flow loopsBranch).findings, finding.issue ≠ .unreachableCode) :
    ∀ site ∈ f.body.sites, site.Orderly := by
  intro site member
  cases site with
  | block b =>
    refine Stmt.orderly_of_behind (eq_nil_iff_forall_not_mem.2 fun s behind => ?_)
    have counted := f.count_unreachableCode loopsBranch s.range
    rw [count_eq_zero.2 fun found => reachable _ found rfl] at counted
    have found : s ∈ f.body.sites.flatMap Site.behind := mem_flatMap.2 ⟨_, member, behind⟩
    exact countP_eq_zero.1 counted.symm s found (by simp)
  | stmt s => trivial
  | handler c => trivial

/-! ## Where paths arrive -/

/-- A statement may run the block. -/
inductive Stmt.Opens (b : Block) : Stmt → Prop
  | onTrue {i : If} : i.onTrue = b → Opens b (.ifThen i)
  | onFalse {i : If} : i.onFalse = .block b → Opens b (.ifThen i)
  | elseIf {i next : If} : i.onFalse = .elseIf next → Opens b (.ifThen next) → Opens b (.ifThen i)
  | forTo {counter : Assign} {limit : Expr} {stride : Option Expr} {range : Range} :
      Opens b (.forTo counter limit stride b range)
  | forEach {item : Ident} {target : Expr} {range : Range} : Opens b (.forEach item target b range)
  | whileDo {condition : Expr} {range : Range} : Opens b (.whileDo condition b range)
  | tried {handler : Catch} {range : Range} : Opens b (.tryCatch b handler range)
  | caught {body : Block} {handler : Catch} {range : Range} :
      handler.body = b → Opens b (.tryCatch body handler range)

/-- A path through a function may arrive at the statement with the given number in a block. A jump
may be taken wherever it stands. -/
inductive Func.Arrives (f : Func) : Block → Nat → Prop
  | start : f.Arrives f.body 0
  | next {b : Block} {i : Nat} {s : Stmt} {t : List Event} :
      f.Arrives b i → b.statements[i]? = some s → s.Runs t .done → f.Arrives b (i + 1)
  | inside {b inner : Block} {i : Nat} {s : Stmt} :
      f.Arrives b i → b.statements[i]? = some s → s.Opens inner → f.Arrives inner 0
  | jump {b : Block} {i : Nat} {label name : Ident} {range range' : Range} :
      .stmt (.goto label range) ∈ f.body.sites → .block b ∈ f.body.sites →
      b.statements[i]? = some (.label name range') → name.key = label.key → f.Arrives b i

theorem Stmt.endsAny_append (first second : List Stmt) :
    Stmt.endsAny (first ++ second) = (Stmt.endsAny first || Stmt.endsAny second) := by
  induction first with
  | nil => rfl
  | cons s others ih => rw [cons_append, Stmt.endsAny, ih, Stmt.endsAny, Bool.or_assoc]

/-- Without jumps, nothing that always leaves stands before a statement that a path arrives at. -/
theorem Func.Arrives.goesOn {f : Func} {b : Block} {i : Nat} (arrives : f.Arrives b i)
    (straight : ∀ site ∈ f.body.sites, site.isGoto = false) :
    Stmt.endsAny (b.statements.take i) = false := by
  induction arrives with
  | start => rfl
  | @next b i s t _ found run ih =>
    have goesOn : s.ends = false := by
      cases ends : s.ends with
      | false => rfl
      | true => exact absurd run (Chunk.not_done_of_ends (.stmt s) ends t)
    rw [take_add_one, found, Stmt.endsAny_append, ih]
    simp [Stmt.endsAny, goesOn]
  | inside => rfl
  | jump jumps => cases straight _ jumps

/-! ## The reports of a function -/

/-- Unreachable code is reported exactly for the statements that stand in a block of the function
behind one that always leaves, once for each of them, and without jumps no path arrives there. -/
theorem Func.unreachable_exactly (f : Func) (settings : Settings) (file : String)
    {severity : Severity} (on : settings.severity? .unreachableCode = some severity) :
    ((settings.report file (f.flow settings.loopsBranch).findings).filter
        (·.code = .unreachableCode)).Perm
      ((f.body.sites.flatMap Site.behind).map fun s =>
        ⟨severity, .unreachableCode, s.range, file⟩) ∧
    (∀ (b : Block) (s : Stmt), s ∈ (Site.block b).behind ↔
      ∃ before after, b.statements = before ++ s :: after ∧ Stmt.endsAny before) ∧
    ((∀ site ∈ f.body.sites, site.isGoto = false) → ∀ (b : Block) (s : Stmt) (before after),
      b.statements = before ++ s :: after → Stmt.endsAny before → ¬ f.Arrives b before.length) := by
  refine ⟨?_, fun b s => Stmt.mem_behind, fun straight b s before after split ends arrives => ?_⟩
  · rw [Settings.filter_report on]
    have reported := (f.unreachable_perm settings.loopsBranch).map fun finding =>
      (⟨severity, finding.issue, finding.range, file⟩ : Diagnostic)
    rwa [map_map] at reported
  · have goesOn := arrives.goesOn straight
    rw [split, take_left, ends] at goesOn
    cases goesOn

/-- Behind two arms that leave stand a loop, a return and, behind that, a label. -/
def leavingArms : Func where
  keyword := "sub"
  params := []
  body :=
    let flag := Expr.literal .boolean "true" .empty
    let at_ (line : Nat) := Range.create line 0 line 1
    let leaves := Block.mk [.ret none (at_ 2)] .empty
    let raises := Block.mk [.throw flag (at_ 4)] .empty
    let turn := Block.mk [.ret none (at_ 7), .stop (at_ 8)] .empty
    ⟨[.ifThen ⟨flag, leaves, .block raises, at_ 1, false⟩, .whileDo flag turn (at_ 6)], .empty⟩
  range := .empty
  signature := .empty
  returnType := none
  name := none
  isMethod := false
  nspace := none

theorem Func.unreachable_exactly_leavingArms :
    ({} : Settings).severity? .unreachableCode = some .info ∧
    ((({} : Settings).report "a.brs" (leavingArms.flow true).findings).filter
        (·.code = .unreachableCode)).Perm
      [⟨.info, .unreachableCode, .create 6 0 6 1, "a.brs"⟩,
        ⟨.info, .unreachableCode, .create 8 0 8 1, "a.brs"⟩] ∧
    ¬ leavingArms.Arrives leavingArms.body 1 := by
  have on : ({} : Settings).severity? .unreachableCode = some .info := by decide +kernel
  obtain ⟨reported, -, unreached⟩ := leavingArms.unreachable_exactly {} "a.brs" on
  refine ⟨on, reported, unreached (by decide) leavingArms.body _ [_] [] rfl rfl⟩

end ChannelLint
