import ChannelLint.Proofs.Watch.Step

/-!
# The walk and the watch agree

A walk over a body without jumps, none of whose conditions tests the validity of a name, does to that
name what the watch of the body says. So the reports of a function about the name are those of its
watch.
-/
namespace ChannelLint

open List

variable {rest : List FrameShape} {findings : List Finding} {n : Ident}

/-- A part stands in a frame that is meant for it. -/
def Chunk.Fits : Chunk → FrameShape → Prop
  | .stmt _, top => top.site.isBlock
  | .stmts _, top => top.site.isBlock ∧ (top.returns = false → top.paths = 1)
  | .block around _, top | .branch around _, top => top.site.around = around
  | .handler _, top => top.site.isTry
  | .nothing, _ => True

namespace Walk

variable {x : String}

theorem around_of_block {site : Site} (inBlock : site.isBlock) :
    site.around = .plain ∧ site.isFor = false := by
  cases site with
  | block b => exact ⟨rfl, rfl⟩
  | stmt s => cases inBlock
  | handler c => cases inBlock

section

variable (loopsBranch : Bool) {w : Walk}

theorem enterLoop_watch {s : Stmt} {body : Block} {top : FrameShape}
    (loops : s.Loops body) (tidy : w.Tidy x) (shapes : w.shapes = top :: rest) :
    (w.enterLoop loopsBranch s).watch x = s.enteredWatch x (w.watch x) ∧
      (w.enterLoop loopsBranch s).Tidy x := by
  cases loops with
  | forTo counter limit stride body range =>
    have opened := open_shapes loopsBranch w
      (.stmt (.forTo counter limit stride body range)) rfl rfl false
    obtain ⟨entered, tidyEntered⟩ := arrive_watch tidy loopsBranch shapes
      (.stmt (.forTo counter limit stride body range)) rfl false
    obtain ⟨counted, tidyCounted⟩ := arrive_watch tidyEntered loopsBranch opened
      (.stmt (.assign counter)) rfl false
    rw [roleAt_of_shapes opened] at counted
    rw [← leaf_shapes loopsBranch _ (.stmt (.assign counter)) rfl rfl false] at opened
    obtain ⟨frame, frames, stack, shape, -⟩ := map_eq_cons_iff.1 opened
    have bounded := readMore_watch tidyCounted stack (limit :: stride.toList)
      (by rw [show frame.site = _ from congrArg FrameShape.site shape]; rfl)
    rw [counted, entered] at bounded
    exact bounded
  | forEach item target body range =>
    exact arrive_watch tidy loopsBranch shapes
      (.stmt (.forEach item target body range)) rfl false
  | whileDo condition body range =>
    exact arrive_watch tidy loopsBranch shapes
      (.stmt (.whileDo condition body range)) rfl false

theorem follow_watch (c : Chunk) (first : Bool) {top : FrameShape}
    (tidy : w.Tidy x) (shapes : w.shapes = top :: rest) (fits : c.Fits top)
    (watchable : ∀ site ∈ c.sites, site.watchable x) :
    (follow loopsBranch first w c).watch x = c.watch x loopsBranch (w.watch x) ∧
      (follow loopsBranch first w c).Tidy x := by
  induction c generalizing w first top rest with
  | simple s simple =>
    rw [follow, Chunk.watch, followStmt_of_simple simple, Stmt.watch_of_simple simple]
    have arrived := arrive_watch tidy loopsBranch shapes (.stmt s)
      (watchable _ (by simp [Chunk.sites, Stmt.sites_of_simple simple])) false
    cases s <;> first | exact arrived | cases simple
  | assign a =>
    have assigned := arrive_watch tidy loopsBranch shapes (.stmt (.assign a)) rfl false
    rw [roleAt_of_shapes shapes, (around_of_block fits).2] at assigned
    exact assigned
  | dim name sizes range =>
    exact arrive_watch tidy loopsBranch shapes (.stmt (.dim name sizes range)) rfl false
  | ifThen i ih => exact ih first tidy shapes (around_of_block fits).1 watchable
  | loop s body loops ih =>
    have alone : (Site.stmt s).ownsPaths = false := by cases loops <;> rfl
    have opened := enterLoop_shapes loopsBranch loops w
    obtain ⟨entered, tidyEntered⟩ := enterLoop_watch loopsBranch loops tidy shapes
    rw [shapes] at opened
    obtain ⟨walked, tidyWalked⟩ := ih false tidyEntered opened (by cases loops <;> rfl)
      fun site member => watchable site (by
        rw [Chunk.sites, loops.sites]
        exact mem_cons_of_mem _ member)
    have turned := followBlock_shapes loopsBranch body false opened
    simp only [alone, Bool.false_and] at turned
    have closed := close_watch_of_shapes tidyWalked turned
    rw [walked, entered, (around_of_block fits).1] at closed
    rw [follow, followStmt_of_loop loops, Chunk.watch, loops.watch]
    exact closed
  | tryCatch body handler range tried caught =>
    have opened := open_shapes loopsBranch w (.stmt (.tryCatch body handler range)) rfl rfl false
    obtain ⟨entered, tidyEntered⟩ := arrive_watch tidy loopsBranch shapes
      (.stmt (.tryCatch body handler range)) rfl false
    rw [shapes] at opened
    obtain ⟨inBody, inHandler⟩ := forall_mem_append.1 (forall_mem_cons.1 watchable).2
    obtain ⟨tried, tidyTried⟩ := tried false tidyEntered opened rfl inBody
    have triedShapes := followBlock_shapes loopsBranch body false opened
    obtain ⟨caught, tidyCaught⟩ := caught false tidyTried triedShapes rfl inHandler
    have closed := close_watch_of_shapes tidyCaught
      (follow_shapes loopsBranch (.handler handler) false triedShapes)
    rw [caught, tried, entered, (around_of_block fits).1] at closed
    exact closed
  | cons s others here behind =>
    obtain ⟨walked, tidyWalked⟩ := here first tidy shapes fits.1 fun site member =>
      watchable site (mem_append_left _ member)
    obtain ⟨paths, passed, -, stillSingle⟩ := follow_shapes loopsBranch (.stmt s) first shapes fits.2
    have second := behind first tidyWalked passed ⟨fits.1, stillSingle⟩
      fun site member => watchable site (mem_append_right _ member)
    rw [walked] at second
    exact second
  | empty around range => exact arrive_watch tidy loopsBranch shapes (.block ⟨[], range⟩) rfl first
  | block around s others range ih =>
    have opened := open_shapes loopsBranch w (.block ⟨s :: others, range⟩) rfl rfl first
    obtain ⟨entered, tidyEntered⟩ := arrive_watch tidy loopsBranch shapes
      (.block ⟨s :: others, range⟩) rfl first
    rw [shapes] at opened
    obtain ⟨walked, tidyWalked⟩ := ih first tidyEntered opened ⟨rfl, fun _ => rfl⟩
      fun site member => watchable site (mem_cons_of_mem _ member)
    obtain ⟨paths, walkedShapes, few, -⟩ :=
      follow_shapes loopsBranch (.stmts (s :: others)) first opened fun _ => rfl
    obtain ⟨closed, tidyClosed⟩ := close_watch_of_shapes tidyWalked walkedShapes
    rw [walked, entered, watch_close_congr _ few, show top.site.around = around from fits] at closed
    exact ⟨closed, tidyClosed⟩
  | branch around condition onTrue onFalse range inline taken passed =>
    have opened := open_shapes loopsBranch w
      (.stmt (.ifThen ⟨condition, onTrue, onFalse, range, inline⟩)) rfl rfl false
    rw [Chunk.sites_branch] at watchable
    obtain ⟨here, inside⟩ := forall_mem_cons.1 watchable
    obtain ⟨inTrue, inFalse⟩ := forall_mem_append.1 inside
    obtain ⟨entered, tidyEntered⟩ := arrive_watch tidy loopsBranch shapes _ here false
    rw [shapes] at opened
    obtain ⟨taken, tidyTaken⟩ := taken true tidyEntered opened rfl inTrue
    have takenShapes := followBlock_shapes loopsBranch onTrue true opened
    obtain ⟨passed, tidyPassed⟩ := passed false tidyTaken takenShapes
      (by cases onFalse <;> first | rfl | trivial) inFalse
    have passedShapes := else_turns (follow_shapes loopsBranch onFalse.chunk false takenShapes) rfl
    rw [follow_chunk] at passed tidyPassed passedShapes
    have closed := close_watch_of_shapes tidyPassed passedShapes
    rw [passed, taken, entered, show top.site.around = around from fits] at closed
    rw [Chunk.watch_branch]
    exact closed
  | handler caught body range ih =>
    have branches : top.site.around = .branches := by
      simp [Site.around, show top.site.isTry = true from fits]
    have opened := open_shapes loopsBranch w (.handler ⟨caught, body, range⟩) rfl rfl false
    obtain ⟨entered, tidyEntered⟩ := arrive_watch tidy loopsBranch shapes
      (.handler ⟨caught, body, range⟩) rfl false
    rw [shapes] at opened
    obtain ⟨handled, tidyHandled⟩ := ih false tidyEntered opened rfl
      fun site member => watchable site (mem_cons_of_mem _ member)
    have closed := close_watch_of_shapes tidyHandled
      (followBlock_shapes loopsBranch body false opened)
    rw [handled, entered, branches] at closed
    exact closed
  | _ => exact ⟨rfl, tidy⟩

end

/-! ## Reports about the name -/

theorem returnFindings_quiet (f : Func) (last : Frame) (returns : List ReturnSeen) (throws : Nat) :
    (returnFindings f last returns throws).filterMap (Finding.alarm? x) = [] ∧
      (returnFindings f last returns throws).filterMap (Finding.unused? x) = [] := by
  have quiet : ∀ finding ∈ returnFindings f last returns throws,
      finding.alarm? x = none ∧ finding.unused? x = none := by
    rintro ⟨issue, range⟩ member
    have rule := rule_of_mem_returnFindings member
    cases issue <;> first | exact ⟨rfl, rfl⟩ | cases rule
  exact ⟨filterMap_eq_nil_iff.2 fun finding member => (quiet finding member).1,
    filterMap_eq_nil_iff.2 fun finding member => (quiet finding member).2⟩

theorem mem_alarms : n ∈ findings.filterMap (Finding.alarm? n.key) ↔
      ⟨.iteratorOutsideLoop n.text, n.range⟩ ∈ findings ∨
        ⟨.unassignedPath n.text, n.range⟩ ∈ findings := by
  constructor
  · intro member
    obtain ⟨⟨issue, range⟩, found, alarm⟩ := mem_filterMap.1 member
    cases issue with
    | iteratorOutsideLoop name =>
      cases (Option.ite_none_right_eq_some.1 alarm).2
      exact .inl found
    | unassignedPath name =>
      cases (Option.ite_none_right_eq_some.1 alarm).2
      exact .inr found
    | _ => cases alarm
  · rintro (found | found)
    · exact mem_filterMap.2 ⟨_, found, if_pos rfl⟩
    · exact mem_filterMap.2 ⟨_, found, if_pos rfl⟩

theorem mem_unused : n ∈ findings.filterMap (Finding.unused? n.key) ↔
      ⟨.unusedVariable n.text, n.range⟩ ∈ findings := by
  constructor
  · intro member
    obtain ⟨⟨issue, range⟩, found, blamed⟩ := mem_filterMap.1 member
    cases issue with
    | unusedVariable name =>
      cases (Option.ite_none_right_eq_some.1 blamed).2
      exact found
    | _ => cases blamed
  · intro found
    exact mem_filterMap.2 ⟨_, found, if_pos rfl⟩

theorem mem_free {uses : List FreeUse} :
    n ∈ uses.filterMap (FreeUse.of? n.key) ↔ ∃ called, ⟨n.text, n.range, called⟩ ∈ uses := by
  constructor
  · intro member
    obtain ⟨⟨name, range, called⟩, found, free⟩ := mem_filterMap.1 member
    cases (Option.ite_none_right_eq_some.1 free).2
    exact ⟨called, found⟩
  · rintro ⟨called, found⟩
    exact mem_filterMap.2 ⟨_, found, if_pos rfl⟩

end Walk

namespace Func

variable {f : Func} {x : String}

/-- A name that a function can bind. -/
def isLocal (f : Func) (x : String) : Prop :=
  x ≠ "m" ∧ (Walk.paramBindings f).contains x = false

/-- What a function does to a name that is not a parameter. -/
def watch (f : Func) (x : String) (loopsBranch : Bool) : Watch :=
  Stmt.watchAll x loopsBranch f.body.statements ⟨[none], [], [], []⟩

theorem bodyWalk_watch (loopsBranch : Bool) (own : f.isLocal x)
    (watchable : ∀ site ∈ f.body.sites, site.watchable x) :
    (f.bodyWalk loopsBranch).watch x = f.watch x loopsBranch ∧ (f.bodyWalk loopsBranch).Tidy x := by
  have free : f.given.find? x = none := by
    simpa [given, OrderedMap.contains, OrderedMap.find?_map] using own.2
  have tidy : f.openBody.Tidy x := ⟨own.1, _, free, f.openBody_isTidy rfl⟩
  rw [Block.sites_eq] at watchable
  exact Walk.follow_watch loopsBranch (.stmts f.body.statements) false tidy f.openBody_shapes
    ⟨rfl, fun _ => rfl⟩ (forall_mem_cons.1 watchable).2

variable (loopsBranch : Bool) (own : f.isLocal n.key)
  (watchable : ∀ site ∈ f.body.sites, site.watchable n.key)

include own watchable

/-- The name is reported to be unassigned on some path exactly where the watch raises an alarm. -/
theorem mem_alarms_iff : ⟨.iteratorOutsideLoop n.text, n.range⟩ ∈ (f.flow loopsBranch).findings ∨
        ⟨.unassignedPath n.text, n.range⟩ ∈ (f.flow loopsBranch).findings ↔
      n ∈ (f.watch n.key loopsBranch).alarms := by
  obtain ⟨last, -, -, closed⟩ := f.flow_eq loopsBranch
  rw [← (bodyWalk_watch loopsBranch own watchable).1, ← Walk.mem_alarms, closed]
  simp only [filterMap_append, (Walk.returnFindings_quiet f last _ _).1,
    Walk.unusedFindings_alarm?, append_nil]
  rfl

theorem mem_free_iff : (∃ called, ⟨n.text, n.range, called⟩ ∈ (f.flow loopsBranch).freeUses) ↔
      n ∈ (f.watch n.key loopsBranch).free := by
  obtain ⟨last, -, -, closed⟩ := f.flow_eq loopsBranch
  rw [← (bodyWalk_watch loopsBranch own watchable).1, ← Walk.mem_free, closed]
  rfl

/-- The name is reported to be bound in vain where the watch says so, or where the binding stands that
is left at the end of the function. -/
theorem mem_unused_iff : ⟨.unusedVariable n.text, n.range⟩ ∈ (f.flow loopsBranch).findings ↔
      n ∈ (f.watch n.key loopsBranch).unused ∨
        ∃ slot ∈ (f.watch n.key loopsBranch).stack, n ∈ Slot.unusedIn slot := by
  obtain ⟨last, stack, -, closed⟩ := f.flow_eq loopsBranch
  obtain ⟨agreed, tidy⟩ := bodyWalk_watch loopsBranch own watchable
  obtain ⟨given, filed, -⟩ := tidy.frame (by simp [stack] : last ∈ (f.bodyWalk loopsBranch).stack)
  rw [← agreed, ← Walk.mem_unused, closed]
  simp only [filterMap_append, (Walk.returnFindings_quiet f last _ _).2, append_nil,
    Walk.unusedFindings_unused? filed, mem_append]
  simp only [Walk.watch, stack, map_cons, map_nil, mem_singleton, exists_eq_left]
  rfl

end Func

end ChannelLint
