import ChannelLint.Proofs.Moves
import ChannelLint.Proofs.Path

/-!
# Bodies that never fall through

`ends` reads off the tree whether a statement always returns or raises. Part one compares it with
the paths through the statement. Part two shows that the walk computes it with its counters: each
open frame has a shape, and every step of the walk is described by what it does to the shapes.
-/
namespace ChannelLint

open List

variable {s : Stmt} {body : Block} {loopsBranch : Bool} {site : Site}

mutual

/-- Behind the statement nothing runs: it returns, it raises, or each of its branches does. -/
def Stmt.ends : Stmt → Bool
  | .ret .. | .throw .. => true
  | .ifThen branch => branch.ends
  | .tryCatch body handler _ => body.ends && handler.ends
  | _ => false

def Stmt.endsAny : List Stmt → Bool
  | [] => false
  | s :: rest => s.ends || Stmt.endsAny rest

def Block.ends : Block → Bool
  | ⟨statements, _⟩ => Stmt.endsAny statements

def If.ends : If → Bool
  | ⟨_, onTrue, onFalse, _, _⟩ => onTrue.ends && onFalse.ends

def Else.ends : Else → Bool
  | .absent => false
  | .block body => body.ends
  | .elseIf branch => branch.ends

def Catch.ends : Catch → Bool
  | ⟨_, body, _⟩ => body.ends

end

mutual

/-- An `exit` stands in the statement, but in no loop of it. -/
def Stmt.strays : Stmt → Bool
  | .exit .. => true
  | .ifThen branch => branch.strays
  | .tryCatch body handler _ => body.strays || handler.strays
  | _ => false

def Stmt.straysAny : List Stmt → Bool
  | [] => false
  | s :: rest => s.strays || Stmt.straysAny rest

def Block.strays : Block → Bool
  | ⟨statements, _⟩ => Stmt.straysAny statements

def If.strays : If → Bool
  | ⟨_, onTrue, onFalse, _, _⟩ => onTrue.strays || onFalse.strays

def Else.strays : Else → Bool
  | .absent => false
  | .block body => body.strays
  | .elseIf branch => branch.strays

def Catch.strays : Catch → Bool
  | ⟨_, body, _⟩ => body.strays

end

def Chunk.ends : Chunk → Bool
  | .stmt s => s.ends
  | .stmts statements => Stmt.endsAny statements
  | .block _ b => b.ends
  | .branch _ i => i.ends
  | .handler c => c.ends
  | .nothing => false

@[simp] theorem Else.ends_chunk (e : Else) : e.chunk.ends = e.ends := by
  cases e <;> rfl

def Chunk.strays : Chunk → Bool
  | .stmt s => s.strays
  | .stmts statements => Stmt.straysAny statements
  | .block _ b => b.strays
  | .branch _ i => i.strays
  | .handler c => c.strays
  | .nothing => false

@[simp] theorem Else.strays_chunk (e : Else) : e.chunk.strays = e.strays := by
  cases e <;> rfl

theorem Stmt.Loops.ends (loops : s.Loops body) : s.ends = false := by
  cases loops <;> rfl

/-! ## Paths -/

namespace Paths

theorem perform_all (events : List Event) (outcome : Outcome) :
    perform events outcome events outcome :=
  .inl ⟨rfl, rfl⟩

theorem seq_of_done {p q : Paths} {a b : List Event} {o : Outcome} (first : p a .done)
    (second : q b o) : seq p q (a ++ b) o :=
  .inr ⟨a, b, first, second, rfl⟩

theorem seq_done {p q : Paths} {t : List Event} (run : seq p q t .done) :
    ∃ a b, p a .done ∧ q b .done ∧ t = a ++ b := by
  rcases run with ⟨_, differs⟩ | split
  · exact absurd rfl differs
  · exact split

/-- A list of statements can raise at once. -/
theorem runsAll_raised (statements : List Stmt) : Stmt.RunsAll statements [] .raised := by
  cases statements with
  | nil => exact .inr ⟨prefix_rfl, rfl⟩
  | cons s rest => exact .inl ⟨rfl, rfl⟩

theorem block_raised (b : Block) : b.Runs [] .raised := by
  cases b with
  | mk statements range => exact runsAll_raised statements

theorem catch_raised (c : Catch) : ∃ t, c.Runs t .raised := by
  cases c with
  | mk caught body range => exact ⟨_, seq_of_done ⟨rfl, rfl⟩ (block_raised body)⟩

end Paths

open Paths

theorem Chunk.not_done_of_ends (c : Chunk) (ends : c.ends) (t : List Event) : ¬ c.Runs t .done := by
  intro run
  induction c generalizing t with
  | simple s simple =>
    cases s with
    | ret value range =>
      rcases run with ⟨_, other⟩ | ⟨_, other⟩ <;> cases other
    | throw value range =>
      rcases run with ⟨_, other⟩ | ⟨_, other⟩ <;> cases other
    | _ => first | cases ends | cases simple
  | ifThen i ih => exact ih ends t run
  | loop s body loops ih => exact absurd ends (by simp [Chunk.ends, loops.ends])
  | tryCatch body handler range tried caught =>
    simp only [Chunk.ends, Stmt.ends, Bool.and_eq_true] at ends
    rcases run with ⟨direct, _⟩ | ⟨a, b, _, handled, _⟩
    · exact tried ends.1 t direct
    · exact caught ends.2 b handled
  | cons s others first later =>
    simp only [Chunk.ends, Stmt.endsAny, Bool.or_eq_true] at ends
    rcases run with ⟨_, other⟩ | run
    · cases other
    · obtain ⟨a, b, here, behind, _⟩ := seq_done run
      rcases ends with ends | ends
      · exact first ends a here
      · exact later ends b behind
  | block around s others range ih => exact ih ends t run
  | branch around condition onTrue onFalse range inline taken passed =>
    rw [Else.ends_chunk] at passed
    simp only [Chunk.ends, If.ends, Bool.and_eq_true] at ends
    rw [Chunk.runs_branch] at run
    obtain ⟨a, b, _, chosen, _⟩ := seq_done run
    rcases chosen with chosen | chosen
    · exact taken ends.1 b chosen
    · exact passed ends.2 b chosen
  | handler caught body range ih =>
    obtain ⟨a, b, _, handled, _⟩ := seq_done run
    exact ih ends b handled
  | _ => cases ends

theorem Chunk.exists_done (c : Chunk) (goesOn : c.ends = false) (bound : c.strays = false) :
    ∃ t, c.Runs t .done := by
  induction c with
  | simple s simple =>
    cases s with
    | ret value range => cases goesOn
    | throw value range => cases goesOn
    | exit loop range => cases bound
    | _ => first | exact ⟨_, perform_all _ _⟩ | cases simple
  | ifThen i ih => exact ih goesOn bound
  | loop s body loops ih =>
    cases loops with
    | forTo => exact ⟨_, seq_of_done (perform_all _ _) (.stop ⟨rfl, rfl⟩)⟩
    | forEach => exact ⟨_, seq_of_done (perform_all _ _) (.stop ⟨rfl, rfl⟩)⟩
    | whileDo => exact ⟨_, .stop (perform_all _ _)⟩
  | tryCatch body handler range tried caught =>
    simp only [Chunk.strays, Stmt.strays, Bool.or_eq_false_iff] at bound
    cases ending : body.ends with
    | false =>
      obtain ⟨t, run⟩ := tried ending bound.1
      exact ⟨t, .inl ⟨run, by simp⟩⟩
    | true =>
      have caughtGoesOn : handler.ends = false := by
        simpa [Chunk.ends, Stmt.ends, ending] using goesOn
      obtain ⟨t, run⟩ := caught caughtGoesOn bound.2
      exact ⟨[] ++ t, .inr ⟨[], t, block_raised body, run, rfl⟩⟩
  | cons s others first later =>
    simp only [Chunk.ends, Chunk.strays, Stmt.endsAny, Stmt.straysAny, Bool.or_eq_false_iff]
      at goesOn bound
    obtain ⟨a, here⟩ := first goesOn.1 bound.1
    obtain ⟨b, behind⟩ := later goesOn.2 bound.2
    exact ⟨a ++ b, .inr (seq_of_done here behind)⟩
  | block around s others range ih => exact ih goesOn bound
  | branch around condition onTrue onFalse range inline taken passed =>
    rw [Else.ends_chunk, Else.strays_chunk] at passed
    rw [Chunk.runs_branch]
    simp only [Chunk.strays, If.strays, Bool.or_eq_false_iff] at bound
    simp only [Chunk.ends, If.ends, Bool.and_eq_false_iff] at goesOn
    rcases goesOn with goesOn | goesOn
    · obtain ⟨t, run⟩ := taken goesOn bound.1
      exact ⟨_, seq_of_done (perform_all _ _) (.inl run)⟩
    · obtain ⟨t, run⟩ := passed goesOn bound.2
      exact ⟨_, seq_of_done (perform_all _ _) (.inr run)⟩
  | handler caught body range ih =>
    obtain ⟨t, run⟩ := ih goesOn bound
    exact ⟨_, seq_of_done ⟨rfl, rfl⟩ run⟩
  | nothing => exact ⟨[], rfl, rfl⟩
  | _ => exact ⟨_, perform_all _ _⟩

theorem Block.ends_eq (b : Block) : b.ends = Stmt.endsAny b.statements := by
  cases b
  rfl

/-- A block ends exactly when no path falls off its end. -/
theorem Block.ends_iff (b : Block) (bound : b.strays = false) :
    b.ends = true ↔ ¬ ∃ t, b.Runs t .done := by
  constructor
  · rintro ends ⟨t, run⟩
    exact Chunk.not_done_of_ends (.block .plain b) ends t run
  · intro stuck
    cases ending : b.ends with
    | true => rfl
    | false => exact absurd (Chunk.exists_done (.block .plain b) ending bound) stuck

/-! ## Shapes of frames -/

namespace Walk

/-- Visits a loop up to its body. -/
def enterLoop (loopsBranch : Bool) (w : Walk) : Stmt → Walk
  | .forTo counter limit stride body range =>
    ((w.enter loopsBranch (.stmt (.forTo counter limit stride body range)) []).assign
      counter).readMore (limit :: stride.toList)
  | .forEach item target body range =>
    w.enter loopsBranch (.stmt (.forEach item target body range)) [target]
  | .whileDo condition body range =>
    w.enter loopsBranch (.stmt (.whileDo condition body range)) [condition]
  | _ => w

theorem followStmt_of_loop {w : Walk} (loops : s.Loops body) : followStmt loopsBranch w s =
      (followBlock loopsBranch (w.enterLoop loopsBranch s) false body).close := by
  cases loops <;> rw [followStmt] <;> rfl

end Walk

/-- What the returns of a body depend on. -/
structure FrameShape where
  site : Site
  paths : Int
  returns : Bool

def Frame.shape (frame : Frame) : FrameShape :=
  ⟨frame.site, frame.paths, frame.returns⟩

namespace Walk

variable {before after : Frame × Walk} {w : Walk} {parent top : FrameShape} {rest : List FrameShape}

def shapes (w : Walk) : List FrameShape :=
  w.stack.map Frame.shape

/-- What a closed frame does to the shape of the frame around it. -/
def settleShape (closed parent : FrameShape) : FrameShape :=
  if closed.site.ownsPaths then
    if closed.paths = 0 then { parent with returns := true, paths := parent.paths - 1 } else parent
  else if closed.returns && parent.site.ownsPaths then { parent with paths := parent.paths - 1 }
  else parent

theorem shape_settlePaths (closed parent : Frame) :
    (settlePaths closed parent).shape = settleShape closed.shape parent.shape := by
  unfold settlePaths settleShape Frame.shape
  dsimp only
  split
  · split <;> rfl
  · split <;> rfl

theorem ReadEffect.shapes (effect : ReadEffect before after) :
    after.2.shapes = before.2.shapes := by
  have cores : ∀ w : Walk, w.shapes = w.cores.map Frame.shape := fun w => by
    simp [Walk.shapes, Walk.cores, Function.comp_def, Frame.shape, Frame.core]
  rw [cores, cores, effect.cores]

theorem ReadEffect.shape (effect : ReadEffect before after) : after.1.shape = before.1.shape := by
  obtain ⟨added, frame⟩ := effect.frame
  rw [frame]
  rfl

theorem openFrame_shapes (w : Walk) (frame : Frame) (first : Bool) :
    (w.openFrame frame first).shapes = frame.shape :: w.shapes := by
  obtain ⟨narrowings, effect⟩ := prepare_effect w frame first
  obtain ⟨locals, prepared⟩ := effect.frame
  simp only [openFrame, shapes, map_cons, effect.stack, prepared]
  rfl

theorem bindTop_shapes (w : Walk) (name : Ident) (role : Role) :
    (w.bindTop name role).shapes = w.shapes := by
  unfold bindTop
  split
  · rfl
  · next top rest stack =>
    have effect := bind_effect w top name role none
    obtain ⟨locals, bound⟩ := effect.frame
    simp only [shapes, map_cons, bound, stack]
    rfl

theorem noteReturn_shapes_of_passing (w : Walk) (passing : site.endsPath = false) :
    (w.noteReturn site).shapes = w.shapes := by
  rw [noteReturn_of_passing w passing]
  split <;> rfl

theorem close_shapes {closed : FrameShape} (shapes : w.shapes = closed :: parent :: rest) :
    w.close.shapes = settleShape closed parent :: rest := by
  obtain ⟨closedFrame, inner, stack, rfl, tail⟩ := map_eq_cons_iff.1 shapes
  obtain ⟨parentFrame, outer, rfl, rfl, rfl⟩ := map_eq_cons_iff.1 tail
  obtain ⟨locals, closedStack, -⟩ := close_eq stack
  simp only [Walk.shapes, closedStack, map_cons]
  rw [← shape_settlePaths]
  rfl

/-! ## Shapes along the walk -/

theorem noteReturn_shapes (shapes : w.shapes = top :: rest)
    (single : top.returns = false → top.paths = 1) (site : Site) :
    (w.noteReturn site).shapes = { top with returns := top.returns || site.endsPath } :: rest := by
  cases ending : site.endsPath with
  | false => simp [noteReturn_shapes_of_passing w ending, shapes]
  | true =>
    obtain ⟨frame, frames, stack, rfl, rfl⟩ := map_eq_cons_iff.1 shapes
    cases returned : frame.returns with
    | false =>
      have onePath : frame.paths = 1 := single returned
      obtain ⟨noted, -⟩ := noteReturn_of_ending ending stack returned
      simp [Walk.shapes, noted, onePath, Frame.shape]
    | true =>
      have behind : w.noteReturn site = w.report .unreachableCode site.range := by
        unfold noteReturn
        rw [if_pos (by simp [stack, returned])]
      simp [behind, Walk.shapes, report, stack, Frame.shape, returned]

theorem jump_shapes (w : Walk) (label : Ident) : (w.jump label).shapes = w.shapes := by
  unfold jump
  split
  · rfl
  · simp [Walk.shapes, Function.comp_def, Frame.shape]

theorem Site.children_of_binds {name : Ident} (binds : site.binds? = some name) :
    site.children.isEmpty = true := by
  unfold Site.binds? at binds
  split at binds <;> first | rfl | cases binds

theorem visitSite_shapes (loopsBranch : Bool) (w : Walk) (site : Site) :
    (w.visitSite loopsBranch site).2.shapes =
      ((w.visit site (site.paths loopsBranch)).2.noteReturn site).shapes := by
  unfold visitSite noteJump
  dsimp only
  split
  · rfl
  · exact jump_shapes _ _
  · rfl

theorem arrive_shapes {noted : List FrameShape}
    (visited : ((w.visit site (site.paths loopsBranch)).2.noteReturn site).shapes = noted)
    (first : Bool) : (w.arrive loopsBranch site first).shapes =
      if site.children.isEmpty then noted else ⟨site, site.paths loopsBranch, false⟩ :: noted := by
  have jumped := (visitSite_shapes loopsBranch w site).trans visited
  have effect := readExprs_effect site.front (w.visitSite loopsBranch site)
  unfold arrive settle
  split
  · next binds =>
    rw [if_pos (Site.children_of_binds binds), bindTop_shapes, effect.shapes, jumped]
  · split
    · exact effect.shapes.trans jumped
    · rw [openFrame_shapes, effect.shape, effect.shapes, jumped]
      rfl

section

variable (loopsBranch : Bool) (w : Walk) (site : Site) (passing : site.endsPath = false)

include passing

theorem leaf_shapes (leaf : site.children.isEmpty = true) (first : Bool) :
    (w.arrive loopsBranch site first).shapes = w.shapes := by
  rw [arrive_shapes (noteReturn_shapes_of_passing _ passing), if_pos leaf]
  rfl

theorem open_shapes (nests : site.children.isEmpty = false) (first : Bool) :
    (w.arrive loopsBranch site first).shapes =
      ⟨site, site.paths loopsBranch, false⟩ :: w.shapes := by
  rw [arrive_shapes (noteReturn_shapes_of_passing _ passing), nests]
  rfl

end

theorem readMore_shapes (w : Walk) (exprs : List Expr) : (w.readMore exprs).shapes = w.shapes := by
  unfold readMore
  split
  · rfl
  · exact (readExprs_effect exprs _).shapes

/-- An `else if` that ends tells so to the frame of the `if` before it; a block does not. -/
def endsNested : Else → Bool
  | .elseIf branch => branch.ends
  | _ => false

/-- One path less if a part ended. -/
def pathsAfter (paths : Int) (ends : Bool) : Int :=
  if ends then paths - 1 else paths

theorem pathsAfter_le (paths : Int) (ends : Bool) : pathsAfter paths ends ≤ paths := by
  unfold pathsAfter
  split <;> omega

/-- A statement with two branches passes on that both have ended. -/
theorem settleShape_of_branches {first second nested : Bool}
    (loopsBranch : Bool) (owns : site.ownsPaths) (branches : site.paths loopsBranch = 2) :
    settleShape ⟨site, pathsAfter (pathsAfter (site.paths loopsBranch) (site.ownsPaths && first))
      second, nested⟩ parent =
      ⟨parent.site, pathsAfter parent.paths (first && second), parent.returns || (first && second)⟩
      := by
  rw [branches]
  cases first <;> cases second <;> simp [settleShape, pathsAfter, owns]

theorem settleShape_of_block (b : Block) (paths : Int) (ends : Bool) (parent : FrameShape) :
    settleShape ⟨.block b, paths, ends⟩ parent =
      { parent with paths := pathsAfter parent.paths (parent.site.ownsPaths && ends) } := by
  have blockOwnsNone : (Site.block b).ownsPaths = false := rfl
  cases ends <;> cases owns : parent.site.ownsPaths <;>
    simp [settleShape, pathsAfter, blockOwnsNone, owns]

variable (loopsBranch : Bool)

theorem enterLoop_shapes (loops : s.Loops body) (w : Walk) : (w.enterLoop loopsBranch s).shapes =
      ⟨.stmt s, (Site.stmt s).paths loopsBranch, false⟩ :: w.shapes := by
  have opened := open_shapes loopsBranch w (.stmt s) (by cases loops <;> rfl)
    (by cases loops <;> rfl) false
  cases loops with
  | forTo counter =>
    rw [enterLoop, readMore_shapes]
    exact (leaf_shapes loopsBranch _ (.stmt (.assign counter)) rfl rfl false).trans opened
  | forEach => exact opened
  | whileDo => exact opened

/-- What a part does to the shape of the frame that it stands in. A statement stands in a frame that
has one path as long as it has not returned. -/
def Turns (c : Chunk) (top : FrameShape) (rest after : List FrameShape) : Prop :=
  match c with
  | .block _ b =>
    after = { top with paths := pathsAfter top.paths (top.site.ownsPaths && b.ends) } :: rest
  | .branch .. | .handler _ =>
    after = ⟨top.site, pathsAfter top.paths c.ends, top.returns || c.ends⟩ :: rest
  | .nothing => after = top :: rest
  | _ => (top.returns = false → top.paths = 1) →
    ∃ paths, after = ⟨top.site, paths, top.returns || c.ends⟩ :: rest ∧ paths ≤ top.paths ∧
      ((top.returns || c.ends) = false → paths = 1)

section

theorem else_turns {e : Else} {after : List FrameShape} (turns : Turns e.chunk top rest after)
    (branching : top.site.isIf) :
    after = ⟨top.site, pathsAfter top.paths e.ends, top.returns || endsNested e⟩ :: rest := by
  have owns : top.site.ownsPaths = true := by simp [Site.ownsPaths, branching]
  cases e with
  | absent => simpa [Turns, Else.chunk, Else.ends, endsNested, pathsAfter] using turns
  | block body => simpa [Turns, Else.chunk, Else.ends, endsNested, owns] using turns
  | elseIf branch => exact turns

/-- A statement that never ends leaves the frame as it is. -/
theorem turns_of_passing {after : List FrameShape} (passes : s.ends = false)
    (same : after = top :: rest) : Turns (.stmt s) top rest after := fun single =>
  ⟨top.paths, by simp [same, Chunk.ends, passes], Int.le_refl _, by simpa [Chunk.ends, passes]⟩

theorem turns_of_branches {after : List FrameShape}
    (turned : after = ⟨top.site, pathsAfter top.paths s.ends, top.returns || s.ends⟩ :: rest) :
    Turns (.stmt s) top rest after := by
  refine fun single => ⟨_, turned, pathsAfter_le _ _, fun goesOn => ?_⟩
  obtain ⟨notBehind, goesOn⟩ := Bool.or_eq_false_iff.1 goesOn
  rw [show s.ends = false from goesOn]
  exact single notBehind

theorem follow_shapes (c : Chunk) (first : Bool) (shapes : w.shapes = top :: rest) :
    Turns c top rest (follow loopsBranch first w c).shapes := by
  induction c generalizing w top rest first with
  | simple s simple =>
    intro single
    have sameEnding : (Site.stmt s).endsPath = s.ends := by
      cases s <;> first | rfl | cases simple
    have leaf : (Site.stmt s).children.isEmpty = true := by
      cases s <;> first | rfl | cases simple
    have visited := noteReturn_shapes (w := (w.visit (.stmt s) ((Site.stmt s).paths loopsBranch)).2)
      shapes single (.stmt s)
    rw [follow, followStmt_of_simple simple, arrive_shapes visited, if_pos leaf, sameEnding]
    exact ⟨_, rfl, Int.le_refl _, fun goesOn => single (Bool.or_eq_false_iff.1 goesOn).1⟩
  | assign a =>
    have same := leaf_shapes loopsBranch w (.stmt (.assign a)) rfl rfl false
    exact turns_of_passing rfl (same.trans shapes)
  | dim name sizes range =>
    have same := leaf_shapes loopsBranch w (.stmt (.dim name sizes range)) rfl rfl false
    exact turns_of_passing rfl (same.trans shapes)
  | ifThen i ih => exact turns_of_branches (ih first shapes)
  | loop s body loops ih =>
    have owns : (Site.stmt s).ownsPaths = false := by cases loops <;> rfl
    have turned := ih false (enterLoop_shapes loopsBranch loops w)
    refine turns_of_passing loops.ends ?_
    rw [follow, followStmt_of_loop loops]
    refine (close_shapes (turned.trans (by rw [shapes]))).trans ?_
    simp [settleShape, owns]
  | tryCatch body handler range tried caught =>
    have opened := open_shapes loopsBranch w (.stmt (.tryCatch body handler range)) rfl rfl false
    have closed := close_shapes ((caught false (tried false opened)).trans (by rw [shapes]))
    refine turns_of_branches (closed.trans ?_)
    exact congrArg (· :: rest) (settleShape_of_branches loopsBranch rfl rfl)
  | nil =>
    intro single
    refine ⟨top.paths, ?_, Int.le_refl _, by simpa [Chunk.ends, Stmt.endsAny] using single⟩
    simp [follow, followStmts, shapes, Chunk.ends, Stmt.endsAny]
  | cons s others here behind =>
    intro single
    obtain ⟨paths, walked, few, single⟩ := here first shapes single
    obtain ⟨paths', walked', few', single'⟩ := behind first walked single
    rw [Bool.or_assoc] at walked' single'
    exact ⟨paths', walked', Int.le_trans few' few, single'⟩
  | empty around range =>
    have visited := leaf_shapes loopsBranch w (.block ⟨[], range⟩) rfl rfl first
    refine (visited.trans shapes).trans ?_
    simp [Block.ends, Stmt.endsAny, pathsAfter]
  | block around s others range ih =>
    have opened := open_shapes loopsBranch w (.block ⟨s :: others, range⟩) rfl rfl first
    obtain ⟨paths, walked, -⟩ := ih first (opened.trans (by rw [shapes])) fun _ => rfl
    exact (close_shapes walked).trans (congrArg (· :: rest) (settleShape_of_block _ _ _ _))
  | branch around condition onTrue onFalse range inline taken passed =>
    have opened := open_shapes loopsBranch w
      (.stmt (.ifThen ⟨condition, onTrue, onFalse, range, inline⟩)) rfl rfl false
    have chosen := else_turns (passed false (taken true opened)) rfl
    rw [follow_chunk] at chosen
    rw [follow, followIf]
    refine (close_shapes (chosen.trans (by rw [shapes]))).trans ?_
    exact congrArg (· :: rest) (settleShape_of_branches loopsBranch rfl rfl)
  | handler caught body range ih =>
    have opened := open_shapes loopsBranch w (.handler ⟨caught, body, range⟩) rfl rfl false
    have closed := close_shapes ((ih false opened).trans (by rw [shapes]))
    refine closed.trans (congrArg (· :: rest) ?_)
    cases ending : body.ends <;>
      simp [settleShape, pathsAfter, Site.ownsPaths, Site.isHandler, Site.paths, Site.isIf,
        Site.isTry, Site.isLoop, Chunk.ends, Catch.ends, ending]
  | nothing => exact shapes

theorem followBlock_shapes (b : Block) (first : Bool) (shapes : w.shapes = top :: rest) :
    (followBlock loopsBranch w first b).shapes =
      { top with paths := pathsAfter top.paths (top.site.ownsPaths && b.ends) } :: rest :=
  follow_shapes loopsBranch (.block .plain b) first shapes

end

/-! ## A body that ends was seen to return -/

/-- Every move counts returns and adds findings. -/
theorem run_advances (w : Walk) (m : Move) : Advances Midway w (m.run loopsBranch w) := by
  cases m with
  | arrive site first =>
    exact (visit_advances w site _).trans (arrive_advances loopsBranch w site first).midway
  | readMore exprs => exact (readMore_advances w exprs).midway
  | close => exact (close_advances w).midway

theorem follow_counted (c : Chunk) (first : Bool) (counted : 0 < w.tally) :
    0 < (follow loopsBranch first w c).tally :=
  follow_keeps (P := fun w => 0 < w.tally) (fun w m counted =>
    Nat.lt_of_lt_of_le counted (run_advances loopsBranch w m).tally) c first counted

theorem close_counted (counted : 0 < w.tally) : 0 < w.close.tally :=
  Nat.lt_of_lt_of_le counted (close_advances w).tally

theorem simple_tally (shapes : w.shapes = top :: rest) (reached : top.returns = false)
    (simple : s.isSimple) (ends : s.ends) : 0 < (w.arrive loopsBranch (.stmt s) false).tally := by
  obtain ⟨frame, frames, stack, rfl, rfl⟩ := map_eq_cons_iff.1 shapes
  have endsPath : (Site.stmt s).endsPath = true := by
    cases s <;> first | rfl | cases ends | cases simple
  obtain ⟨-, counted⟩ := noteReturn_of_ending
    (w := (w.visit (.stmt s) ((Site.stmt s).paths loopsBranch)).2) endsPath stack reached
  have advance := (arrive_advances loopsBranch w (.stmt s) false).tally
  omega

theorem follow_tally (c : Chunk) (first : Bool) (shapes : w.shapes = top :: rest)
    (reached : top.returns = false)
    (single : ∀ statements, c = .stmts statements → top.paths = 1) (ends : c.ends) :
    0 < (follow loopsBranch first w c).tally := by
  induction c generalizing w top rest first with
  | simple s simple =>
    rw [follow, followStmt_of_simple simple]
    exact simple_tally loopsBranch shapes reached simple ends
  | ifThen i ih => exact ih first shapes reached (by simp) ends
  | loop s body loops ih => simp [Chunk.ends, loops.ends] at ends
  | tryCatch body handler range tried =>
    have opened := open_shapes loopsBranch w (.stmt (.tryCatch body handler range)) rfl rfl false
    have positive := tried false opened rfl (by simp) (Bool.and_eq_true_iff.1 ends).1
    exact close_counted (follow_counted loopsBranch (.handler handler) false positive)
  | cons s others here behind =>
    cases ending : s.ends with
    | true =>
      exact follow_counted loopsBranch (.stmts others) first (here first shapes reached (by simp) ending)
    | false =>
      have once := single _ rfl
      obtain ⟨paths, walked, -, stillSingle⟩ :=
        follow_shapes loopsBranch (.stmt s) first shapes fun _ => once
      have stillReached : (top.returns || s.ends) = false := by simp [reached, ending]
      simp only [Chunk.ends, Stmt.endsAny, ending, Bool.false_or] at ends
      exact behind first walked stillReached (fun _ _ => stillSingle stillReached) ends
  | block around s others range ih =>
    have opened := open_shapes loopsBranch w (.block ⟨s :: others, range⟩) rfl rfl first
    exact close_counted (ih first opened rfl (fun _ _ => rfl) ends)
  | branch around condition onTrue onFalse range inline taken =>
    have opened := open_shapes loopsBranch w
      (.stmt (.ifThen ⟨condition, onTrue, onFalse, range, inline⟩)) rfl rfl false
    have positive := taken true opened rfl (by simp) (Bool.and_eq_true_iff.1 ends).1
    rw [follow, followIf, ← follow_chunk]
    exact close_counted (follow_counted loopsBranch onFalse.chunk false positive)
  | handler caught body range ih =>
    have opened := open_shapes loopsBranch w (.handler ⟨caught, body, range⟩) rfl rfl false
    exact close_counted (ih false opened rfl (by simp) ends)
  | _ => cases ends

theorem rule_of_mem_returnFindings {f : Func} {last : Frame} {returns : List ReturnSeen}
    {throws : Nat} {finding : Finding} (member : finding ∈ returnFindings f last returns throws) :
    finding.issue.code.rule = .consistentReturn := by
  unfold returnFindings at member
  split at member
  · obtain ⟨r, -, rfl⟩ := mem_map.1 member
    rfl
  · split at member
    · rcases mem_append.1 member with missing | valueless
      · split at missing
        · rw [mem_singleton.1 missing]
          rfl
        · cases missing
      · split at valueless
        · cases valueless
        · obtain ⟨r, -, rfl⟩ := mem_map.1 valueless
          rfl
    · cases member

end Walk

/-! ## The end of a function -/

namespace Func

/-- A walk that has opened the body of a function and visited nothing in it yet. -/
def openBody (f : Func) : Walk :=
  let (frame, w) := (Walk.ofFunc f).visit (.block f.body) 1
  w.openFrame frame false

/-- The walk over the body of a function, while its outermost frame is still open. -/
def bodyWalk (f : Func) (loopsBranch : Bool) : Walk :=
  Walk.followStmts loopsBranch f.openBody f.body.statements

/-- The moves that a function has made when its walk is at `w`, and those that are ahead. -/
def Run (f : Func) (loopsBranch : Bool) : List Move → Walk → List Move → Prop :=
  Walk.Moves loopsBranch f.openBody ((Chunk.stmts f.body.statements).moves false)

def Reaches (f : Func) (loopsBranch : Bool) (w : Walk) : Prop :=
  ∃ made ahead, f.Run loopsBranch made w ahead

variable (f : Func) (loopsBranch : Bool)

theorem exists_run : ∃ made, f.Run loopsBranch made (f.bodyWalk loopsBranch) [] :=
  Walk.exists_moves loopsBranch f.openBody (.stmts f.body.statements) false

theorem reaches_bodyWalk : f.Reaches loopsBranch (f.bodyWalk loopsBranch) :=
  (f.exists_run loopsBranch).imp fun _ run => ⟨[], run⟩

theorem openBody_shapes : f.openBody.shapes = [⟨.block f.body, 1, false⟩] :=
  rfl

theorem bodyWalk_shapes :
    ∃ paths, (f.bodyWalk loopsBranch).shapes = [⟨.block f.body, paths, f.body.ends⟩] := by
  obtain ⟨paths, walked, _⟩ := Walk.follow_shapes loopsBranch (.stmts f.body.statements)
    false f.openBody_shapes fun _ => rfl
  rw [Block.ends_eq]
  exact ⟨paths, walked⟩

theorem bodyWalk_tally (ends : f.body.ends) : 0 < (f.bodyWalk loopsBranch).tally := by
  rw [Block.ends_eq] at ends
  exact Walk.follow_tally loopsBranch (.stmts f.body.statements) false f.openBody_shapes rfl
    (fun _ _ => rfl) ends

theorem bodyWalk_findings :
    ∀ finding ∈ (f.bodyWalk loopsBranch).findings, Walk.Midway finding.issue := by
  refine Walk.follow_keeps (P := fun w => ∀ finding ∈ w.findings, Walk.Midway finding.issue)
    (fun w m each => ?_) (.stmts f.body.statements) false nofun
  obtain ⟨new, findings, issues⟩ := (Walk.run_advances loopsBranch w m).findings
  exact findings ▸ forall_mem_append.2 ⟨each, issues⟩

/-- When a function closes, only its outermost frame is open. -/
theorem flow_eq : ∃ last, (f.bodyWalk loopsBranch).stack = [last] ∧ last.returns = f.body.ends ∧
      f.flow loopsBranch = { f.bodyWalk loopsBranch with
        stack := []
        findings := (f.bodyWalk loopsBranch).findings ++
          Walk.returnFindings f last (f.bodyWalk loopsBranch).returns
            (f.bodyWalk loopsBranch).throws ++
          Walk.unusedFindings last.locals.values
        closings := (f.bodyWalk loopsBranch).closings ++ [⟨last, none⟩] } := by
  obtain ⟨paths, shapes⟩ := f.bodyWalk_shapes loopsBranch
  obtain ⟨last, rest, stack, shape, nothing⟩ := map_eq_cons_iff.1 shapes
  obtain rfl := map_eq_nil_iff.1 nothing
  have returns : last.returns = f.body.ends := congrArg FrameShape.returns shape
  have closed : f.flow loopsBranch = (f.bodyWalk loopsBranch).closeFunction f := rfl
  refine ⟨last, stack, returns, ?_⟩
  rw [closed, Walk.closeFunction]
  simp only [stack]

theorem mem_returnFindings (last : Frame) (returns : List ReturnSeen) (throws : Nat)
    (valued : f.isVoid = false) (required : Walk.requiresValue f returns) :
    (∃ finding ∈ Walk.returnFindings f last returns throws, finding.issue = .missingReturnPath) ↔
      last.returns = false ∨ returns.length + throws = 0 := by
  have otherIssue : ∀ finding ∈ (returns.filter (!·.hasValue)).map fun r =>
      (⟨.missingReturnValue f.kind, r.range⟩ : Finding), finding.issue ≠ .missingReturnPath := by
    intro finding member
    obtain ⟨r, _, rfl⟩ := mem_map.1 member
    simp
  unfold Walk.returnFindings
  rw [if_neg (by simp [valued]), if_pos required]
  constructor
  · rintro ⟨finding, member, issue⟩
    rcases mem_append.1 member with missing | other
    · split at missing
      · next noReturn => simpa using noReturn
      · cases missing
    · split at other
      · cases other
      · exact absurd issue (otherIssue finding other)
  · intro noReturn
    refine ⟨⟨.missingReturnPath, f.signature⟩, mem_append_left _ ?_, rfl⟩
    rw [if_pos (by simpa using noReturn)]
    exact mem_singleton_self _

/-- A missing return is reported exactly if the body does not end. -/
theorem mem_flow_findings_missingReturnPath (valued : f.isVoid = false)
    (required : Walk.requiresValue f (f.flow loopsBranch).returns) :
    (∃ finding ∈ (f.flow loopsBranch).findings, finding.issue = .missingReturnPath) ↔
      f.body.ends = false := by
  obtain ⟨last, -, returns, closed⟩ := f.flow_eq loopsBranch
  rw [closed] at required ⊢
  have returned := f.mem_returnFindings last _ (f.bodyWalk loopsBranch).throws valued required
  constructor
  · rintro ⟨finding, member, issue⟩
    rcases mem_append.1 member with early | unused
    · rcases mem_append.1 early with walked | late
      · exact absurd issue (f.bodyWalk_findings loopsBranch finding walked).1
      · rcases returned.1 ⟨finding, late, issue⟩ with open_ | uncounted
        · exact returns ▸ open_
        · cases ends : f.body.ends with
          | false => rfl
          | true => exact absurd uncounted (Nat.ne_of_gt (f.bodyWalk_tally loopsBranch ends))
    · obtain ⟨name, other⟩ := Walk.unusedFindings_issue _ finding unused
      simp [other] at issue
  · intro ends
    obtain ⟨finding, member, issue⟩ := returned.2 (.inl (returns.trans ends))
    exact ⟨finding, mem_append_left _ (mem_append_right _ member), issue⟩

/-- The outermost frame of a function returns exactly if no path falls off the end of the body. If
its returns have to carry a value, a missing return is reported exactly if some path does. -/
theorem flow_returns_iff (f : Func) (loopsBranch : Bool) (inLoops : f.body.strays = false) :
    ∃ last, (f.flow loopsBranch).closings.getLast? = some ⟨last, none⟩ ∧
      (last.returns ↔ ¬ ∃ t, f.body.Runs t .done) ∧
      (f.isVoid = false → Walk.requiresValue f (f.flow loopsBranch).returns →
        ((∃ finding ∈ (f.flow loopsBranch).findings, finding.issue = .missingReturnPath) ↔
          ∃ t, f.body.Runs t .done)) := by
  obtain ⟨last, -, returns, closed⟩ := f.flow_eq loopsBranch
  have endsIff := f.body.ends_iff inLoops
  refine ⟨last, by simp [closed], returns ▸ endsIff, fun valued required => ?_⟩
  rw [f.mem_flow_findings_missingReturnPath loopsBranch valued required, ← Bool.not_eq_true, endsIff,
    Classical.not_not]

/-- A `try` whose body always leaves, and whose handler returns only inside a loop. -/
def returningInLoop : Func where
  keyword := "function"
  params := [⟨⟨"c", .empty⟩, none, none⟩]
  body :=
    let flag := Expr.var ⟨"c", .empty⟩ false
    let giveBack := Block.mk [.ret (some flag) .empty] .empty
    let giveUp := Block.mk [.throw flag .empty] .empty
    let loop := Block.mk [.whileDo flag giveBack .empty] .empty
    let choose := Block.mk [.ifThen ⟨flag, giveBack, .block giveUp, .empty, false⟩] .empty
    ⟨[.tryCatch choose ⟨some ⟨"e", .empty⟩, loop, .empty⟩ .empty], .empty⟩
  range := .empty
  signature := .empty
  returnType := none
  name := none
  isMethod := false
  nspace := none

theorem flow_returns_iff_returningInLoop :
    returningInLoop.body.strays = false ∧ returningInLoop.isVoid = false ∧
      Walk.requiresValue returningInLoop (returningInLoop.flow true).returns ∧
      ((∃ finding ∈ (returningInLoop.flow true).findings, finding.issue = .missingReturnPath) ↔
        ∃ t, returningInLoop.body.Runs t .done) := by
  have required : Walk.requiresValue returningInLoop (returningInLoop.flow true).returns := by
    decide +kernel
  obtain ⟨_, _, _, reported⟩ := flow_returns_iff returningInLoop true rfl
  exact ⟨rfl, rfl, required, reported rfl required⟩

end Func

end ChannelLint
