import ChannelLint.Proofs.Ending

/-!
# Every statement once

A walk visits a body the way a stack of pending statements does: each visit is followed by the
visits to what stands right inside it. It knows the statement around each visit, opens and closes
what has something inside once, and reads every expression once.
-/
namespace ChannelLint

open List

/-- The visits that are done, and those that are ahead, when the sites right inside a visited one are
put in front of the others. A visit knows the number of the one it was found in. -/
inductive Traversal (root : Site) : List Visit → List Visit → Prop
  | root : Traversal root [⟨root, none⟩] (root.children.map (⟨·, some 0⟩))
  | step {done ahead : List Visit} {v : Visit} : Traversal root done (v :: ahead) →
      Traversal root (done ++ [v]) (v.site.children.map (⟨·, some done.length⟩) ++ ahead)

/-- The visit stands right inside one that has a smaller number. -/
def Visit.Inside (visits : List Visit) (number : Nat) (v : Visit) : Prop :=
  ∃ u p, (u, p) ∈ visits.zipIdx ∧ p < number ∧ v.parent = some p ∧ v.site ∈ u.site.children

/-- The visits to what has something inside, and the one to the body, with their numbers. -/
def openers (visits : List Visit) : List (Visit × Nat) :=
  visits.zipIdx.filter fun (v, number) => number = 0 || !v.site.children.isEmpty

def Frame.tag (frame : Frame) : Visit × Nat :=
  (⟨frame.site, frame.parent⟩, frame.index)

def Site.exprs : Site → List Expr
  | .stmt s => s.exprs
  | _ => []

section

variable {root : Site} {done ahead visits : List Visit} {number : Nat} {v : Visit}

theorem zipIdx_concat (visits : List Visit) (v : Visit) :
    (visits ++ [v]).zipIdx = visits.zipIdx ++ [(v, visits.length)] := by
  simp [zipIdx_append]

theorem Visit.Inside.grow {later : Nat} (inside : v.Inside visits number) (next : Visit)
    (le : number ≤ later) : v.Inside (visits ++ [next]) later := by
  obtain ⟨u, p, numbered, before, child⟩ := inside
  rw [Visit.Inside, zipIdx_concat]
  exact ⟨u, p, mem_append_left _ numbered, Nat.lt_of_lt_of_le before le, child⟩

theorem Traversal.inside (t : Traversal root done ahead) :
    (∀ v ∈ ahead, v.Inside done done.length) ∧
      ∀ v i, (v, i) ∈ done.zipIdx → (v = ⟨root, none⟩ ∧ i = 0) ∨ v.Inside done i := by
  induction t with
  | root =>
    refine ⟨fun v member => ?_, fun v i found => .inl (Prod.mk.inj (mem_singleton.1 found))⟩
    obtain ⟨child, inside, rfl⟩ := mem_map.1 member
    exact ⟨_, 0, mem_singleton_self _, Nat.zero_lt_one, rfl, inside⟩
  | @step done ahead v _ ih =>
    obtain ⟨here, others⟩ := forall_mem_cons.1 ih.1
    refine ⟨fun u member => ?_, fun u i found => ?_⟩
    · rcases mem_append.1 member with inside | later
      · obtain ⟨child, isChild, rfl⟩ := mem_map.1 inside
        exact ⟨v, done.length, by simp [zipIdx_concat], by simp, rfl, isChild⟩
      · exact (others u later).grow v (by simp)
    · rw [zipIdx_concat] at found
      rcases mem_append.1 found with old | new
      · exact (ih.2 u i old).imp_right (·.grow v (Nat.le_refl i))
      · obtain ⟨rfl, rfl⟩ := Prod.mk.inj (mem_singleton.1 new)
        exact .inr (here.grow _ (Nat.le_refl _))

theorem Traversal.length_pos (t : Traversal root done ahead) : 0 < done.length := by
  cases t <;> simp

theorem openers_concat (visits : List Visit) (v : Visit) :
    openers (visits ++ [v]) = openers visits ++
      if visits.length = 0 || !v.site.children.isEmpty then [(v, visits.length)] else [] := by
  simp [openers, zipIdx_concat, filter_cons]

end

/-- What is open, innermost first, what was visited, and what was closed. -/
structure Arena where
  opened : List (Visit × Nat)
  visits : List Visit
  closed : List (Visit × Nat)

def Walk.arena (w : Walk) : Arena :=
  ⟨w.stack.map Frame.tag, w.visits, w.closings.map (·.closed.tag)⟩

namespace Arena

/-- The visit to a site that is next. -/
def visitAt (a : Arena) (site : Site) : Visit :=
  ⟨site, a.opened.head?.map (·.2)⟩

def visit (a : Arena) (site : Site) : Arena :=
  { a with visits := a.visits ++ [a.visitAt site] }

def push (a : Arena) (tag : Visit × Nat) : Arena :=
  { a with opened := tag :: a.opened }

def pop (a : Arena) : Arena :=
  ⟨a.opened.tail, a.visits, a.closed ++ a.opened.head?.toList⟩

/-- A move as a step of a stack machine. What has something inside is pushed with its number. -/
def after (a : Arena) : Move → Arena
  | .arrive site _ =>
    if site.children.isEmpty then a.visit site
    else (a.visit site).push (a.visitAt site, a.visits.length)
  | .readMore _ => a
  | .close => a.pop

end Arena

namespace Walk

theorem ReadEffect.arena {before after : Frame × Walk} (effect : ReadEffect before after) :
    after.2.arena = before.2.arena := by
  have tags : ∀ w : Walk, w.stack.map Frame.tag = w.cores.map Frame.tag := fun w => by
    simp [Walk.cores, Function.comp_def, Frame.tag, Frame.core]
  simp [Walk.arena, tags, effect.cores, effect.visits, effect.closings]

theorem markReturning_arena (w : Walk) : w.markReturning.arena = w.arena := by
  unfold markReturning modifyTop
  split
  · rfl
  · next top rest stack =>
    simp only [arena, stack, map_cons]
    split <;> rfl

theorem noteReturn_arena (w : Walk) (site : Site) : (w.noteReturn site).arena = w.arena := by
  unfold noteReturn
  split
  · rfl
  · split
    · exact markReturning_arena _
    · exact markReturning_arena _
    · rfl

theorem jump_arena (w : Walk) (label : Ident) : (w.jump label).arena = w.arena := by
  unfold jump
  split
  · rfl
  · simp [arena, Function.comp_def, Frame.tag]

theorem visitAt_arena (w : Walk) (site : Site) :
    w.arena.visitAt site = ⟨site, w.stack.head?.map (·.index)⟩ := by
  simp [arena, Arena.visitAt, Function.comp_def, Frame.tag]

theorem visitSite_arena (loopsBranch : Bool) (w : Walk) (site : Site) :
    (w.visitSite loopsBranch site).2.arena = w.arena.visit site := by
  have noted : ((w.visit site (site.paths loopsBranch)).2.noteReturn site).arena =
      w.arena.visit site := by
    rw [noteReturn_arena, Arena.visit, visitAt_arena]
    rfl
  unfold visitSite noteJump
  dsimp only
  split
  · exact noted
  · exact (jump_arena _ _).trans noted
  · exact noted

theorem openFrame_arena (w : Walk) (frame : Frame) (first : Bool) :
    (w.openFrame frame first).arena = w.arena.push frame.tag := by
  obtain ⟨narrowings, effect⟩ := prepare_effect w frame first
  obtain ⟨locals, prepared⟩ := effect.frame
  simp only [openFrame, arena, map_cons, effect.stack, effect.visits, effect.closings, prepared]
  rfl

theorem bindTop_arena (w : Walk) (name : Ident) (role : Role) :
    (w.bindTop name role).arena = w.arena := by
  unfold bindTop
  split
  · rfl
  · next top rest stack =>
    have effect := bind_effect w top name role none
    obtain ⟨locals, bound⟩ := effect.frame
    simp only [arena, map_cons, bound, stack, effect.visits, effect.closings]
    rfl

theorem readMore_arena (w : Walk) (exprs : List Expr) : (w.readMore exprs).arena = w.arena := by
  unfold readMore
  split
  · rfl
  · exact (readExprs_effect exprs _).arena

theorem arrive_arena (loopsBranch : Bool) (w : Walk) (site : Site) (first : Bool) :
    (w.arrive loopsBranch site first).arena = w.arena.after (.arrive site first) := by
  have effect := readExprs_effect site.front (w.visitSite loopsBranch site)
  have read := effect.arena.trans (visitSite_arena loopsBranch w site)
  unfold arrive settle Arena.after
  dsimp only
  split
  · next binds => rw [if_pos (Site.children_of_binds binds), bindTop_arena, read]
  · split
    · exact read
    · obtain ⟨added, frame⟩ := effect.frame
      rw [openFrame_arena, frame, read, visitAt_arena]
      rfl

theorem close_arena {w : Walk} {closed parent : Frame} {rest : List Frame}
    (stack : w.stack = closed :: parent :: rest) : w.close.arena = w.arena.pop := by
  obtain ⟨locals, closedStack, -⟩ := close_eq stack
  have tag : (settlePaths closed parent).tag = parent.tag := by
    unfold settlePaths
    split
    · split <;> rfl
    · split <;> rfl
  have visits : w.close.visits = w.visits := by
    unfold close closeVariables modifyTop
    rw [stack]
  have closings : w.close.closings.map (·.closed.tag) =
      w.closings.map (·.closed.tag) ++ [closed.tag] := by
    unfold close closeVariables modifyTop
    simp [stack]
  simp only [arena, Arena.pop, visits, closings, closedStack, stack, map_cons, ← tag]
  rfl

end Walk

/-! ## The nodes that are visited -/

/-- The nodes of some expressions, each with the one around it. -/
def nodesOf (exprs : List Expr) : List (Expr × Option Expr) :=
  exprs.flatMap (·.preorder none)

/-- Visits one expression and adds it to the log. -/
def Walk.readLogged (state : (Frame × Walk) × List (Expr × Option Expr))
    (node : Expr × Option Expr) : (Frame × Walk) × List (Expr × Option Expr) :=
  (readNode state.1 node, state.2 ++ [node])

theorem Walk.readLogged_nodes (nodes log : List (Expr × Option Expr)) (state : Frame × Walk) :
    nodes.foldl readLogged (state, log) = (nodes.foldl readNode state, log ++ nodes) := by
  induction nodes generalizing state log with
  | nil => rw [append_nil]; rfl
  | cons node nodes ih => exact (ih _ _).trans (by rw [append_assoc]; rfl)

theorem Walk.readLogged_exprs (exprs : List Expr) (log : List (Expr × Option Expr))
    (state : Frame × Walk) : (nodesOf exprs).foldl readLogged (state, log) =
      (exprs.foldl readExpr state, log ++ nodesOf exprs) := by
  rw [readLogged_nodes, nodesOf, foldl_flatMap]
  rfl

/-! ## Runs -/

namespace Move

/-- A move that keeps a log of the nodes it visits. -/
def runLogged (loopsBranch : Bool) (state : Walk × List (Expr × Option Expr)) :
    Move → Walk × List (Expr × Option Expr)
  | arrive site first =>
    let (read, log) :=
      (nodesOf site.front).foldl Walk.readLogged (state.1.visitSite loopsBranch site, state.2)
    (Walk.settle site first read, log)
  | readMore exprs =>
    match state.1.stack with
    | [] => state
    | top :: _ =>
      let (read, log) := (nodesOf exprs).foldl Walk.readLogged ((top, state.1), state.2)
      (read.2, log)
  | close => (state.1.close, state.2)

/-- The expressions that a move reads. -/
def reads : Move → List Expr
  | arrive site _ => site.front
  | readMore exprs => exprs
  | close => []

theorem runLogged_eq (loopsBranch : Bool) (m : Move) {w : Walk} (opened : w.stack ≠ [])
    (log : List (Expr × Option Expr)) :
    m.runLogged loopsBranch (w, log) = (m.run loopsBranch w, log ++ nodesOf m.reads) := by
  cases m with
  | arrive site first =>
    simp only [runLogged, Walk.readLogged_exprs]
    rfl
  | readMore exprs =>
    match stack : w.stack with
    | [] => exact absurd stack opened
    | top :: _ => simp only [runLogged, stack, Walk.readLogged_exprs, run, Walk.readMore, reads]
  | close => simp [runLogged, run, reads, nodesOf]

/-- The expressions that are left for later when a site opens. -/
def late : Move → List Expr
  | readMore exprs => exprs
  | _ => []

def isClose : Move → Bool
  | close => true
  | _ => false

/-- The visits that are ahead. -/
def pending : List (Visit × Nat) → List Move → List Visit
  | _, [] => []
  | opened, arrive site _ :: ahead => ⟨site, opened.head?.map (·.2)⟩ :: pending opened ahead
  | opened, readMore _ :: ahead => pending opened ahead
  | opened, close :: ahead => pending opened.tail ahead

theorem pending_arrives (opened : List (Visit × Nat)) (sites : List Site) (ahead : List Move) :
    pending opened (sites.map (arrive · false) ++ ahead) =
      sites.map (⟨·, opened.head?.map (·.2)⟩) ++ pending opened ahead := by
  induction sites with
  | nil => rfl
  | cons site rest ih => exact congrArg (_ :: ·) ih

theorem arrives_plain (sites : List Site) : (sites.map (arrive · false)).countP isClose = 0 ∧
    (sites.map (arrive · false)).flatMap late = [] := by
  simp [countP_map, Function.comp_def, isClose, flatMap_map, late]

/-- Inside an open site its parts are visited in order, and the rest of its expressions is read. -/
theorem inside_spec (site : Site) (tag : Visit × Nat) (opened : List (Visit × Nat))
    (ahead : List Move) : pending (tag :: opened) (inside site ++ close :: ahead) =
        site.children.map (⟨·, some tag.2⟩) ++ pending opened ahead ∧
      (inside site).countP isClose = 0 ∧ site.front ++ (inside site).flatMap late = site.exprs := by
  unfold inside
  split
  · simp [pending, pending_arrives, arrives_plain, Site.children, Site.front, Site.exprs, late,
      isClose]
  · simp [pending, Site.children, Site.front, Site.exprs, Stmt.exprs, late, isClose]
  · next notIf notFor =>
    obtain ⟨closes, nothing⟩ := arrives_plain site.children
    rw [pending_arrives, closes, nothing, append_nil]
    refine ⟨rfl, rfl, ?_⟩
    unfold Site.front
    split
    · exact absurd rfl (notFor _ _ _ _ _)
    · rfl
    · next other => cases site <;> first | rfl | exact absurd rfl (other _)

end Move

/-- What a run has visited, opened, closed and read, beside what is ahead of it. -/
structure Charted (f : Func) (made : List Move) (a : Arena) (ahead : List Move) : Prop where
  traversal : Traversal (.block f.body) a.visits (Move.pending a.opened ahead)
  tags : (a.opened ++ a.closed).Perm (openers a.visits)
  balanced : a.opened.length = ahead.countP Move.isClose + 1
  reads : (made.flatMap Move.reads ++ ahead.flatMap Move.late).Perm (a.visits.flatMap (·.site.exprs))

/-- Something is added behind one part of a list. -/
theorem perm_add {α : Type} {front back all : List α} (same : (front ++ back).Perm all)
    (new : List α) : (front ++ (new ++ back)).Perm (all ++ new) := by
  have moved : (front ++ (new ++ back)).Perm (front ++ (back ++ new)) :=
    perm_append_comm.append_left front
  rw [← append_assoc front back] at moved
  exact moved.trans (same.append_right new)

namespace Charted

variable {f : Func} {made ahead : List Move} {a : Arena}

theorem arrive {site : Site} {first : Bool}
    (charted : Charted f made a (.arrive site first :: ahead)) :
    Charted f (made ++ [.arrive site first]) (a.after (.arrive site first))
      ((Move.arrive site first).next ahead) := by
  obtain ⟨traversal, tags, balanced, reads⟩ := charted
  obtain ⟨pending, closes, exprs⟩ :=
    Move.inside_spec site (a.visitAt site, a.visits.length) a.opened ahead
  have started : a.visits.length ≠ 0 := Nat.ne_of_gt traversal.length_pos
  have stepped : Traversal (.block f.body) (a.visit site).visits
    (site.children.map (⟨·, some a.visits.length⟩) ++ Move.pending a.opened ahead) := traversal.step
  have added : (made.flatMap Move.reads ++ (site.exprs ++ ahead.flatMap Move.late)).Perm
      ((a.visit site).visits.flatMap (·.site.exprs)) := by
    simpa [Move.late, Arena.visit, Arena.visitAt] using perm_add reads site.exprs
  rw [← exprs] at added
  cases leaf : site.children.isEmpty with
  | true =>
    have childless := isEmpty_iff.1 leaf
    have nothing : Move.inside site = [] := by
      unfold Move.inside
      split <;> simp_all [Site.children]
    rw [childless] at stepped
    simp only [Move.next, Arena.after, leaf, if_true]
    refine ⟨stepped, ?_, balanced, by simpa [nothing, Move.reads] using added⟩
    rw [Arena.visit, openers_concat]
    simpa [started, Arena.visitAt, childless] using tags
  | false =>
    simp only [Move.next, Arena.after, leaf, Bool.false_eq_true, if_false]
    refine ⟨pending ▸ stepped, ?_, ?_, by simpa [Arena.push, Move.reads, Move.late] using added⟩
    · rw [Arena.visit, Arena.push, openers_concat]
      simpa [started, Arena.visitAt, leaf] using
        (tags.cons _).trans (perm_append_singleton _ _).symm
    · simpa [Arena.push, Arena.visit, closes, countP_cons, Move.isClose] using balanced

theorem readMore {exprs : List Expr} (charted : Charted f made a (.readMore exprs :: ahead)) :
    Charted f (made ++ [.readMore exprs]) a ahead :=
  ⟨charted.traversal, charted.tags, charted.balanced, by
    simpa [Move.reads, Move.late] using charted.reads⟩

theorem close (charted : Charted f made a (.close :: ahead)) :
    Charted f (made ++ [.close]) a.pop ahead := by
  obtain ⟨traversal, tags, balanced, reads⟩ := charted
  obtain ⟨opened, visits, closed⟩ := a
  cases opened with
  | nil => simp at balanced
  | cons top around =>
    refine ⟨traversal, List.Perm.trans ?_ tags, ?_, ?_⟩
    · rw [Arena.pop, ← append_assoc]
      exact perm_append_singleton _ _
    · simpa [Arena.pop, countP_cons, Move.isClose] using balanced
    · simpa [Arena.pop, Move.reads, Move.late] using reads

end Charted

namespace Func

variable {f : Func} {loopsBranch : Bool} {made ahead : List Move} {w : Walk} {m : Move}

theorem openBody_charted (f : Func) :
    Charted f [] f.openBody.arena ((Chunk.stmts f.body.statements).moves false) := by
  obtain ⟨closes, nothing⟩ := Move.arrives_plain (f.body.statements.map .stmt)
  have start := Move.pending_arrives [(⟨.block f.body, none⟩, 0)] (f.body.statements.map .stmt) []
  rw [append_nil, Move.pending, append_nil] at start
  refine ⟨?_, .refl _, congrArg (· + 1) closes.symm, nothing ▸ .refl _⟩
  exact (congrArg (Traversal (.block f.body) [⟨.block f.body, none⟩]) start).mpr .root

/-- Every move of a function acts on its arena as on a stack. -/
theorem run_arena (charted : Charted f made w.arena (m :: ahead)) :
    (m.run loopsBranch w).arena = w.arena.after m := by
  cases m with
  | arrive site first => exact w.arrive_arena loopsBranch site first
  | readMore exprs => exact w.readMore_arena exprs
  | close =>
    have balanced : w.stack.length = (Move.close :: ahead).countP Move.isClose + 1 := by
      simpa [Walk.arena] using charted.balanced
    rw [countP_cons] at balanced
    match stack : w.stack with
    | [] => simp [stack] at balanced
    | [last] => simp [stack, Move.isClose] at balanced
    | closed :: parent :: rest => exact Walk.close_arena stack

theorem Run.charted (run : f.Run loopsBranch made w ahead) : Charted f made w.arena ahead := by
  induction run with
  | nil => exact f.openBody_charted
  | @snoc made ahead w m _ ih =>
    rw [run_arena ih]
    cases m with
    | arrive site first => exact ih.arrive
    | readMore exprs => exact ih.readMore
    | close => exact ih.close

/-- Moves that keep a log go the same way, and log the nodes of what was read. -/
theorem Run.logged (run : f.Run loopsBranch made w ahead) :
    made.foldl (Move.runLogged loopsBranch) (f.openBody, []) =
      (w, nodesOf (made.flatMap Move.reads)) := by
  induction run with
  | nil => rfl
  | @snoc made ahead w m run ih =>
    have opened : w.stack ≠ [] := by
      intro empty
      simpa [Walk.arena, empty] using (Run.charted run).balanced
    rw [foldl_append, ih]
    refine (m.runLogged_eq loopsBranch opened _).trans ?_
    simp [nodesOf]

/-- A walk visits every statement of the body once, in the order of a traversal, with the number of
the statement around it. What has something inside was opened and closed once, and each move acts on
what is open as on a stack. With a log of the nodes that the moves visit, they are those of the
statements that were visited. -/
theorem flow_visits_each_once (f : Func) (loopsBranch : Bool) : (f.flow loopsBranch).stack = [] ∧
    Traversal (.block f.body) (f.flow loopsBranch).visits [] ∧
    (∀ v number, (v, number) ∈ (f.flow loopsBranch).visits.zipIdx →
      (v = ⟨.block f.body, none⟩ ∧ number = 0) ∨ v.Inside (f.flow loopsBranch).visits number) ∧
    (f.flow loopsBranch).arena.closed.Perm (openers (f.flow loopsBranch).visits) ∧
    (∀ made w m ahead, f.Run loopsBranch made w (m :: ahead) →
      (m.run loopsBranch w).arena = w.arena.after m) ∧
    ∃ made log, f.Run loopsBranch made (f.bodyWalk loopsBranch) [] ∧
      made.foldl (Move.runLogged loopsBranch) (f.openBody, []) = (f.bodyWalk loopsBranch, log) ∧
      log.Perm (nodesOf ((f.flow loopsBranch).visits.flatMap (·.site.exprs))) := by
  obtain ⟨made, run⟩ := f.exists_run loopsBranch
  obtain ⟨last, stack, -, flow⟩ := f.flow_eq loopsBranch
  obtain ⟨traversal, tags, -, reads⟩ := run.charted
  rw [Move.pending] at traversal
  rw [flow]
  refine ⟨rfl, traversal, traversal.inside.2, List.Perm.trans ?_ tags,
    fun _ _ _ _ run => run_arena run.charted, made, _, run, run.logged, ?_⟩
  · simp only [Walk.arena, stack, map_append]
    exact perm_append_singleton _ _
  · rw [flatMap_nil, append_nil] at reads
    exact reads.flatMap_right _

end Func

end ChannelLint
