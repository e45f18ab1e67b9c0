import ChannelLint.Proofs.Chunk
import ChannelLint.Proofs.Step

/-!
# A walk, move by move

A walk over a body is a run of moves. Most of them arrive at a site: it is visited, the expressions
in front of its parts are read, and it binds a name or opens. A `for` reads its limit behind its
counter, and a site that was opened closes behind its last part. What every move keeps, the walk
over a part of a body keeps (`Walk.follow_keeps`).
-/
namespace ChannelLint

def Else.site? : Else → Option Site
  | .absent => none
  | .block body => some (.block body)
  | .elseIf branch => some (.stmt (.ifThen branch))

namespace Site

/-- The sites right inside a site, in order. -/
def children : Site → List Site
  | block b => b.statements.map stmt
  | handler c => [block c.body]
  | stmt (.ifThen i) => block i.onTrue :: i.onFalse.site?.toList
  | stmt (.forTo counter _ _ body _) => [stmt (.assign counter), block body]
  | stmt (.forEach _ _ body _) | stmt (.whileDo _ body _) => [block body]
  | stmt (.tryCatch body c _) => [block body, handler c]
  | stmt _ => []

/-- The expressions that are read before a site binds a name or opens. -/
def front : Site → List Expr
  | stmt (.forTo ..) => []
  | stmt s => s.exprs
  | _ => []

def binds? : Site → Option Ident
  | stmt (.assign a) => some a.name
  | stmt (.dim name ..) => some name
  | _ => none

end Site

/-- A step of a walk. -/
inductive Move where
  /-- `first` is set for the first branch of an `if`. -/
  | arrive (site : Site) (first : Bool)
  | readMore (exprs : List Expr)
  | close

namespace Walk

def noteJump (w : Walk) : Site → Walk
  | .stmt (.label name _) => w.noteLabel name
  | .stmt (.goto label _) => w.jump label
  | _ => w

/-- Visits a site and notes what it is. -/
def visitSite (loopsBranch : Bool) (w : Walk) (site : Site) : Frame × Walk :=
  let (frame, w) := w.visit site (site.paths loopsBranch)
  (frame, (w.noteReturn site).noteJump site)

/-- The role of a name that a site binds: the counter of a loop is an iterator. -/
def roleAt (w : Walk) : Site → Role
  | .stmt (.assign _) =>
    if (w.stack.head?.map (·.site.isFor)).getD false then .iterator else .plain
  | _ => .plain

/-- Behind the first expressions of a site: it binds a name or opens. -/
def settle (site : Site) (first : Bool) (state : Frame × Walk) : Walk :=
  match site.binds? with
  | some name => state.2.bindTop name (state.2.roleAt site)
  | none => if site.children.isEmpty then state.2 else state.2.openFrame state.1 first

/-- Visits a site and reads its first expressions. -/
def arrive (loopsBranch : Bool) (w : Walk) (site : Site) (first : Bool) : Walk :=
  settle site first (site.front.foldl readExpr (w.visitSite loopsBranch site))

end Walk

namespace Move

def run (loopsBranch : Bool) (w : Walk) : Move → Walk
  | arrive site first => w.arrive loopsBranch site first
  | readMore exprs => w.readMore exprs
  | close => w.close

/-- The moves inside an open site. -/
def inside : Site → List Move
  | .stmt (.ifThen i) =>
    arrive (.block i.onTrue) true :: i.onFalse.site?.toList.map (arrive · false)
  | .stmt (.forTo counter limit stride body _) =>
    [arrive (.stmt (.assign counter)) false, readMore (limit :: stride.toList),
      arrive (.block body) false]
  | site => site.children.map (arrive · false)

/-- What is ahead behind a move. -/
def next (ahead : List Move) : Move → List Move
  | arrive site _ => if site.children.isEmpty then ahead else inside site ++ close :: ahead
  | _ => ahead

end Move

/-- A run from a walk with moves ahead: the moves that were made, the walk, and what is ahead. -/
inductive Walk.Moves (loopsBranch : Bool) (start : Walk) (plan : List Move) :
    List Move → Walk → List Move → Prop
  | nil : Moves loopsBranch start plan [] start plan
  | snoc {made ahead : List Move} {w : Walk} {m : Move} :
      Moves loopsBranch start plan made w (m :: ahead) →
      Moves loopsBranch start plan (made ++ [m]) (m.run loopsBranch w) (m.next ahead)

def Chunk.moves (first : Bool) : Chunk → List Move
  | .stmt s => [.arrive (.stmt s) false]
  | .stmts statements => (statements.map Site.stmt).map (.arrive · false)
  | .block _ b => [.arrive (.block b) first]
  | .branch _ i => [.arrive (.stmt (.ifThen i)) false]
  | .handler c => [.arrive (.handler c) false]
  | .nothing => []

theorem Else.moves_chunk (e : Else) :
    e.chunk.moves false = e.site?.toList.map (.arrive · false) := by
  cases e <;> rfl

namespace Walk

variable {loopsBranch : Bool} {start w : Walk} {plan made ahead : List Move}

theorem followStmt_of_simple {s : Stmt} (simple : s.isSimple) :
    followStmt loopsBranch w s = w.arrive loopsBranch (.stmt s) false := by
  cases s <;> first | rfl | cases simple

/-- Visits a part; `first` matters for a block only. -/
def follow (loopsBranch : Bool) (first : Bool) (w : Walk) : Chunk → Walk
  | .stmt s => followStmt loopsBranch w s
  | .stmts statements => followStmts loopsBranch w statements
  | .block _ b => followBlock loopsBranch w first b
  | .branch _ i => followIf loopsBranch w i
  | .handler c => followCatch loopsBranch w c
  | .nothing => w

@[simp] theorem follow_chunk (loopsBranch : Bool) (w : Walk) (e : Else) :
    follow loopsBranch false w e.chunk = followElse loopsBranch w e := by
  cases e <;> simp only [followElse] <;> rfl

/-- The walk over a part of a body is a run of its moves. -/
theorem Moves.follow (c : Chunk) (first : Bool)
    (moves : Moves loopsBranch start plan made w (c.moves first ++ ahead)) :
    ∃ made', Moves loopsBranch start plan made' (follow loopsBranch first w c) ahead := by
  induction c generalizing w made first ahead with
  | simple s simple => cases s <;> first | exact ⟨_, moves.snoc⟩ | cases simple
  | assign a => exact ⟨_, moves.snoc⟩
  | dim name sizes range => exact ⟨_, moves.snoc⟩
  | ifThen i ih => exact ih first moves
  | loop s body loops ih =>
    cases loops with
    | forTo =>
      obtain ⟨made, walked⟩ := ih false moves.snoc.snoc.snoc
      exact ⟨_, walked.snoc⟩
    | forEach =>
      obtain ⟨made, walked⟩ := ih false moves.snoc
      exact ⟨_, walked.snoc⟩
    | whileDo =>
      obtain ⟨made, walked⟩ := ih false moves.snoc
      exact ⟨_, walked.snoc⟩
  | tryCatch body handler range tried caught =>
    obtain ⟨made, walked⟩ := tried false moves.snoc
    obtain ⟨made, walked⟩ := caught false walked
    exact ⟨_, walked.snoc⟩
  | cons s others here behind =>
    obtain ⟨made, walked⟩ := here false moves
    exact behind false walked
  | empty around range => exact ⟨_, moves.snoc⟩
  | block around s others range ih =>
    obtain ⟨made, walked⟩ := ih false moves.snoc
    exact ⟨_, walked.snoc⟩
  | branch around condition onTrue onFalse range inline taken passed =>
    obtain ⟨made, walked⟩ := taken true moves.snoc
    obtain ⟨made, walked⟩ := passed false (onFalse.moves_chunk ▸ walked)
    rw [follow_chunk] at walked
    exact ⟨_, walked.snoc⟩
  | handler caught body range ih =>
    obtain ⟨made, walked⟩ := ih false moves.snoc
    exact ⟨_, walked.snoc⟩
  | _ => exact ⟨_, moves⟩

theorem exists_moves (loopsBranch : Bool) (w : Walk) (c : Chunk) (first : Bool) :
    ∃ made, Moves loopsBranch w (c.moves first) made (follow loopsBranch first w c) [] := by
  have start : Moves loopsBranch w (c.moves first) [] w (c.moves first ++ []) :=
    (List.append_nil _).symm ▸ .nil
  exact start.follow c first

/-- What every move keeps, a run keeps. -/
theorem Moves.keeps {P : Walk → Prop} (moves : Moves loopsBranch start plan made w ahead)
    (keeps : ∀ w (m : Move), P w → P (m.run loopsBranch w)) (holds : P start) : P w := by
  induction moves with
  | nil => exact holds
  | snoc _ ih => exact keeps _ _ ih

theorem follow_keeps {P : Walk → Prop} (keeps : ∀ w (m : Move), P w → P (m.run loopsBranch w))
    (c : Chunk) (first : Bool) (holds : P w) : P (follow loopsBranch first w c) := by
  obtain ⟨made, moves⟩ := exists_moves loopsBranch w c first
  exact moves.keeps keeps holds

/-! ## Arriving at a site -/

theorem noteJump_advances (w : Walk) (site : Site) : Advances AboutNames w (w.noteJump site) := by
  unfold noteJump
  split
  · exact ⟨Nat.le_refl _, Extends.refl _⟩
  · exact jump_advances _ _
  · exact Advances.refl _

/-- Behind the visit only names matter. -/
theorem arrive_advances (loopsBranch : Bool) (w : Walk) (site : Site) (first : Bool) :
    Advances AboutNames ((w.visit site (site.paths loopsBranch)).2.noteReturn site)
      (w.arrive loopsBranch site first) := by
  have read := (noteJump_advances _ site).trans
    (readExprs_effect site.front (w.visitSite loopsBranch site)).advances
  unfold arrive settle
  split
  · exact read.trans (bindTop_advances _ _ _)
  · split
    · exact read
    · exact read.trans (openFrame_advances _ _ _)

end Walk

end ChannelLint
