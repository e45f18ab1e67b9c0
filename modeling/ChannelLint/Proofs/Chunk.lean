import ChannelLint.Flow.Frame
import Mathlib

/-!
# Parts of a body

A body is made of statements, lists of statements, blocks, branches and handlers, which hold each
other. `Chunk` stands for any of these parts, so that what is true of all of them is said once and
shown by one induction. The induction has one case for the three loops, and an `else` is a block, a
branch or nothing.
-/
namespace ChannelLint

/-- What the frame around a closed one does with its bindings. -/
inductive Around where
  | plain
  | handler
  | branches
  deriving DecidableEq, Repr

/-- A statement that neither binds a name nor holds other statements. -/
def Stmt.isSimple : Stmt → Bool
  | .assign _ | .dim .. | .ifThen _ | .forTo .. | .forEach .. | .whileDo .. | .tryCatch .. => false
  | _ => true

/-- A loop and its body. -/
inductive Stmt.Loops : Stmt → Block → Prop
  | forTo (counter : Assign) (limit : Expr) (stride : Option Expr) (body : Block) (range : Range) :
      Loops (.forTo counter limit stride body range) body
  | forEach (item : Ident) (target : Expr) (body : Block) (range : Range) :
      Loops (.forEach item target body range) body
  | whileDo (condition : Expr) (body : Block) (range : Range) :
      Loops (.whileDo condition body range) body

theorem Stmt.Loops.isLoop {s : Stmt} {body : Block} (loops : s.Loops body) :
    (Site.stmt s).isLoop := by
  cases loops <;> rfl

/-- A part of a body. Blocks and branches know what stands around them. -/
inductive Chunk where
  | stmt (s : Stmt)
  | stmts (statements : List Stmt)
  | block (around : Around) (b : Block)
  | branch (around : Around) (i : If)
  | handler (c : Catch)
  | nothing

def Else.chunk : Else → Chunk
  | .absent => .nothing
  | .block body => .block .branches body
  | .elseIf branch => .branch .branches branch

section

variable {motive : Chunk → Prop}
  (simple : ∀ s, s.isSimple → motive (.stmt s))
  (assign : ∀ a, motive (.stmt (.assign a)))
  (dim : ∀ name sizes range, motive (.stmt (.dim name sizes range)))
  (ifThen : ∀ i, motive (.branch .plain i) → motive (.stmt (.ifThen i)))
  (loop : ∀ s body, s.Loops body → motive (.block .plain body) → motive (.stmt s))
  (tryCatch : ∀ body handler range, motive (.block .branches body) → motive (.handler handler) →
    motive (.stmt (.tryCatch body handler range)))
  (nil : motive (.stmts []))
  (cons : ∀ s others, motive (.stmt s) → motive (.stmts others) → motive (.stmts (s :: others)))
  (empty : ∀ around range, motive (.block around ⟨[], range⟩))
  (block : ∀ around s others range, motive (.stmts (s :: others)) →
    motive (.block around ⟨s :: others, range⟩))
  (branch : ∀ around condition onTrue onFalse range inline, motive (.block .branches onTrue) →
    motive onFalse.chunk → motive (.branch around ⟨condition, onTrue, onFalse, range, inline⟩))
  (handler : ∀ caught body range, motive (.block .handler body) →
    motive (.handler ⟨caught, body, range⟩))
  (nothing : motive .nothing)

include simple assign dim ifThen loop tryCatch nil cons empty block branch handler nothing

set_option linter.unusedSectionVars false

mutual

theorem Chunk.of_stmt (s : Stmt) : motive (.stmt s) := by
  cases s with
  | assign a => exact assign a
  | dim name sizes range => exact dim name sizes range
  | ifThen i => exact ifThen i (Chunk.of_branch i .plain)
  | forTo counter limit stride body range =>
    exact loop _ body (.forTo ..) (Chunk.of_block body .plain)
  | forEach item target body range => exact loop _ body (.forEach ..) (Chunk.of_block body .plain)
  | whileDo condition body range => exact loop _ body (.whileDo ..) (Chunk.of_block body .plain)
  | tryCatch body handler range =>
    exact tryCatch body handler range (Chunk.of_block body .branches) (Chunk.of_handler handler)
  | _ => exact simple _ rfl

theorem Chunk.of_stmts (statements : List Stmt) : motive (.stmts statements) := by
  cases statements with
  | nil => exact nil
  | cons s others => exact cons s others (Chunk.of_stmt s) (Chunk.of_stmts others)

theorem Chunk.of_block (b : Block) (around : Around) : motive (.block around b) := by
  cases b with
  | mk statements range =>
    cases statements with
    | nil => exact empty around range
    | cons s others => exact block around s others range (Chunk.of_stmts (s :: others))

theorem Chunk.of_branch (i : If) (around : Around) : motive (.branch around i) := by
  cases i with
  | mk condition onTrue onFalse range inline =>
    exact branch around condition onTrue onFalse range inline (Chunk.of_block onTrue .branches)
      (Chunk.of_else onFalse)

theorem Chunk.of_else (e : Else) : motive e.chunk := by
  cases e with
  | absent => exact nothing
  | block body => exact Chunk.of_block body .branches
  | elseIf i => exact Chunk.of_branch i .branches

theorem Chunk.of_handler (c : Catch) : motive (.handler c) := by
  cases c with
  | mk caught body range => exact handler caught body range (Chunk.of_block body .handler)

end

/-- Induction over the parts of a body. -/
@[elab_as_elim, induction_eliminator]
theorem Chunk.induct (c : Chunk) : motive c := by
  cases c with
  | stmt s => apply Chunk.of_stmt <;> assumption
  | stmts statements => apply Chunk.of_stmts <;> assumption
  | block around b => apply Chunk.of_block <;> assumption
  | branch around i => apply Chunk.of_branch <;> assumption
  | handler c => apply Chunk.of_handler <;> assumption
  | nothing => exact nothing

end

end ChannelLint
