import ChannelLint.Proofs.Chunk

/-!
# Execution paths

What can happen when a body runs, as far as its structure tells. A condition may go either way, a
loop may run any number of times, and a body may raise at any point. A path is the list of names
that are read and bound on the way, together with how the body was left.
Values do not matter here, and a function that stands in an expression is not entered.

`end` and `stop` count as ordinary statements, and so does `goto`; what is said about paths is only
said about bodies without `goto`.
-/
namespace ChannelLint

open List

/-- Names are the same if they agree in lower case. -/
def Ident.key (n : Ident) : String :=
  Text.lower n.text

/-- The name that a node of an expression reads. -/
def nodeReads (node : Expr × Option Expr) : Option Ident :=
  match node.1 with
  | .var name _ => some name
  | _ => none

/-- The names that an expression reads, in order. -/
def Expr.reads (e : Expr) : List Ident :=
  (e.preorder none).filterMap nodeReads

def readsOf (es : List Expr) : List Ident :=
  es.flatMap Expr.reads

inductive Event where
  | read (name : Ident)
  /-- The role says whether a plain statement, a loop or a `catch` binds the name. -/
  | bind (name : Ident) (role : Role)
  deriving DecidableEq, Repr

/-- How a statement was left. -/
inductive Outcome where
  | done
  | returned
  | raised
  /-- An `exit` is on its way to the innermost loop of its kind. -/
  | left (loop : LoopKind)
  deriving DecidableEq, Repr

def readEvents (es : List Expr) : List Event :=
  (readsOf es).map .read

/-- On the way the name was bound, by whatever statement. -/
def Bound (x : String) (t : List Event) : Prop :=
  ∃ name role, .bind name role ∈ t ∧ name.key = x

/-- On the way the name was bound by an assignment or a `dim`. -/
def Assigned (x : String) (t : List Event) : Prop :=
  ∃ name, .bind name .plain ∈ t ∧ name.key = x

section

variable {x : String} {a b : List Event}

@[simp] theorem bound_append : Bound x (a ++ b) ↔ Bound x a ∨ Bound x b := by
  simp only [Bound, mem_append, or_and_right, exists_or]

theorem Bound.append_left (bound : Bound x a) (b : List Event) : Bound x (a ++ b) :=
  bound_append.2 (.inl bound)

theorem Bound.append_right (a : List Event) (bound : Bound x b) : Bound x (a ++ b) :=
  bound_append.2 (.inr bound)

theorem not_bound_append : ¬ Bound x (a ++ b) ↔ ¬ Bound x a ∧ ¬ Bound x b := by
  rw [bound_append, not_or]

theorem not_bound_reads (names : List Ident) : ¬ Bound x (names.map .read) := by
  rintro ⟨name, role, member, -⟩
  simp at member

theorem assigned_append : Assigned x (a ++ b) ↔ Assigned x a ∨ Assigned x b := by
  simp only [Assigned, mem_append, or_and_right, exists_or]

theorem not_assigned_append : ¬ Assigned x (a ++ b) ↔ ¬ Assigned x a ∧ ¬ Assigned x b := by
  rw [assigned_append, not_or]

end

abbrev Paths := List Event → Outcome → Prop

namespace Paths

/-- These events, and nothing can go wrong. -/
def emit (events : List Event) : Paths := fun t o =>
  t = events ∧ o = .done

/-- These events, with the given outcome; the last of them may not be reached. -/
def perform (events : List Event) (outcome : Outcome) : Paths := fun t o =>
  (t = events ∧ o = outcome) ∨ (t <+: events ∧ o = .raised)

def seq (p q : Paths) : Paths := fun t o =>
  (p t o ∧ o ≠ .done) ∨ ∃ a b, p a .done ∧ q b o ∧ t = a ++ b

def either (p q : Paths) : Paths := fun t o =>
  p t o ∨ q t o

/-- A handler takes over wherever the body raises. -/
def guarded (body handler : Paths) : Paths := fun t o =>
  (body t o ∧ o ≠ .raised) ∨ ∃ a b, body a .raised ∧ handler b o ∧ t = a ++ b

/-- A loop: `test` comes before every turn and once more before the loop ends by itself. -/
inductive repeated (kind : LoopKind) (test turn : Paths) : Paths
  | stop {a : List Event} {o : Outcome} : test a o → repeated kind test turn a o
  | again {a b c : List Event} {o : Outcome} :
      test a .done → turn b .done → repeated kind test turn c o →
      repeated kind test turn (a ++ b ++ c) o
  | exit {a b : List Event} :
      test a .done → turn b (.left kind) → repeated kind test turn (a ++ b) .done
  | leave {a b : List Event} {o : Outcome} :
      test a .done → turn b o → o ≠ .done → o ≠ .left kind →
      repeated kind test turn (a ++ b) o

end Paths

/-- How a simple statement is left if nothing goes wrong. -/
def Stmt.outcome : Stmt → Outcome
  | .exit loop _ => .left loop
  | .ret .. => .returned
  | .throw .. => .raised
  | _ => .done

open Paths in
mutual

/-- The paths through a statement. -/
def Stmt.Runs : Stmt → Paths
  | .assign a => perform (readEvents [a.value] ++ [.bind a.name .plain]) .done
  | .dim name sizes _ => perform (readEvents sizes ++ [.bind name .plain]) .done
  | .ifThen branch => branch.Runs
  | .forTo counter limit stride body _ =>
    seq (perform (readEvents [counter.value] ++ .bind counter.name .iterator ::
      readEvents (limit :: stride.toList)) .done) (repeated .forLoop (emit []) body.Runs)
  | .forEach item target body _ =>
    seq (perform (readEvents [target]) .done)
      (repeated .forLoop (emit []) (seq (emit [.bind item .iterator]) body.Runs))
  | .whileDo condition body _ =>
    repeated .whileLoop (perform (readEvents [condition]) .done) body.Runs
  | .tryCatch body handler _ => guarded body.Runs handler.Runs
  | s => perform (readEvents s.exprs) s.outcome

/-- The paths through a list of statements. It may raise before each statement and at its end. -/
def Stmt.RunsAll : List Stmt → Paths
  | [] => perform [] .done
  | s :: rest => either (fun t o => t = [] ∧ o = .raised) (seq s.Runs (Stmt.RunsAll rest))

def Block.Runs : Block → Paths
  | ⟨statements, _⟩ => Stmt.RunsAll statements

def If.Runs : If → Paths
  | ⟨condition, onTrue, onFalse, _, _⟩ =>
    seq (perform (readEvents [condition]) .done) (either onTrue.Runs onFalse.Runs)

def Else.Runs : Else → Paths
  | .absent => emit []
  | .block body => body.Runs
  | .elseIf branch => branch.Runs

def Catch.Runs : Catch → Paths
  | ⟨caught, body, _⟩ => seq (emit (caught.toList.map (.bind · .caughtError))) body.Runs

end

def Chunk.Runs : Chunk → Paths
  | .stmt s => s.Runs
  | .stmts statements => Stmt.RunsAll statements
  | .block _ b => b.Runs
  | .branch _ i => i.Runs
  | .handler c => c.Runs
  | .nothing => Paths.emit []

theorem Chunk.runs_branch (around : Around) (condition : Expr) (onTrue : Block) (onFalse : Else)
    (range : Range) (inline : Bool) :
    (Chunk.branch around ⟨condition, onTrue, onFalse, range, inline⟩).Runs =
      Paths.seq (Paths.perform (readEvents [condition]) .done)
        (Paths.either (Chunk.block .branches onTrue).Runs onFalse.chunk.Runs) := by
  cases onFalse <;> rfl

theorem Stmt.runs_of_simple {s : Stmt} (simple : s.isSimple) :
    s.Runs = Paths.perform (readEvents s.exprs) s.outcome := by
  cases s <;> first | rfl | cases simple

/-! ## The statements inside a body -/

mutual

/-- The statements, blocks and handlers inside a statement, in order. The assignment of a counter
belongs to its loop. -/
def Stmt.sites : Stmt → List Site
  | .ifThen branch => branch.sites
  | .forTo counter limit stride body range =>
    .stmt (.forTo counter limit stride body range) :: body.sites
  | .forEach item target body range => .stmt (.forEach item target body range) :: body.sites
  | .whileDo condition body range => .stmt (.whileDo condition body range) :: body.sites
  | .tryCatch body handler range =>
    .stmt (.tryCatch body handler range) :: body.sites ++ handler.sites
  | s => [.stmt s]

def Stmt.sitesAll : List Stmt → List Site
  | [] => []
  | s :: rest => s.sites ++ Stmt.sitesAll rest

def Block.sites : Block → List Site
  | ⟨statements, range⟩ => .block ⟨statements, range⟩ :: Stmt.sitesAll statements

def If.sites : If → List Site
  | ⟨condition, onTrue, onFalse, range, inline⟩ =>
    .stmt (.ifThen ⟨condition, onTrue, onFalse, range, inline⟩) :: onTrue.sites ++ onFalse.sites

def Else.sites : Else → List Site
  | .absent => []
  | .block body => body.sites
  | .elseIf branch => branch.sites

def Catch.sites : Catch → List Site
  | ⟨caught, body, range⟩ => .handler ⟨caught, body, range⟩ :: body.sites

end

def Chunk.sites : Chunk → List Site
  | .stmt s => s.sites
  | .stmts statements => Stmt.sitesAll statements
  | .block _ b => b.sites
  | .branch _ i => i.sites
  | .handler c => c.sites
  | .nothing => []

theorem Chunk.sites_branch (around : Around) (condition : Expr) (onTrue : Block) (onFalse : Else)
    (range : Range) (inline : Bool) :
    (Chunk.branch around ⟨condition, onTrue, onFalse, range, inline⟩).sites =
      .stmt (.ifThen ⟨condition, onTrue, onFalse, range, inline⟩) ::
        ((Chunk.block .branches onTrue).sites ++ onFalse.chunk.sites) := by
  cases onFalse <;> rfl

theorem Stmt.Loops.sites {s : Stmt} {body : Block} (loops : s.Loops body) :
    s.sites = .stmt s :: body.sites := by
  cases loops <;> rfl

theorem Stmt.sites_of_simple {s : Stmt} (simple : s.isSimple) : s.sites = [.stmt s] := by
  cases s <;> first | rfl | cases simple

theorem Stmt.sitesAll_eq (statements : List Stmt) :
    Stmt.sitesAll statements = statements.flatMap Stmt.sites := by
  induction statements with
  | nil => rfl
  | cons s others ih => rw [Stmt.sitesAll, ih, flatMap_cons]

theorem Block.sites_eq (b : Block) : b.sites = .block b :: Stmt.sitesAll b.statements := by
  cases b
  rfl

def Site.isGoto : Site → Bool
  | .stmt (.goto ..) => true
  | _ => false

def Site.isExit : Site → Bool
  | .stmt (.exit ..) => true
  | _ => false

/-- `end` and `stop` halt the program or hand it to the debugger. -/
def Site.isHalt : Site → Bool
  | .stmt (.end _) | .stmt (.stop _) => true
  | _ => false

/-- What a statement itself reads and binds, in order. -/
def Site.events : Site → List Event
  | .block _ => []
  | .handler c => c.caught.toList.map (.bind · .caughtError)
  | .stmt (.assign a) => readEvents [a.value] ++ [.bind a.name .plain]
  | .stmt (.dim name sizes _) => readEvents sizes ++ [.bind name .plain]
  | .stmt (.forTo counter limit stride _ _) =>
    readEvents [counter.value] ++ .bind counter.name .iterator :: readEvents (limit :: stride.toList)
  | .stmt (.forEach item target _ _) => readEvents [target] ++ [.bind item .iterator]
  | .stmt s => readEvents s.exprs

/-- What a statement binds when it opens. -/
def Site.opens : Site → List Event
  | .stmt (.forEach item ..) => [.bind item .iterator]
  | .handler c => c.caught.toList.map (.bind · .caughtError)
  | _ => []

/-- What is read and bound at some sites, in order. -/
def eventsOf (sites : List Site) : List Event :=
  sites.flatMap Site.events

@[simp] theorem eventsOf_cons (site : Site) (sites : List Site) :
    eventsOf (site :: sites) = site.events ++ eventsOf sites := rfl

@[simp] theorem eventsOf_append (first second : List Site) :
    eventsOf (first ++ second) = eventsOf first ++ eventsOf second :=
  flatMap_append

theorem Site.events_of_simple {s : Stmt} (simple : s.isSimple) :
    (Site.stmt s).events = readEvents s.exprs := by
  cases s <;> first | rfl | cases simple

/-! ## What can be met on a path -/

namespace Paths

/-- Every event on a path has the given property. -/
def Within (P : Event → Prop) (p : Paths) : Prop :=
  ∀ t o, p t o → ∀ e ∈ t, P e

variable {P : Event → Prop} {p q : Paths}

theorem Within.mono {Q : Event → Prop} (within : p.Within P) (sub : ∀ e, P e → Q e) : p.Within Q :=
  fun t o run e member => sub e (within t o run e member)

theorem within_emit {events : List Event} (all : ∀ e ∈ events, P e) : (emit events).Within P := by
  rintro t o ⟨rfl, -⟩
  exact all

theorem within_perform {events : List Event} {outcome : Outcome} (all : ∀ e ∈ events, P e) :
    (perform events outcome).Within P := by
  rintro t o (⟨rfl, -⟩ | ⟨part, -⟩) e member
  · exact all e member
  · exact all e (part.subset member)

/-- A run of `r` is a run of `p`, or one of `q` behind a run of `p` that was left in one way. -/
def Parts (p : Paths) (between : Outcome) (q r : Paths) : Prop :=
  ∀ t o, r t o → p t o ∨ ∃ a b, p a between ∧ q b o ∧ t = a ++ b

theorem parts_seq : Parts p .done q (seq p q) :=
  fun _ _ run => run.imp_left And.left

theorem parts_guarded : Parts p .raised q (guarded p q) :=
  fun _ _ run => run.imp_left And.left

theorem Parts.within {r : Paths} {between : Outcome} (parts : Parts p between q r)
    (first : p.Within P) (second : q.Within P) : r.Within P := by
  intro t o run
  obtain run | ⟨a, b, runA, runB, rfl⟩ := parts t o run
  · exact first t o run
  · exact forall_mem_append.2 ⟨first a _ runA, second b o runB⟩

theorem Within.seq (first : p.Within P) (second : q.Within P) : (seq p q).Within P :=
  parts_seq.within first second

theorem Within.either (first : p.Within P) (second : q.Within P) : (either p q).Within P := by
  rintro t o (run | run)
  · exact first t o run
  · exact second t o run

theorem Within.guarded (body : p.Within P) (handler : q.Within P) : (guarded p q).Within P :=
  parts_guarded.within body handler

theorem Within.repeated {kind : LoopKind} (test : p.Within P) (turn : q.Within P) :
    (repeated kind p q).Within P := by
  have both {a b : List Event} {o o' : Outcome} (tested : p a o) (turned : q b o') :
      ∀ e ∈ a ++ b, P e :=
    forall_mem_append.2 ⟨test a o tested, turn b o' turned⟩
  intro t o run
  induction run with
  | stop tested => exact test _ _ tested
  | again tested turned _ ih => exact forall_mem_append.2 ⟨both tested turned, ih⟩
  | exit tested turned => exact both tested turned
  | leave tested turned _ _ => exact both tested turned

end Paths

open Paths

theorem Paths.seq_emit_nil (p : Paths) : seq (emit []) p = p := by
  funext t o
  apply propext
  constructor
  · rintro (⟨⟨-, rfl⟩, notDone⟩ | ⟨a, b, ⟨rfl, -⟩, run, rfl⟩)
    · exact absurd rfl notDone
    · exact run
  · exact fun run => .inr ⟨[], t, ⟨rfl, rfl⟩, run, rfl⟩

/-- What a loop does before its first turn, before each turn and at the beginning of a turn. -/
theorem Stmt.Loops.runs {s : Stmt} {body : Block} (loops : s.Loops body) :
    ∃ kind start test binds, s.Runs = seq start (repeated kind test (seq (emit binds) body.Runs)) ∧
      start.Within (· ∈ (Site.stmt s).events) ∧ test.Within (· ∈ (Site.stmt s).events) ∧
      binds ⊆ (Site.stmt s).events ∧ ∃ a, start a .done := by
  have idle (events : List Event) : (emit []).Within (· ∈ events) := within_emit nofun
  cases loops with
  | forTo counter limit stride body range =>
    refine ⟨.forLoop, Paths.perform _ .done, emit [], [], ?_, within_perform fun _ => id, idle _,
      nil_subset _, _, .inl ⟨rfl, rfl⟩⟩
    rw [seq_emit_nil]
    rfl
  | forEach item target body range =>
    exact ⟨.forLoop, Paths.perform _ .done, emit [], [.bind item .iterator], rfl,
      within_perform fun _ => mem_append_left _, idle _, subset_append_right _ _, _,
      .inl ⟨rfl, rfl⟩⟩
  | whileDo condition body range =>
    refine ⟨.whileLoop, emit [], Paths.perform _ .done, [], ?_, idle _, within_perform fun _ => id,
      nil_subset _, [], rfl, rfl⟩
    rw [seq_emit_nil, seq_emit_nil]
    rfl

/-- On the paths through a part there is nothing but what its text reads and binds. -/
theorem Chunk.runs_within (c : Chunk) {P : Event → Prop} (all : ∀ e ∈ eventsOf c.sites, P e) :
    Within P c.Runs := by
  induction c with
  | simple s simple =>
    rw [Chunk.Runs, Stmt.runs_of_simple simple]
    refine within_perform fun e member => all e ?_
    simpa [eventsOf, Chunk.sites, Stmt.sites_of_simple simple, Site.events_of_simple simple]
      using member
  | assign a => exact within_perform fun e member => all e (mem_append_left _ member)
  | dim name sizes range => exact within_perform fun e member => all e (mem_append_left _ member)
  | ifThen i ih => exact ih all
  | loop s body loops ih =>
    obtain ⟨kind, start, test, binds, runs, first, tested, bound, -⟩ := loops.runs
    rw [Chunk.sites, loops.sites, eventsOf_cons] at all
    obtain ⟨own, inner⟩ := forall_mem_append.1 all
    rw [Chunk.Runs, runs]
    exact (first.mono own).seq (Within.repeated (tested.mono own)
      ((within_emit fun e member => own e (bound member)).seq (ih inner)))
  | tryCatch body handler range tried caught =>
    have inner : ∀ e ∈ eventsOf (body.sites ++ handler.sites), P e := all
    rw [eventsOf_append] at inner
    obtain ⟨inBody, inHandler⟩ := forall_mem_append.1 inner
    exact (tried inBody).guarded (caught inHandler)
  | nil => exact within_perform nofun
  | cons s others first later =>
    rw [Chunk.sites, Stmt.sitesAll, eventsOf_append] at all
    obtain ⟨here, behind⟩ := forall_mem_append.1 all
    have raised : Within P fun t o => t = [] ∧ o = .raised := by
      rintro t o ⟨rfl, -⟩ e member
      cases member
    exact raised.either ((first here).seq (later behind))
  | empty around range => exact within_perform nofun
  | block around s others range ih => exact ih all
  | branch around condition onTrue onFalse range inline taken passed =>
    rw [Chunk.sites_branch, eventsOf_cons, eventsOf_append] at all
    obtain ⟨own, inner⟩ := forall_mem_append.1 all
    obtain ⟨inTrue, inFalse⟩ := forall_mem_append.1 inner
    rw [Chunk.runs_branch]
    exact (within_perform own).seq ((taken inTrue).either (passed inFalse))
  | handler caught body range ih =>
    obtain ⟨own, inner⟩ := forall_mem_append.1 all
    exact (within_emit own).seq (ih inner)
  | nothing => exact within_emit nofun

end ChannelLint
