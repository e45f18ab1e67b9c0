import ChannelLint.Proofs.Ending

/-!
# The walk as one name sees it

Most of what a walk does leaves a given name alone. A watch keeps what is left: for each open frame
the binding of the name, if there is one, and for every report the name it was made at. Each step of
a walk is a step of the watch, so what the walk reports about a name can be read off the watch of
the body, which is defined on the syntax alone.

A condition that compares the name with `invalid` makes bindings of another kind; the watch is
followed only where no condition does that. Jumps are left out too.
-/
namespace ChannelLint

open List

/-- What a binding says about its name. -/
structure Entry where
  ident : Ident
  role : Role
  unsettled : Bool
  met : Nat
  used : Bool
  deriving DecidableEq, Repr

/-- The binding of the watched name in one frame. -/
abbrev Slot := Option Entry

namespace Entry

def fresh (name : Ident) (role : Role) : Entry :=
  ⟨name, role, false, 1, false⟩

def countBranches (paths : Int) (e : Entry) : Entry :=
  { e with unsettled := e.unsettled || (e.met : Int) < paths, met := 1 }

def moveOut (e : Entry) (outer : Slot) (branches usedBefore : Bool) : Entry :=
  let unsettled := e.unsettled || e.role = .iterator
  { e with
    unsettled := match outer with
      | none => unsettled
      | some o => if branches then o.unsettled || unsettled else o.unsettled && unsettled
    met := match outer with
      | none => e.met
      | some o => if branches then o.met + 1 else e.met
    role := match outer with
      | none => e.role
      | some o => if o.role = .iterator then .iterator else e.role
    used := e.used || usedBefore }

end Entry

def Binding.entry (b : Binding) : Entry :=
  ⟨⟨b.name, b.range⟩, b.role, b.unsettled, b.branchesMet, b.used⟩

def Site.isBlock : Site → Bool
  | .block _ => true
  | _ => false

def Site.around (site : Site) : Around :=
  if site.isIf || site.isTry then .branches else if site.isHandler then .handler else .plain

namespace Slot

def isSettled : Slot → Bool
  | some e => !e.unsettled
  | none => false

/-- The binding that a name starts with in a frame. -/
def opening (x : String) : Site → Slot
  | .stmt (.forEach item ..) => if item.key = x then some (.fresh item .iterator) else none
  | .handler ⟨some name, _, _⟩ => if name.key = x then some (.fresh name .caughtError) else none
  | _ => none

/-- Behind a part that has ended nothing is left of a binding. -/
def isDropped (closed : FrameShape) (around : Around) : Bool :=
  !(1 < closed.paths) && around ≠ .plain && closed.returns

/-- The binding that outlives a frame, unless it is the variable of a `catch`. -/
def outliving (closed : FrameShape) (around : Around) (slot : Slot) : Slot :=
  if 1 < closed.paths then slot.map (Entry.countBranches closed.paths)
  else if isDropped closed around then none else slot

/-- The binding that leaves a closed frame. -/
def leaving (closed : FrameShape) (around : Around) (slot : Slot) : Slot :=
  if closed.site.isHandler then (outliving closed around slot).filter (·.role ≠ .caughtError)
  else outliving closed around slot

/-- A frame takes over a binding that has left the frame inside it. -/
def receive (outer : Slot) (branches usedBefore : Bool) : Slot → Slot
  | none => outer
  | some e => some (e.moveOut outer branches usedBefore)

/-- The names that are reported as unused when a frame closes. -/
def unusedIn (slot : Slot) : List Ident :=
  (slot.filter fun e => !e.used && e.role = .plain).toList.map (·.ident)

/-- Marks the innermost binding, and the first one that is not unsettled. -/
def mark (specific : Bool) : List Slot → List Slot
  | [] => []
  | none :: rest => none :: mark specific rest
  | some e :: rest =>
    if !e.unsettled then some { e with used := true } :: rest
    else some { e with used := e.used || specific } :: mark false rest

/-- Whether the innermost binding was read. -/
def visiblyUsed (stack : List Slot) : Bool :=
  ((stack.findSome? id).map Entry.used).getD false

end Slot

/-- A walk as one name sees it; lists are in the order of the walk. -/
structure Watch where
  stack : List Slot
  /-- Where the name was read without any binding. -/
  free : List Ident
  /-- Where it was read with unsettled bindings only. -/
  alarms : List Ident
  /-- Where it was bound in vain. -/
  unused : List Ident

namespace Watch

def readName (v : Watch) (name : Ident) : Watch :=
  if v.stack.all Option.isNone then { v with free := v.free ++ [name] }
  else
    { v with
      stack := Slot.mark true v.stack
      alarms := if v.stack.any Slot.isSettled then v.alarms else v.alarms ++ [name] }

/-- Reads those of the names that are watched. -/
def read (x : String) (names : List Ident) (v : Watch) : Watch :=
  (names.filter (·.key = x)).foldl readName v

def bind (x : String) (name : Ident) (role : Role) (v : Watch) : Watch :=
  if name.key = x then { v with stack := some (.fresh name role) :: v.stack.tail } else v

def push (slot : Slot) (v : Watch) : Watch :=
  { v with stack := slot :: v.stack }

/-- Closes the innermost frame into the one around it. -/
def close (closed : FrameShape) (around : Around) (v : Watch) : Watch :=
  match v.stack with
  | slot :: outer :: rest =>
    { v with
      stack := Slot.receive outer (around = .branches)
        (closed.site.isLoop && Slot.visiblyUsed (outer :: rest))
        (Slot.leaving closed around slot) :: rest
      unused := v.unused ++ if Slot.isDropped closed around then Slot.unusedIn slot else [] }
  | _ => v

end Watch

/-! ## The watch of a body -/

section

variable (x : String) (loopsBranch : Bool)

mutual

/-- Watches a statement. -/
def Stmt.watch : Stmt → Watch → Watch
  | .assign a, v => (v.read x (readsOf [a.value])).bind x a.name .plain
  | .dim name sizes _, v => (v.read x (readsOf sizes)).bind x name .plain
  | .ifThen branch, v => branch.watch .plain v
  | .forTo counter limit stride body range, v =>
    let site := Site.stmt (.forTo counter limit stride body range)
    let v := ((v.push none).read x (readsOf [counter.value])).bind x counter.name .iterator
    let v := v.read x (readsOf (limit :: stride.toList))
    (body.watch .plain v).close ⟨site, site.paths loopsBranch, false⟩ .plain
  | .forEach item target body range, v =>
    let site := Site.stmt (.forEach item target body range)
    let v := (v.read x (readsOf [target])).push (Slot.opening x site)
    (body.watch .plain v).close ⟨site, site.paths loopsBranch, false⟩ .plain
  | .whileDo condition body range, v =>
    let site := Site.stmt (.whileDo condition body range)
    let v := (v.read x (readsOf [condition])).push none
    (body.watch .plain v).close ⟨site, site.paths loopsBranch, false⟩ .plain
  | .tryCatch body handler range, v =>
    let site := Site.stmt (.tryCatch body handler range)
    let v := handler.watch (body.watch .branches (v.push none))
    v.close ⟨site, Walk.pathsAfter (Walk.pathsAfter 2 body.ends) handler.ends, handler.ends⟩ .plain
  | s, v => v.read x (readsOf s.exprs)

def Stmt.watchAll : List Stmt → Watch → Watch
  | [], v => v
  | s :: rest, v => Stmt.watchAll rest (s.watch v)

/-- Watches a block; `around` is the frame that it stands in. A block without statements opens no
frame. -/
def Block.watch (around : Around) : Block → Watch → Watch
  | ⟨statements, range⟩, v =>
    if statements.isEmpty then v
    else (Stmt.watchAll statements (v.push none)).close
      ⟨.block ⟨statements, range⟩, 1, Stmt.endsAny statements⟩ around

def If.watch (around : Around) : If → Watch → Watch
  | ⟨condition, onTrue, onFalse, range, inline⟩, v =>
    let site := Site.stmt (.ifThen ⟨condition, onTrue, onFalse, range, inline⟩)
    let v := (v.read x (readsOf [condition])).push none
    (onFalse.watch (onTrue.watch .branches v)).close
      ⟨site, Walk.pathsAfter (Walk.pathsAfter 2 onTrue.ends) onFalse.ends,
        Walk.endsNested onFalse⟩ around

def Else.watch : Else → Watch → Watch
  | .absent, v => v
  | .block body, v => body.watch .branches v
  | .elseIf branch, v => branch.watch .branches v

def Catch.watch : Catch → Watch → Watch
  | ⟨caught, body, range⟩, v =>
    let site := Site.handler ⟨caught, body, range⟩
    (body.watch .handler (v.push (Slot.opening x site))).close
      ⟨site, Walk.pathsAfter 1 body.ends, false⟩ .branches

end

end

section

variable (x : String) (loopsBranch : Bool)

def Chunk.watch : Chunk → Watch → Watch
  | .stmt s, v => s.watch x loopsBranch v
  | .stmts statements, v => Stmt.watchAll x loopsBranch statements v
  | .block around b, v => b.watch x loopsBranch around v
  | .branch around i, v => i.watch x loopsBranch around v
  | .handler c, v => c.watch x loopsBranch v
  | .nothing, v => v

theorem Chunk.watch_block (around : Around) (s : Stmt) (others : List Stmt) (range : Range)
    (v : Watch) : (Chunk.block around ⟨s :: others, range⟩).watch x loopsBranch v =
      ((Chunk.stmts (s :: others)).watch x loopsBranch (v.push none)).close
        ⟨.block ⟨s :: others, range⟩, 1, Stmt.endsAny (s :: others)⟩ around :=
  rfl

theorem Chunk.watch_branch (around : Around) (condition : Expr) (onTrue : Block) (onFalse : Else)
    (range : Range) (inline : Bool) (v : Watch) :
    (Chunk.branch around ⟨condition, onTrue, onFalse, range, inline⟩).watch x loopsBranch v =
      (onFalse.chunk.watch x loopsBranch ((Chunk.block .branches onTrue).watch x loopsBranch
        ((v.read x (readsOf [condition])).push none))).close
        ⟨.stmt (.ifThen ⟨condition, onTrue, onFalse, range, inline⟩),
          Walk.pathsAfter (Walk.pathsAfter 2 onTrue.ends) onFalse.ends,
          Walk.endsNested onFalse⟩ around := by
  cases onFalse <;> rfl

theorem Chunk.watch_handler (caught : Option Ident) (body : Block) (range : Range) (v : Watch) :
    (Chunk.handler ⟨caught, body, range⟩).watch x loopsBranch v =
      ((Chunk.block .handler body).watch x loopsBranch
        (v.push (Slot.opening x (.handler ⟨caught, body, range⟩)))).close
        ⟨.handler ⟨caught, body, range⟩, Walk.pathsAfter 1 body.ends, false⟩ .branches :=
  rfl

/-- The watch of a loop at the beginning of its body. -/
def Stmt.enteredWatch : Stmt → Watch → Watch
  | .forTo counter limit stride _ _, v =>
    (((v.push none).read x (readsOf [counter.value])).bind x counter.name .iterator).read x
      (readsOf (limit :: stride.toList))
  | .forEach item target body range, v =>
    (v.read x (readsOf [target])).push (Slot.opening x (.stmt (.forEach item target body range)))
  | .whileDo condition _ _, v => (v.read x (readsOf [condition])).push none
  | _, v => v

theorem Stmt.Loops.watch {s : Stmt} {body : Block} (loops : s.Loops body) (v : Watch) :
    s.watch x loopsBranch v = (body.watch x loopsBranch .plain (s.enteredWatch x v)).close
      ⟨.stmt s, (Site.stmt s).paths loopsBranch, false⟩ .plain := by
  cases loops <;> rfl

end

theorem Stmt.watch_of_simple {x : String} {loopsBranch : Bool} {s : Stmt} (simple : s.isSimple)
    (v : Watch) : s.watch x loopsBranch v = v.read x (readsOf s.exprs) := by
  cases s <;> first | rfl | cases simple

/-! ## What never shrinks -/

namespace Watch

/-- From one moment to a later one, reports are added. -/
structure Grows (before after : Watch) : Prop where
  free : before.free <+: after.free
  alarms : before.alarms <+: after.alarms
  unused : before.unused <+: after.unused

theorem Grows.refl (v : Watch) : Grows v v :=
  ⟨prefix_rfl, prefix_rfl, prefix_rfl⟩

theorem Grows.trans {a b c : Watch} (first : Grows a b) (second : Grows b c) : Grows a c :=
  ⟨first.free.trans second.free, first.alarms.trans second.alarms,
    first.unused.trans second.unused⟩

theorem readName_grows (v : Watch) (name : Ident) : Grows v (v.readName name) := by
  unfold readName
  split
  · exact ⟨prefix_append _ _, prefix_rfl, prefix_rfl⟩
  · refine ⟨prefix_rfl, ?_, prefix_rfl⟩
    dsimp only
    split
    · exact prefix_rfl
    · exact prefix_append _ _

theorem foldl_readName_grows (names : List Ident) (v : Watch) :
    Grows v (names.foldl readName v) := by
  induction names generalizing v with
  | nil => exact Grows.refl v
  | cons name others ih => exact (readName_grows v name).trans (ih _)

theorem read_grows (x : String) (names : List Ident) (v : Watch) : Grows v (v.read x names) :=
  foldl_readName_grows _ v

theorem bind_grows (x : String) (name : Ident) (role : Role) (v : Watch) :
    Grows v (v.bind x name role) := by
  unfold bind
  split
  · exact ⟨prefix_rfl, prefix_rfl, prefix_rfl⟩
  · exact Grows.refl v

theorem push_grows (slot : Slot) (v : Watch) : Grows v (v.push slot) :=
  ⟨prefix_rfl, prefix_rfl, prefix_rfl⟩

theorem close_grows (closed : FrameShape) (around : Around) (v : Watch) :
    Grows v (v.close closed around) := by
  unfold close
  split
  · exact ⟨prefix_rfl, prefix_rfl, prefix_append _ _⟩
  · exact Grows.refl v

end Watch

section

open Watch

variable (x : String) (loopsBranch : Bool)

theorem Stmt.Loops.entered_grows {s : Stmt} {body : Block} (loops : s.Loops body) (v : Watch) :
    Grows v (s.enteredWatch x v) := by
  cases loops with
  | forTo =>
    exact (((push_grows _ v).trans (read_grows x _ _)).trans (bind_grows x _ _ _)).trans
      (read_grows x _ _)
  | forEach => exact (read_grows x _ v).trans (push_grows _ _)
  | whileDo => exact (read_grows x _ v).trans (push_grows _ _)

theorem Chunk.watch_grows (c : Chunk) (v : Watch) : Grows v (c.watch x loopsBranch v) := by
  induction c generalizing v with
  | simple s simple =>
    rw [Chunk.watch, Stmt.watch_of_simple simple]
    exact read_grows x _ v
  | assign a => exact (read_grows x _ v).trans (bind_grows x _ _ _)
  | dim name sizes range => exact (read_grows x _ v).trans (bind_grows x _ _ _)
  | ifThen i ih => exact ih v
  | loop s body loops ih =>
    rw [Chunk.watch, loops.watch]
    exact (loops.entered_grows x v).trans ((ih _).trans (close_grows _ _ _))
  | tryCatch body handler range tried caught =>
    exact (push_grows _ v).trans ((tried _).trans ((caught _).trans (close_grows _ _ _)))
  | cons s others first later => exact (first v).trans (later _)
  | block around s others range ih =>
    exact (push_grows _ v).trans ((ih _).trans (close_grows _ _ _))
  | branch around condition onTrue onFalse range inline taken passed =>
    rw [Chunk.watch_branch]
    exact ((read_grows x _ v).trans (push_grows _ _)).trans
      ((taken _).trans ((passed _).trans (close_grows _ _ _)))
  | handler caught body range ih =>
    exact (push_grows _ v).trans ((ih _).trans (close_grows _ _ _))
  | _ => exact Grows.refl v

end

end ChannelLint
