import ChannelLint.Proofs.DefiniteAssignment
import ChannelLint.Proofs.Invariant

/-!
# The set of names that a body assigns for sure

The walk never computes a set: it moves bindings from frame to frame, counts the branches that have
met them, and settles them again where the frame around has a settled one. `Block.definite` is the
set by recursion on the tree. When the outermost frame of a function closes, its locals are the names
that the body assigns or iterates over, and an assigned name is settled exactly if it is in the set.

Nothing is said about bodies that return or throw, where branches are forgotten, nor about jumps and
about names that are compared with `invalid`.
-/
namespace ChannelLint

open List Slot

variable {s : Stmt} {site : Site} {closed : FrameShape} {body : Block} {slot : Slot}

mutual

/-- The names that a statement assigns whichever way its conditions go. A loop that counts as a
branch may be skipped. -/
def Stmt.definite (loopsBranch : Bool) : Stmt → Finset String
  | .assign a => {a.name.key}
  | .dim name _ _ => {name.key}
  | .ifThen branch => branch.definite loopsBranch
  | .forTo _ _ _ body _ | .forEach _ _ body _ | .whileDo _ body _ =>
    if loopsBranch then ∅ else body.definite loopsBranch
  | .tryCatch body handler _ => body.definite loopsBranch ∩ handler.definite loopsBranch
  | _ => ∅

def Stmt.definiteAll (loopsBranch : Bool) : List Stmt → Finset String
  | [] => ∅
  | s :: rest => s.definite loopsBranch ∪ Stmt.definiteAll loopsBranch rest

def Block.definite (loopsBranch : Bool) : Block → Finset String
  | ⟨statements, _⟩ => Stmt.definiteAll loopsBranch statements

def If.definite (loopsBranch : Bool) : If → Finset String
  | ⟨_, onTrue, onFalse, _, _⟩ => onTrue.definite loopsBranch ∩ onFalse.definite loopsBranch

def Else.definite (loopsBranch : Bool) : Else → Finset String
  | .absent => ∅
  | .block body => body.definite loopsBranch
  | .elseIf branch => branch.definite loopsBranch

def Catch.definite (loopsBranch : Bool) : Catch → Finset String
  | ⟨_, body, _⟩ => body.definite loopsBranch

end

theorem Stmt.definite_of_simple {loopsBranch : Bool} (simple : s.isSimple) :
    s.definite loopsBranch = ∅ := by
  cases s <;> first | rfl | cases simple

/-- On the way the name was bound by a loop. -/
def Iterated (x : String) (t : List Event) : Prop :=
  ∃ name, .bind name .iterator ∈ t ∧ name.key = x

/-! ## Bodies without `return` and `throw` -/

theorem Chunk.not_ends_of_passing (c : Chunk) (passing : ∀ site ∈ c.sites, site.endsPath = false) :
    c.ends = false := by
  induction c with
  | simple s simple =>
    cases s with
    | ret | throw => exact absurd (passing _ mem_cons_self) (by simp [Site.endsPath])
    | _ => first | rfl | cases simple
  | ifThen i ih => exact ih passing
  | loop s body loops ih => exact loops.ends
  | tryCatch body handler range tried caught =>
    obtain ⟨-, inner⟩ := forall_mem_cons.1 passing
    have inBody : body.ends = false := tried (forall_mem_append.1 inner).1
    simp [Chunk.ends, Stmt.ends, inBody]
  | cons s others here later =>
    obtain ⟨first, second⟩ := forall_mem_append.1 passing
    exact Bool.or_eq_false_iff.2 ⟨here first, later second⟩
  | block around s others range ih => exact ih (forall_mem_cons.1 passing).2
  | branch around condition onTrue onFalse range inline taken passed =>
    obtain ⟨-, inner⟩ := forall_mem_cons.1 passing
    have inTrue : onTrue.ends = false := taken (forall_mem_append.1 inner).1
    simp [Chunk.ends, If.ends, inTrue]
  | handler caught body range ih => exact ih (forall_mem_cons.1 passing).2
  | _ => rfl

theorem Site.not_handler_of_loop (isLoop : site.isLoop) : site.isHandler = false := by
  cases site <;> first | rfl | cases isLoop

theorem Site.paths_of_loop (isLoop : site.isLoop) (loopsBranch : Bool) :
    site.paths loopsBranch = if loopsBranch then 2 else 1 := by
  rcases site with _ | s | _
  · cases isLoop
  · cases s <;> cases loopsBranch <;> first | rfl | cases isLoop
  · cases isLoop

/-! ## Names that are only assigned -/

namespace Slot

/-- The slot of a name that is only ever assigned: it holds a binding if the name was bound, and a
settled one if it was bound for sure. -/
structure Tells (bound definite : Prop) (slot : Slot) : Prop where
  filled : slot.isSome ↔ bound
  settled : slot.isSettled ↔ definite
  plain : ∀ e, slot = some e → e.role = .plain
  met : ∀ e, slot = some e → e.met = 1

variable {x : String} {outer inner first second : Slot}
variable {bound definite bound' definite' : Prop}

theorem tells_none : Tells False False none :=
  ⟨by simp, by simp [isSettled], fun _ found => (by cases found), fun _ found => (by cases found)⟩

theorem Tells.congr (tells : slot.Tells bound definite) (sameBound : bound ↔ bound')
    (sameDefinite : definite ↔ definite') : slot.Tells bound' definite' :=
  ⟨tells.filled.trans sameBound, tells.settled.trans sameDefinite, tells.plain, tells.met⟩

theorem tells_fresh (name : Ident) : Tells True True (some (.fresh name .plain)) :=
  ⟨by simp, by simp [isSettled, Entry.fresh], by rintro e ⟨⟩; rfl, by rintro e ⟨⟩; rfl⟩

theorem Tells.rebind (tells : slot.Tells bound definite) (name : Ident) :
    (slot.rebind x name .plain).Tells (bound ∨ name.key = x) (definite ∨ name.key = x) := by
  unfold Slot.rebind
  split
  · next same => exact (tells_fresh name).congr (by simp [same]) (by simp [same])
  · next differs => exact tells.congr (by simp [differs]) (by simp [differs])

/-- A frame that does not count branches knows what it knew, and what comes from the frame inside. -/
theorem Tells.receive (outside : outer.Tells bound definite) (inside : inner.Tells bound' definite') :
    (outer.receive false false inner).Tells (bound ∨ bound') (definite ∨ definite') := by
  cases inner with
  | none =>
    have nothing : ¬ bound' := by simpa using inside.filled
    have notSettled : ¬ definite' := by simpa [isSettled] using inside.settled
    exact outside.congr (by simp [nothing]) (by simp [notSettled])
  | some e =>
    have isBound : bound' := inside.filled.1 rfl
    have role := inside.plain e rfl
    have met := inside.met e rfl
    have settled : e.unsettled = false ↔ definite' := by simpa [isSettled] using inside.settled
    cases outer with
    | none =>
      have notSettled : ¬ definite := by simpa [isSettled] using outside.settled
      refine ⟨by simp [receive, isBound], ?_, ?_, ?_⟩
      · simp [receive, Entry.moveOut, isSettled, role, settled, notSettled]
      · rintro _ ⟨⟩
        exact role
      · rintro _ ⟨⟩
        exact met
    | some o =>
      have outerRole := outside.plain o rfl
      have outerSettled : o.unsettled = false ↔ definite := by
        simpa [isSettled] using outside.settled
      refine ⟨by simp [receive, isBound], ?_, ?_, ?_⟩
      · simp [receive, Entry.moveOut, isSettled, role, ← settled, ← outerSettled]
      · rintro _ ⟨⟩
        simp [Entry.moveOut, outerRole, role]
      · rintro _ ⟨⟩
        exact met

theorem leaving_of_two (two : closed.paths = 2)
    (notHandler : closed.site.isHandler = false) (around : Around) (slot : Slot) :
    leaving closed around slot = slot.map (Entry.countBranches 2) := by
  simp [leaving, outliving, two, notHandler]

theorem leaving_of_one (one : closed.paths = 1) (goesOn : closed.returns = false)
    (notHandler : closed.site.isHandler = false) (around : Around) (slot : Slot) :
    leaving closed around slot = slot := by
  simp [leaving, outliving, isDropped, one, goesOn, notHandler]

/-- A name that only one of two branches binds is met once. -/
theorem Tells.counted_once (tells : slot.Tells bound definite) :
    Tells bound False ((Slot.receive none true false slot).map (Entry.countBranches 2)) := by
  cases slot with
  | none => exact tells.congr Iff.rfl (by simpa [isSettled] using tells.settled.symm)
  | some e =>
    have met := tells.met e rfl
    refine ⟨by simpa [Slot.receive] using tells.filled, ?_, ?_, by rintro _ ⟨⟩; rfl⟩
    · simp [Slot.receive, Entry.moveOut, Entry.countBranches, isSettled, met]
    · rintro _ ⟨⟩
      exact tells.plain e rfl

/-- Behind two branches a name is bound if one of them binds it, and settled if both settle it. -/
theorem Tells.leaving_joined (one : first.Tells bound definite) (other : second.Tells bound' definite')
    (closed : FrameShape) (two : closed.paths = 2) (notHandler : closed.site.isHandler = false)
    (around : Around) : (leaving closed around (joined first second)).Tells (bound ∨ bound')
      (definite ∧ definite') := by
  rw [leaving_of_two two notHandler]
  cases second with
  | none =>
    have nothing : ¬ bound' := by simpa using other.filled
    have notSettled : ¬ definite' := by simpa [isSettled] using other.settled
    exact one.counted_once.congr (by simp [nothing]) (by simp [notSettled])
  | some e =>
    cases first with
    | none =>
      have nothing : ¬ bound := by simpa using one.filled
      have notSettled : ¬ definite := by simpa [isSettled] using one.settled
      exact other.counted_once.congr (by simp [nothing]) (by simp [notSettled])
    | some o =>
      have isBound : bound := one.filled.1 rfl
      have role := other.plain e rfl
      have outerRole := one.plain o rfl
      have met := one.met o rfl
      have settled : e.unsettled = false ↔ definite' := by simpa [isSettled] using other.settled
      have outerSettled : o.unsettled = false ↔ definite := by simpa [isSettled] using one.settled
      refine ⟨by simp [joined, Slot.receive, isBound], ?_, ?_, by rintro _ ⟨⟩; rfl⟩
      · simp [joined, Slot.receive, Entry.moveOut, Entry.countBranches, isSettled, role, outerRole,
          met, ← settled, ← outerSettled]
      · rintro _ ⟨⟩
        simp [Entry.countBranches, Entry.moveOut, Slot.receive, outerRole, role]

theorem Tells.filter_lasting (tells : slot.Tells bound definite) :
    slot.filter (·.role ≠ .caughtError) = slot := by
  cases slot with
  | none => rfl
  | some e => simp [Option.filter, tells.plain e rfl]

/-- A loop that counts as a branch settles nothing. -/
theorem Tells.looped (body : inner.Tells bound definite) (site : Site) (isLoop : site.isLoop)
    (loopsBranch : Bool) :
    (looped site loopsBranch none inner).Tells bound (loopsBranch = false ∧ definite) := by
  have notHandler : site.isHandler = false := Site.not_handler_of_loop isLoop
  have received := tells_none.receive body
  unfold Slot.looped
  cases loopsBranch with
  | false =>
    rw [leaving_of_one (Site.paths_of_loop isLoop false) rfl notHandler]
    exact received.congr (by simp) (by simp)
  | true =>
    rw [leaving_of_two (Site.paths_of_loop isLoop true) notHandler]
    refine ⟨by simpa using received.filled, ?_, ?_, ?_⟩
    · cases filled : Slot.receive none false false inner with
      | none => simp [isSettled]
      | some e => simp [isSettled, Entry.countBranches, received.met e filled]
    all_goals
      intro e found
      obtain ⟨o, filled, rfl⟩ := Option.map_eq_some_iff.1 found
    · exact received.plain o filled
    · rfl

end Slot

/-- Nothing but assignments binds the name. -/
def OnlyAssigned (x : String) (t : List Event) : Prop :=
  ∀ name role, .bind name role ∈ t → name.key = x → role = .plain

section

variable {x : String} {a b : List Event}

@[simp] theorem bound_bind_cons (name : Ident) (role : Role) :
    Bound x (.bind name role :: b) ↔ name.key = x ∨ Bound x b := by
  simp [Bound, or_and_right, exists_or]

@[simp] theorem not_bound_nil : ¬ Bound x [] := by
  rintro ⟨name, role, member, -⟩
  cases member

@[simp] theorem bound_reads (es : List Expr) : ¬ Bound x (readEvents es) :=
  not_bound_reads _

theorem OnlyAssigned.left (only : OnlyAssigned x (a ++ b)) : OnlyAssigned x a :=
  fun name role member => only name role (mem_append_left b member)

theorem OnlyAssigned.right (only : OnlyAssigned x (a ++ b)) : OnlyAssigned x b :=
  fun name role member => only name role (mem_append_right a member)

theorem OnlyAssigned.ne_of_bind (only : OnlyAssigned x a) {name : Ident} (role : Role)
    (member : .bind name role ∈ a) (other : role ≠ .plain) : name.key ≠ x :=
  fun same => other (only name role member same)

end

/-- A part that opens a frame of its own. -/
@[simp] def Chunk.opens : Chunk → Bool
  | .stmt _ | .stmts _ => false
  | _ => true

section

variable {x : String} (loopsBranch : Bool)

def Chunk.definite : Chunk → Finset String
  | .stmt s => s.definite loopsBranch
  | .stmts statements => Stmt.definiteAll loopsBranch statements
  | .block _ b => b.definite loopsBranch
  | .branch _ i => i.definite loopsBranch
  | .handler c => c.definite loopsBranch
  | .nothing => ∅

theorem Else.definite_chunk (e : Else) : e.chunk.definite loopsBranch = e.definite loopsBranch := by
  cases e <;> rfl

theorem Stmt.Loops.mem_definite (loops : s.Loops body) :
    x ∈ s.definite loopsBranch ↔ loopsBranch = false ∧ x ∈ body.definite loopsBranch := by
  cases loops <;> cases loopsBranch <;> simp [Stmt.definite]

/-- A loop does not assign its variable. -/
theorem Stmt.Loops.not_bound (loops : s.Loops body) (only : OnlyAssigned x (Site.stmt s).events) :
    s.enteredSlot x = none ∧ ¬ Bound x (Site.stmt s).events := by
  cases loops with
  | forTo counter limit stride body range =>
    have differs : counter.name.key ≠ x := only.ne_of_bind .iterator (by simp [Site.events]) (by simp)
    exact ⟨if_neg differs, by simp [Site.events, differs]⟩
  | forEach item target body range =>
    have differs : item.key ≠ x := only.ne_of_bind .iterator (by simp [Site.events]) (by simp)
    exact ⟨if_neg differs,
      by simp [Site.events, differs]⟩
  | whileDo condition body range => exact ⟨rfl, by simp [Site.events]⟩

/-- What a frame knows of an only assigned name after a part: what it knew, and what the part
assigns. -/
theorem Chunk.leaves_tells (c : Chunk) (passing : ∀ site ∈ c.sites, site.endsPath = false)
    (only : OnlyAssigned x (eventsOf c.sites)) {bound definite : Prop}
    (tells : slot.Tells bound definite) :
    (c.leaves x loopsBranch slot).Tells (¬ c.opens ∧ bound ∨ Bound x (eventsOf c.sites))
      (¬ c.opens ∧ definite ∨ x ∈ c.definite loopsBranch) := by
  induction c generalizing slot bound definite with
  | simple s simple =>
    rw [Chunk.leaves, Chunk.sites, Chunk.definite, Stmt.track_of_simple simple,
      Stmt.sites_of_simple simple, Stmt.definite_of_simple simple]
    refine tells.congr ?_ (by simp)
    simp [eventsOf, Site.events_of_simple simple]
  | assign a =>
    refine (tells.rebind a.name).congr ?_ (by simp [Chunk.definite, Stmt.definite, eq_comm])
    simp [Chunk.sites, Stmt.sites, eventsOf, Site.events]
  | dim name sizes range =>
    refine (tells.rebind name).congr ?_ (by simp [Chunk.definite, Stmt.definite, eq_comm])
    simp [Chunk.sites, Stmt.sites, eventsOf, Site.events]
  | ifThen i ih =>
    refine (tells.receive (ih passing only tells_none)).congr ?_ ?_ <;> simp <;> rfl
  | loop s body loops ih =>
    rw [Chunk.sites, loops.sites] at passing only ⊢
    obtain ⟨-, passingBody⟩ := forall_mem_cons.1 passing
    obtain ⟨shut, unbound⟩ := loops.not_bound (x := x) only.left
    have turned := (ih passingBody only.right tells_none).looped (.stmt s) loops.isLoop loopsBranch
    rw [Chunk.leaves, loops.track, shut, Chunk.definite, loops.mem_definite]
    refine (tells.receive turned).congr ?_ ?_
    · simp [Chunk.sites, unbound]
    · simp [Chunk.definite]
  | tryCatch body handler range tried caught =>
    obtain ⟨-, inner⟩ := forall_mem_cons.1 passing
    obtain ⟨passingBody, passingHandler⟩ := forall_mem_append.1 inner
    have bodyGoesOn : body.ends = false :=
      Chunk.not_ends_of_passing (.block .branches body) passingBody
    have handlerGoesOn : handler.ends = false :=
      Chunk.not_ends_of_passing (.handler handler) passingHandler
    rw [Chunk.sites, Stmt.sites, cons_append, eventsOf_cons, eventsOf_append] at only
    rw [Chunk.leaves, Stmt.track, bodyGoesOn, handlerGoesOn]
    have joined := (tried passingBody only.right.left tells_none).leaving_joined
      (caught passingHandler only.right.right tells_none)
      ⟨.stmt (.tryCatch body handler range), 2, false⟩ rfl rfl .plain
    refine (tells.receive joined).congr ?_ (by simp [Chunk.definite, Stmt.definite])
    simp [Chunk.sites, Stmt.sites, Site.events, Stmt.exprs]
  | nil =>
    refine tells.congr ?_ (by simp [Chunk.definite, Stmt.definiteAll])
    simp [Chunk.sites, Stmt.sitesAll, eventsOf]
  | cons s others here later =>
    obtain ⟨first, second⟩ := forall_mem_append.1 passing
    rw [Chunk.sites, Stmt.sitesAll, eventsOf_append] at only
    refine (later second only.right (here first only.left tells)).congr ?_ ?_
    · simp [Chunk.sites, Stmt.sitesAll, or_assoc]
    · simp [Chunk.definite, Stmt.definiteAll, or_assoc]
  | empty around range =>
    rw [Chunk.leaves, Block.leaves, leaving_of_one rfl rfl rfl]
    refine tells_none.congr ?_ ?_
    · simp [Chunk.sites, Block.sites, Stmt.sitesAll, eventsOf, Site.events]
    · simp [Chunk.definite, Block.definite, Stmt.definiteAll]
  | block around s others range ih =>
    obtain ⟨-, inner⟩ := forall_mem_cons.1 passing
    rw [Chunk.leaves_block,
      leaving_of_one rfl (Chunk.not_ends_of_passing (.stmts (s :: others)) inner) rfl]
    refine (ih inner only.right tells_none).congr ?_ ?_
    · simp [Chunk.sites, Block.sites, Site.events]
    · simp [Chunk.definite, Block.definite]
  | branch around condition onTrue onFalse range inline taken passed =>
    rw [Chunk.sites_branch] at passing only ⊢
    obtain ⟨-, inner⟩ := forall_mem_cons.1 passing
    obtain ⟨passingTrue, passingFalse⟩ := forall_mem_append.1 inner
    have trueGoesOn : onTrue.ends = false :=
      Chunk.not_ends_of_passing (.block .branches onTrue) passingTrue
    have falseGoesOn := onFalse.chunk.not_ends_of_passing passingFalse
    rw [eventsOf_cons, eventsOf_append] at only
    rw [Chunk.leaves_branch, trueGoesOn, ← Else.ends_chunk, falseGoesOn]
    refine ((taken passingTrue only.right.left tells_none).leaving_joined
      (passed passingFalse only.right.right tells_none) _ rfl rfl around).congr ?_ ?_
    · simp [Site.events]
    · rw [Else.definite_chunk]
      simp [Chunk.definite, If.definite]
  | handler caught body range ih =>
    obtain ⟨-, passingBody⟩ := forall_mem_cons.1 passing
    have notCaught : caught.filter (·.key = x) = none := by
      cases caught with
      | none => rfl
      | some name =>
        have differs : name.key ≠ x :=
          only.left.ne_of_bind .caughtError (by simp [Site.events]) (by simp)
        simp [Option.filter, differs]
    have unbound : ¬ Bound x (Site.events (.handler ⟨caught, body, range⟩)) := by
      rintro ⟨name, role, member, same⟩
      obtain ⟨other, isCaught, equal⟩ := mem_map.1 member
      cases equal
      exact only.left.ne_of_bind _ member (by simp) same
    have received := tells_none.receive (ih passingBody only.right tells_none)
    rw [Chunk.leaves_handler, leaving_handler, opening_handler, notCaught, Option.map_none,
      received.filter_lasting]
    refine received.congr ?_ (by simp [Chunk.definite, Catch.definite])
    simp [Chunk.sites, Catch.sites, unbound]
  | nothing =>
    refine tells_none.congr ?_ (by simp [Chunk.definite])
    simp [Chunk.sites, eventsOf]

end

/-! ## Names that are never assigned -/

section

variable {x : String} {a b : List Event}

@[simp] theorem iterated_append : Iterated x (a ++ b) ↔ Iterated x a ∨ Iterated x b := by
  simp only [Iterated, mem_append, or_and_right, exists_or]

@[simp] theorem not_iterated_reads (es : List Expr) : ¬ Iterated x (readEvents es) := by
  rintro ⟨name, member, -⟩
  simp [readEvents] at member

@[simp] theorem iterated_bind_cons (name : Ident) (role : Role) :
    Iterated x (.bind name role :: b) ↔ (role = .iterator ∧ name.key = x) ∨ Iterated x b := by
  simp [Iterated, or_and_right, exists_or, and_assoc, eq_comm]

@[simp] theorem not_iterated_nil : ¬ Iterated x [] := by
  rintro ⟨name, member, -⟩
  cases member

@[simp] theorem not_iterated_caught (caught : Option Ident) :
    ¬ Iterated x (caught.toList.map (.bind · .caughtError)) := by
  rintro ⟨name, member, -⟩
  simp at member

end

namespace Slot

/-- The slot of a name that only loops bind. -/
structure Iterates (iterated : Prop) (slot : Slot) : Prop where
  filled : slot.isSome ↔ iterated
  role : ∀ e, slot = some e → e.role = .iterator

/-- Outside of its loop such a name is not settled. -/
structure Loose (iterated : Prop) (slot : Slot) : Prop extends Iterates iterated slot where
  unsettled : ∀ e, slot = some e → e.unsettled

variable {x : String} {outer inner first second : Slot} {iterated iterated' : Prop}

theorem loose_none : Loose False none :=
  ⟨⟨by simp, fun _ found => (by cases found)⟩, fun _ found => (by cases found)⟩

theorem Iterates.congr (iterates : slot.Iterates iterated) (same : iterated ↔ iterated') :
    slot.Iterates iterated' :=
  ⟨iterates.filled.trans same, iterates.role⟩

theorem Loose.congr (loose : slot.Loose iterated) (same : iterated ↔ iterated') :
    slot.Loose iterated' :=
  ⟨loose.toIterates.congr same, loose.unsettled⟩

/-- Whatever leaves a loop is not settled in the frame around. -/
theorem Loose.receive (outside : outer.Loose iterated) (inside : inner.Iterates iterated')
    (branches : Bool) : (outer.receive branches false inner).Loose (iterated ∨ iterated') := by
  cases inner with
  | none =>
    have nothing : ¬ iterated' := by simpa using inside.filled
    exact outside.congr (by simp [nothing])
  | some e =>
    have isIterated : iterated' := inside.filled.1 rfl
    have role := inside.role e rfl
    cases outer with
    | none =>
      refine ⟨⟨by simp [receive, isIterated], ?_⟩, ?_⟩
      · rintro _ ⟨⟩
        exact role
      · rintro _ ⟨⟩
        simp [Entry.moveOut, role]
    | some o =>
      have outerRole := outside.role o rfl
      have unsettled := outside.unsettled o rfl
      refine ⟨⟨by simp [receive, isIterated], ?_⟩, ?_⟩
      · rintro _ ⟨⟩
        simp [Entry.moveOut, outerRole]
      · rintro _ ⟨⟩
        simp [Entry.moveOut, role, unsettled]

theorem Iterates.counted (iterates : slot.Iterates iterated) (paths : Int) :
    Iterates iterated (slot.map (Entry.countBranches paths)) := by
  refine ⟨by simpa using iterates.filled, fun e found => ?_⟩
  obtain ⟨o, filled, rfl⟩ := Option.map_eq_some_iff.1 found
  exact iterates.role o filled

theorem Loose.counted (loose : slot.Loose iterated) (paths : Int) :
    Loose iterated (slot.map (Entry.countBranches paths)) := by
  refine ⟨loose.toIterates.counted paths, fun e found => ?_⟩
  obtain ⟨o, filled, rfl⟩ := Option.map_eq_some_iff.1 found
  simp [Entry.countBranches, loose.unsettled o filled]

theorem Loose.leaving_joined (one : first.Loose iterated) (other : second.Iterates iterated')
    (closed : FrameShape) (two : closed.paths = 2) (notHandler : closed.site.isHandler = false)
    (around : Around) :
    (leaving closed around (joined first second)).Loose (iterated ∨ iterated') := by
  rw [leaving_of_two two notHandler]
  have started := loose_none.receive one.toIterates true
  exact ((started.receive other true).counted 2).congr (by simp)

/-- The frame of a loop starts with its own variable, which is settled there. -/
theorem Loose.looped (body : inner.Loose iterated') (opening : outer.Iterates iterated)
    (site : Site) (isLoop : site.isLoop) (loopsBranch : Bool) :
    (looped site loopsBranch outer inner).Iterates (iterated ∨ iterated') := by
  have notHandler : site.isHandler = false := Site.not_handler_of_loop isLoop
  have received : (outer.receive false false inner).Iterates (iterated ∨ iterated') := by
    cases inner with
    | none =>
      have nothing : ¬ iterated' := by simpa using body.filled
      exact opening.congr (by simp [nothing])
    | some e =>
      have isIterated : iterated' := body.filled.1 rfl
      have role := body.role e rfl
      refine ⟨by simp [Slot.receive, isIterated], ?_⟩
      rintro _ ⟨⟩
      cases outer with
      | none => exact role
      | some o => simp [Entry.moveOut, role]
  unfold Slot.looped
  cases loopsBranch with
  | false =>
    rw [leaving_of_one (Site.paths_of_loop isLoop false) rfl notHandler]
    exact received
  | true =>
    rw [leaving_of_two (Site.paths_of_loop isLoop true) notHandler]
    exact received.counted 2

theorem iterates_rebind (x : String) (name : Ident) :
    (rebind x name .iterator none).Iterates (name.key = x) := by
  unfold rebind
  split
  · next same => exact ⟨by simp [same], by rintro _ ⟨⟩; rfl⟩
  · next differs => exact ⟨by simp [differs], fun _ found => (by cases found)⟩

/-- A caught error ends with its handler, whatever was made of it there. -/
theorem Loose.leaving_caught (body : inner.Loose iterated) (c : Catch) (ends : Bool) :
    (Slot.leaving ⟨.handler c, Walk.pathsAfter 1 ends, false⟩ .branches
      (Slot.receive (Slot.opening x (.handler c)) false false inner)).Iterates iterated := by
  obtain ⟨caught, block, range⟩ := c
  rw [leaving_handler, opening_handler]
  cases inner with
  | none =>
    have nothing : ¬ iterated := by simpa using body.filled
    have gone : Option.filter (fun e : Entry => e.role ≠ .caughtError)
        (Slot.receive ((caught.filter (·.key = x)).map (.fresh · .caughtError)) false false none) =
        none := by
      cases caught.filter (·.key = x) <;> rfl
    rw [gone]
    exact loose_none.toIterates.congr (by simp [nothing])
  | some e =>
    have isIterated : iterated := body.filled.1 rfl
    have role := body.role e rfl
    cases caught.filter (·.key = x) with
    | none =>
      refine ⟨by simp [Slot.receive, Entry.moveOut, role, isIterated], fun o kept => ?_⟩
      obtain ⟨received, -⟩ := Option.filter_eq_some_iff.1 kept
      cases received
      exact role
    | some name =>
      refine ⟨by simp [Slot.receive, Entry.moveOut, Entry.fresh, role, isIterated], fun o kept => ?_⟩
      obtain ⟨received, -⟩ := Option.filter_eq_some_iff.1 kept
      cases received
      simp [Entry.moveOut, Entry.fresh, role]

end Slot

/-- What a part leaves of a name that only loops bind: only a handler may settle it. -/
def Chunk.Loose (iterated : Prop) (slot : Slot) : Chunk → Prop
  | .handler _ => slot.Iterates iterated
  | _ => slot.Loose iterated

theorem Else.loose_chunk {e : Else} {iterated : Prop}
    (loose : e.chunk.Loose iterated slot) : slot.Loose iterated := by
  cases e <;> exact loose

section

variable {x : String} (loopsBranch : Bool)

theorem Stmt.Loops.iterates (loops : s.Loops body) :
    (s.enteredSlot x).Iterates (Iterated x (Site.stmt s).events) := by
  cases loops with
  | forTo counter limit stride body range =>
    exact (iterates_rebind x counter.name).congr (by simp [Site.events])
  | forEach item target body range =>
    exact (iterates_rebind x item).congr (by simp [Site.events])
  | whileDo condition body range =>
    exact loose_none.toIterates.congr (by simp [Site.events])

/-- A name that is never assigned stays unsettled in every frame but those of its loops. -/
theorem Chunk.leaves_loose (c : Chunk) (passing : ∀ site ∈ c.sites, site.endsPath = false)
    (unassigned : ¬ Assigned x (eventsOf c.sites)) {iterated : Prop} (loose : slot.Loose iterated) :
    c.Loose (¬ c.opens ∧ iterated ∨ Iterated x (eventsOf c.sites)) (c.leaves x loopsBranch slot) := by
  induction c generalizing slot iterated with
  | simple s simple =>
    rw [Chunk.leaves, Chunk.sites, Stmt.track_of_simple simple, Stmt.sites_of_simple simple]
    exact loose.congr (by simp [eventsOf, Site.events_of_simple simple])
  | assign a =>
    have differs : a.name.key ≠ x := fun same =>
      unassigned ⟨a.name, by simp [Chunk.sites, Stmt.sites, eventsOf, Site.events], same⟩
    rw [Chunk.leaves, Stmt.track, rebind, if_neg differs]
    exact loose.congr (by simp [Chunk.sites, Stmt.sites, eventsOf, Site.events])
  | dim name sizes range =>
    have differs : name.key ≠ x := fun same =>
      unassigned ⟨name, by simp [Chunk.sites, Stmt.sites, eventsOf, Site.events], same⟩
    rw [Chunk.leaves, Stmt.track, rebind, if_neg differs]
    exact loose.congr (by simp [Chunk.sites, Stmt.sites, eventsOf, Site.events])
  | ifThen i ih =>
    have inside : Slot.Loose _ _ := ih passing unassigned loose_none
    exact (loose.receive inside.toIterates false).congr (by simp; rfl)
  | loop s body loops ih =>
    rw [Chunk.sites, loops.sites] at passing unassigned ⊢
    obtain ⟨-, passingBody⟩ := forall_mem_cons.1 passing
    have inside : Slot.Loose _ _ := ih passingBody (not_assigned_append.1 unassigned).2 loose_none
    have turned := inside.looped (loops.iterates (x := x)) (.stmt s) loops.isLoop loopsBranch
    rw [Chunk.leaves, loops.track]
    exact (loose.receive turned false).congr (by simp [Chunk.sites])
  | tryCatch body handler range tried caught =>
    obtain ⟨-, inner⟩ := forall_mem_cons.1 passing
    obtain ⟨passingBody, passingHandler⟩ := forall_mem_append.1 inner
    have bodyGoesOn : body.ends = false :=
      Chunk.not_ends_of_passing (.block .branches body) passingBody
    have handlerGoesOn : handler.ends = false :=
      Chunk.not_ends_of_passing (.handler handler) passingHandler
    rw [Chunk.sites, Stmt.sites, cons_append, eventsOf_cons, eventsOf_append] at unassigned
    have within := (not_assigned_append.1 unassigned).2
    rw [Chunk.leaves, Stmt.track, bodyGoesOn, handlerGoesOn]
    have inBody : Slot.Loose _ _ := tried passingBody (not_assigned_append.1 within).1 loose_none
    have joined := inBody.leaving_joined
      (caught passingHandler (not_assigned_append.1 within).2 loose_none)
      ⟨.stmt (.tryCatch body handler range), 2, false⟩ rfl rfl .plain
    exact (loose.receive joined.toIterates false).congr (by
      simp [Chunk.sites, Stmt.sites, Site.events])
  | nil => exact loose.congr (by simp [Chunk.sites, Stmt.sitesAll, eventsOf])
  | cons s others here later =>
    obtain ⟨first, second⟩ := forall_mem_append.1 passing
    rw [Chunk.sites, Stmt.sitesAll, eventsOf_append] at unassigned
    have both : Slot.Loose _ _ :=
      later second (not_assigned_append.1 unassigned).2
        (here first (not_assigned_append.1 unassigned).1 loose)
    exact both.congr (by simp [Chunk.sites, Stmt.sitesAll, or_assoc])
  | empty around range =>
    rw [Chunk.leaves, Block.leaves, leaving_of_one rfl rfl rfl]
    exact loose_none.congr (by
      simp [Chunk.sites, Block.sites, Stmt.sitesAll, eventsOf, Site.events])
  | block around s others range ih =>
    obtain ⟨-, inner⟩ := forall_mem_cons.1 passing
    rw [Chunk.leaves_block,
      leaving_of_one rfl (Chunk.not_ends_of_passing (.stmts (s :: others)) inner) rfl]
    have inside : Slot.Loose _ _ := ih inner unassigned loose_none
    exact inside.congr (by simp [Chunk.sites, Block.sites, Site.events])
  | branch around condition onTrue onFalse range inline taken passed =>
    rw [Chunk.sites_branch] at passing unassigned ⊢
    obtain ⟨-, inner⟩ := forall_mem_cons.1 passing
    obtain ⟨passingTrue, passingFalse⟩ := forall_mem_append.1 inner
    have trueGoesOn : onTrue.ends = false :=
      Chunk.not_ends_of_passing (.block .branches onTrue) passingTrue
    have falseGoesOn := onFalse.chunk.not_ends_of_passing passingFalse
    rw [eventsOf_cons, eventsOf_append] at unassigned
    have within := (not_assigned_append.1 unassigned).2
    have inTrue : Slot.Loose _ _ := taken passingTrue (not_assigned_append.1 within).1 loose_none
    have inFalse := Else.loose_chunk (passed passingFalse (not_assigned_append.1 within).2 loose_none)
    rw [Chunk.leaves_branch, trueGoesOn, ← Else.ends_chunk, falseGoesOn]
    exact (inTrue.leaving_joined inFalse.toIterates _ rfl rfl around).congr
      (by simp [Site.events])
  | handler caught body range ih =>
    obtain ⟨-, passingBody⟩ := forall_mem_cons.1 passing
    have inside : Slot.Loose _ _ := ih passingBody (not_assigned_append.1 unassigned).2 Slot.loose_none
    exact (inside.leaving_caught ⟨caught, body, range⟩ body.ends).congr (by
      simp [Chunk.sites, Catch.sites, Site.events])
  | nothing => exact loose_none.congr (by simp [Chunk.sites, eventsOf])

end

section

variable {x : String} (loopsBranch : Bool) (b : Block)
  (passing : ∀ site ∈ b.sites, site.endsPath = false)

include passing

theorem Block.trackAll_tells (only : OnlyAssigned x (eventsOf b.sites)) :
    (Stmt.trackAll x loopsBranch b.statements none).Tells (Bound x (eventsOf b.sites))
      (x ∈ b.definite loopsBranch) := by
  cases b with
  | mk statements range =>
    obtain ⟨-, inner⟩ := forall_mem_cons.1 passing
    refine (Chunk.leaves_tells loopsBranch (.stmts statements) inner only.right tells_none).congr
      ?_ ?_
    · simp [Chunk.sites, Block.sites, Site.events]
    · simp [Chunk.definite, Block.definite]

theorem Block.trackAll_loose (unassigned : ¬ Assigned x (eventsOf b.sites)) :
    (Stmt.trackAll x loopsBranch b.statements none).Loose (Iterated x (eventsOf b.sites)) := by
  cases b with
  | mk statements range =>
    obtain ⟨-, inner⟩ := forall_mem_cons.1 passing
    have inside : Slot.Loose _ _ :=
      Chunk.leaves_loose loopsBranch (.stmts statements) inner unassigned loose_none
    exact inside.congr (by simp [Chunk.sites, Block.sites, Site.events])

end

/-! ## The locals of a function -/

/-- The condition of an `if` compares some name with `invalid`. -/
def Site.testsSome : Site → Bool
  | .stmt (.ifThen branch) => (branch.condition.preorder none).any fun node =>
      (nodeReads node).isSome && (Walk.comparedValidity? node.2).join.isSome
  | _ => false

theorem Site.watchable_of_untested (straight : site.isGoto = false)
    (untested : site.testsSome = false) (x : String) : site.watchable x := by
  have nothing : site.testsValidity x = false := by
    unfold Site.testsSome at untested
    unfold Site.testsValidity
    split
    · rw [Expr.testsValidity, any_eq_false]
      intro node member
      have unread := any_eq_false.1 untested node member
      unfold ChannelLint.testsValidity
      unfold nodeReads at unread
      split <;> simp_all
    · rfl
  simp [Site.watchable, straight, nothing]

namespace Func

variable {f : Func} {x : String}

theorem contains_of_not_isLocal (given : ¬ f.isLocal x) : (Walk.paramBindings f).contains x := by
  by_cases same : x = "m"
  · exact (f.contains_paramBindings x).2 (.inl same)
  · simpa [isLocal, same] using given

/-- The outermost frame never binds a parameter. -/
theorem last_find?_of_param (loopsBranch : Bool) {last : Frame}
    (stack : (f.bodyWalk loopsBranch).stack = [last]) (given : ¬ f.isLocal x) :
    last.locals.find? x = none := by
  obtain ⟨visited, inOrder⟩ := f.bodyWalk_isTidy loopsBranch
  have filed := (inOrder.frames last (by simp [stack])).filed
  refine (OrderedMap.find?_eq_none_iff _ _).2 fun bound => ?_
  obtain ⟨entry, member, rfl⟩ := mem_map.1 bound
  have free : f.given.find? entry.1 = none := (filed.stored entry member).free
  have unbound : f.given.contains entry.1 = false := by simp [OrderedMap.contains, free]
  have known := contains_of_not_isLocal given
  rw [Func.given, OrderedMap.contains_map, known] at unbound
  cases unbound

/-- What the outermost frame holds of a name, its mark of use aside. -/
theorem last_slot (loopsBranch : Bool) {last : Frame}
    (stack : (f.bodyWalk loopsBranch).stack = [last]) (own : f.isLocal x)
    (watchable : ∀ site ∈ f.body.sites, site.watchable x) :
    (last.locals.find? x).map (fun b => b.entry.bare) =
      Stmt.trackAll x loopsBranch f.body.statements none := by
  have walked : (f.watch x loopsBranch).bare =
      [Stmt.trackAll x loopsBranch f.body.statements none] :=
    Chunk.watch_bare loopsBranch (.stmts f.body.statements) rfl
  rw [← (bodyWalk_watch loopsBranch own watchable).1] at walked
  simpa [Watch.bare, Walk.watch, stack, bare, Frame.slot, Function.comp_def] using walked

/-- When a function without returns and throws closes, its locals are the names that its body assigns
or iterates over. A name that is iterated over is unsettled, and any other name is settled exactly if
the body assigns it for sure. -/
theorem locals_of_last (f : Func) (loopsBranch : Bool)
    (passing : ∀ site ∈ f.body.sites, site.endsPath = false)
    (straight : ∀ site ∈ f.body.sites, site.isGoto = false)
    (untested : ∀ site ∈ f.body.sites, site.testsSome = false)
    (separate : ∀ x, Assigned x (eventsOf f.body.sites) → OnlyAssigned x (eventsOf f.body.sites)) :
    ∃ last, (f.flow loopsBranch).closings.getLast? = some ⟨last, none⟩ ∧
      (∀ x, x ∈ last.locals.keys ↔ f.isLocal x ∧
        (Assigned x (eventsOf f.body.sites) ∨ Iterated x (eventsOf f.body.sites))) ∧
      ∀ x b, last.locals.find? x = some b →
        (b.role = .iterator ↔ Iterated x (eventsOf f.body.sites)) ∧
        (b.role = .iterator → b.unsettled) ∧
        (b.role ≠ .iterator → (b.unsettled = false ↔ x ∈ f.body.definite loopsBranch)) := by
  obtain ⟨last, stack, -, closed⟩ := f.flow_eq loopsBranch
  have watchable : ∀ x, ∀ site ∈ f.body.sites, site.watchable x := fun x site member =>
    Site.watchable_of_untested (straight site member) (untested site member) x
  have inLocals : ∀ x, x ∈ last.locals.keys ↔ (last.locals.find? x).isSome := fun x => by
    rw [← not_iff_not, ← OrderedMap.find?_eq_none_iff, Option.isSome_iff_ne_none, not_not]
  refine ⟨last, by simp [closed], fun x => ?_, fun x b found => ?_⟩
  · rw [inLocals]
    by_cases own : f.isLocal x
    -- a name is either assigned and then bound in no other way, or never assigned
    · have slot := last_slot loopsBranch stack own (watchable x)
      by_cases assigned : Assigned x (eventsOf f.body.sites)
      · have tells := f.body.trackAll_tells loopsBranch passing (separate x assigned)
        obtain ⟨name, member, same⟩ := assigned
        have filled := tells.filled.2 ⟨name, .plain, member, same⟩
        rw [← slot, Option.isSome_map] at filled
        exact iff_of_true filled ⟨own, .inl ⟨name, member, same⟩⟩
      · have loose := f.body.trackAll_loose loopsBranch passing assigned
        simpa [own, assigned, ← slot] using loose.filled
    · simp [last_find?_of_param loopsBranch stack own, own]
  · have own : f.isLocal x := by
      by_contra given
      simp [last_find?_of_param loopsBranch stack given] at found
    have slot := last_slot loopsBranch stack own (watchable x)
    rw [found, Option.map_some] at slot
    by_cases assigned : Assigned x (eventsOf f.body.sites)
    · have only := separate x assigned
      have tells := f.body.trackAll_tells loopsBranch passing only
      have role : b.role = .plain := tells.plain _ slot.symm
      have notIterated : ¬ Iterated x (eventsOf f.body.sites) := fun ⟨name, member, same⟩ =>
        only.ne_of_bind .iterator member (by simp) same
      refine ⟨by simp [role, notIterated], by simp [role], fun _ => ?_⟩
      simpa [← slot, isSettled, Entry.bare, Binding.entry] using tells.settled
    · have loose := f.body.trackAll_loose loopsBranch passing assigned
      have role : b.role = .iterator := loose.role _ slot.symm
      have iterated := loose.filled.1 (by simp [← slot])
      exact ⟨by simp [role, iterated], fun _ => loose.unsettled _ slot.symm, absurd role⟩

/-- `x` is assigned in both branches and `y` in one; then a loop over `i` assigns `z`, and a body and
its handler both assign `w`. -/
def assignedInBranches : Func :=
  let flag := Expr.var ⟨"c", .empty⟩ false
  let assigning (names : List String) : Block :=
    ⟨names.map fun name => .assign ⟨⟨name, .empty⟩, flag, .empty, none⟩, .empty⟩
  .sub ["c"] [
    .ifThen ⟨flag, assigning ["x", "y"], .block (assigning ["X"]), .empty, false⟩,
    .forEach ⟨"i", .empty⟩ flag (assigning ["z"]) .empty,
    .tryCatch (assigning ["w"]) ⟨some ⟨"e", .empty⟩, assigning ["w"], .empty⟩ .empty]

theorem locals_of_last_assignedInBranches : assignedInBranches.body.definite true = {"x", "w"} ∧
      assignedInBranches.body.definite false = {"x", "z", "w"} ∧
      ∀ loopsBranch, ∃ last,
        (assignedInBranches.flow loopsBranch).closings.getLast? = some ⟨last, none⟩ ∧
        (∀ x, x ∈ last.locals.keys ↔ assignedInBranches.isLocal x ∧
          (Assigned x (eventsOf assignedInBranches.body.sites) ∨
            Iterated x (eventsOf assignedInBranches.body.sites))) ∧
        ∀ b, last.locals.find? "z" = some b → b.role ≠ .iterator →
          (b.unsettled = false ↔ loopsBranch = false) := by
  have passing : ∀ site ∈ assignedInBranches.body.sites, site.endsPath = false := by decide
  have straight : ∀ site ∈ assignedInBranches.body.sites, site.isGoto = false := by decide
  have untested : ∀ site ∈ assignedInBranches.body.sites, site.testsSome = false := by decide
  have separate : ∀ x, Assigned x (eventsOf assignedInBranches.body.sites) →
      OnlyAssigned x (eventsOf assignedInBranches.body.sites) := by
    let binds := (eventsOf assignedInBranches.body.sites).filterMap fun
      | .bind name role => some (name, role)
      | .read _ => none
    have table : ∀ a ∈ binds, ∀ b ∈ binds, a.2 = .plain → b.1.key = a.1.key → b.2 = .plain := by
      decide
    rintro x ⟨name, member, rfl⟩ other role another same
    exact table (name, .plain) (mem_filterMap.2 ⟨_, member, rfl⟩) (other, role)
      (mem_filterMap.2 ⟨_, another, rfl⟩) rfl same
  have firm : assignedInBranches.body.definite true = {"x", "w"} := by decide
  have looped : assignedInBranches.body.definite false = {"x", "z", "w"} := by decide
  refine ⟨firm, looped, fun loopsBranch => ?_⟩
  obtain ⟨last, closed, keys, settled⟩ :=
    locals_of_last assignedInBranches loopsBranch passing straight untested separate
  refine ⟨last, closed, keys, fun b found role => ?_⟩
  rw [(settled "z" b found).2.2 role]
  cases loopsBranch <;> simp [firm, looped]

end Func

end ChannelLint
