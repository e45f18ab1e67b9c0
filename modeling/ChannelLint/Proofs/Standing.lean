import ChannelLint.Proofs.Watch.Agree

/-!
# What a statement leaves behind

Whether a binding was read does not change how it moves from frame to frame. Without the marks of use
each statement has the same effect wherever it stands: it leaves a binding to the frame around it, or
nothing, and the frames further out stay as they are. `Stmt.track` is that effect on the frame
around, and `Block.leaves` what comes out of a block.
-/
namespace ChannelLint

open List Slot

variable {s : Stmt} {body : Block} {x : String} {around : Around} {closed : FrameShape}

def Entry.bare (e : Entry) : Entry :=
  { e with used := false }

namespace Slot

/-- A slot without the mark of use. -/
def bare (slot : Slot) : Slot :=
  slot.map Entry.bare

def rebind (x : String) (name : Ident) (role : Role) (slot : Slot) : Slot :=
  if name.key = x then some (.fresh name role) else slot

/-- What two branches leave in the frame that holds them. -/
def joined (first second : Slot) : Slot :=
  receive (receive none true false first) true false second

/-- What comes out of a loop whose frame starts with `opening`. -/
def looped (site : Site) (loopsBranch : Bool) (opening body : Slot) : Slot :=
  leaving ⟨site, site.paths loopsBranch, false⟩ .plain (receive opening false false body)

end Slot

section

variable (x : String) (loopsBranch : Bool)

mutual

/-- The binding in the frame around a statement, after the statement. -/
def Stmt.track : Stmt → Slot → Slot
  | .assign a, slot => slot.rebind x a.name .plain
  | .dim name _ _, slot => slot.rebind x name .plain
  | .ifThen branch, slot => slot.receive false false (branch.leaves .plain)
  | .forTo counter limit stride body range, slot =>
    slot.receive false false (looped (.stmt (.forTo counter limit stride body range)) loopsBranch
      (rebind x counter.name .iterator none) (body.leaves .plain))
  | .forEach item target body range, slot =>
    slot.receive false false (looped (.stmt (.forEach item target body range)) loopsBranch
      (rebind x item .iterator none) (body.leaves .plain))
  | .whileDo condition body range, slot =>
    slot.receive false false (looped (.stmt (.whileDo condition body range)) loopsBranch
      none (body.leaves .plain))
  | .tryCatch body handler range, slot =>
    slot.receive false false (leaving ⟨.stmt (.tryCatch body handler range),
        Walk.pathsAfter (Walk.pathsAfter 2 body.ends) handler.ends, handler.ends⟩ .plain
      (joined (body.leaves .branches) handler.leaves))
  | _, slot => slot

def Stmt.trackAll : List Stmt → Slot → Slot
  | [], slot => slot
  | s :: rest, slot => Stmt.trackAll rest (s.track slot)

/-- The binding that leaves a block. -/
def Block.leaves (around : Around) : Block → Slot
  | ⟨statements, range⟩ =>
    leaving ⟨.block ⟨statements, range⟩, 1, Stmt.endsAny statements⟩ around
      (Stmt.trackAll statements none)

def If.leaves (around : Around) : If → Slot
  | ⟨condition, onTrue, onFalse, range, inline⟩ =>
    leaving ⟨.stmt (.ifThen ⟨condition, onTrue, onFalse, range, inline⟩),
        Walk.pathsAfter (Walk.pathsAfter 2 onTrue.ends) onFalse.ends, Walk.endsNested onFalse⟩ around
      (joined (onTrue.leaves .branches) onFalse.leaves)

def Else.leaves : Else → Slot
  | .absent => none
  | .block body => body.leaves .branches
  | .elseIf branch => branch.leaves .branches

def Catch.leaves : Catch → Slot
  | ⟨caught, body, range⟩ =>
    let site := Site.handler ⟨caught, body, range⟩
    leaving ⟨site, Walk.pathsAfter 1 body.ends, false⟩ .branches
      (receive (opening x site) false false (body.leaves .handler))

end

end

section

variable (x : String) (loopsBranch : Bool)

/-- The binding that comes out of a part. Only statements see the binding in the frame around. -/
def Chunk.leaves : Chunk → Slot → Slot
  | .stmt s, slot => s.track x loopsBranch slot
  | .stmts statements, slot => Stmt.trackAll x loopsBranch statements slot
  | .block around b, _ => b.leaves x loopsBranch around
  | .branch around i, _ => i.leaves x loopsBranch around
  | .handler c, _ => c.leaves x loopsBranch
  | .nothing, _ => none

theorem Else.leaves_chunk (e : Else) (slot : Slot) :
    e.chunk.leaves x loopsBranch slot = e.leaves x loopsBranch := by
  cases e <;> rfl

theorem Chunk.leaves_block (around : Around) (s : Stmt) (others : List Stmt) (range : Range)
    (slot : Slot) : (Chunk.block around ⟨s :: others, range⟩).leaves x loopsBranch slot =
      leaving ⟨.block ⟨s :: others, range⟩, 1, Stmt.endsAny (s :: others)⟩ around
        ((Chunk.stmts (s :: others)).leaves x loopsBranch none) :=
  rfl

theorem Chunk.leaves_branch (around : Around) (condition : Expr) (onTrue : Block) (onFalse : Else)
    (range : Range) (inline : Bool) (slot : Slot) :
    (Chunk.branch around ⟨condition, onTrue, onFalse, range, inline⟩).leaves x loopsBranch slot =
      leaving ⟨.stmt (.ifThen ⟨condition, onTrue, onFalse, range, inline⟩),
          Walk.pathsAfter (Walk.pathsAfter 2 onTrue.ends) onFalse.ends, Walk.endsNested onFalse⟩
        around (joined ((Chunk.block .branches onTrue).leaves x loopsBranch none)
          (onFalse.chunk.leaves x loopsBranch none)) := by
  cases onFalse <;> rfl

theorem Chunk.leaves_handler (caught : Option Ident) (body : Block) (range : Range) (slot : Slot) :
    (Chunk.handler ⟨caught, body, range⟩).leaves x loopsBranch slot =
      leaving ⟨.handler ⟨caught, body, range⟩, Walk.pathsAfter 1 body.ends, false⟩ .branches
        (receive (opening x (.handler ⟨caught, body, range⟩)) false false
          ((Chunk.block .handler body).leaves x loopsBranch none)) :=
  rfl

/-- The binding in the frame around a part, after the part. -/
def Chunk.track : Chunk → Slot → Slot
  | .stmt s, slot => s.track x loopsBranch slot
  | .stmts statements, slot => Stmt.trackAll x loopsBranch statements slot
  | .block around b, slot =>
    slot.receive (around = .branches) false (b.leaves x loopsBranch around)
  | .branch around i, slot =>
    slot.receive (around = .branches) false (i.leaves x loopsBranch around)
  | .handler c, slot => slot.receive true false (c.leaves x loopsBranch)
  | .nothing, slot => slot

theorem Else.track_chunk (e : Else) (slot : Slot) : e.chunk.track x loopsBranch slot =
    slot.receive true false (e.chunk.leaves x loopsBranch none) := by
  cases e <;> rfl

/-- The binding in the frame of a loop at the beginning of its body. -/
def Stmt.enteredSlot : Stmt → Slot
  | .forTo counter .. => rebind x counter.name .iterator none
  | .forEach item .. => rebind x item .iterator none
  | _ => none

theorem Stmt.Loops.track (loops : s.Loops body) (slot : Slot) :
    s.track x loopsBranch slot = slot.receive false false
      (looped (.stmt s) loopsBranch (s.enteredSlot x) (body.leaves x loopsBranch .plain)) := by
  cases loops <;> rfl

end

theorem Stmt.track_of_simple {loopsBranch : Bool} (simple : s.isSimple)
    (slot : Slot) : s.track x loopsBranch slot = slot := by
  cases s <;> first | rfl | cases simple

/-! ## The watch without marks of use -/

namespace Slot

theorem bare_mark (specific : Bool) (stack : List Slot) :
    (mark specific stack).map bare = stack.map bare := by
  induction stack generalizing specific with
  | nil => rfl
  | cons slot rest ih =>
    cases slot with
    | none => simp [mark, ih]
    | some e =>
      unfold mark
      split
      · rfl
      · simp [ih, bare, Entry.bare]

theorem bare_fresh (name : Ident) (role : Role) :
    bare (some (.fresh name role)) = some (.fresh name role) :=
  rfl

theorem bare_opening (x : String) (site : Site) : (opening x site).bare = opening x site := by
  unfold opening
  split
  · split <;> rfl
  · split <;> rfl
  · rfl

theorem bare_outliving (closed : FrameShape) (around : Around) (slot : Slot) :
    (outliving closed around slot).bare = outliving closed around slot.bare := by
  unfold outliving
  split
  · cases slot <;> rfl
  · split <;> rfl

theorem bare_leaving (closed : FrameShape) (around : Around) (slot : Slot) :
    (leaving closed around slot).bare = leaving closed around slot.bare := by
  unfold leaving
  rw [← bare_outliving]
  split
  · cases outliving closed around slot with
    | none => rfl
    | some e =>
      simp only [bare, Option.map_some, Option.filter_some, Entry.bare]
      split <;> rfl
  · rfl

theorem bare_receive (outer : Slot) (branches usedBefore : Bool) (inner : Slot) :
    (receive outer branches usedBefore inner).bare =
      receive outer.bare branches false inner.bare := by
  cases inner with
  | none => rfl
  | some e => cases outer <;> simp [receive, bare, Entry.bare, Entry.moveOut]

end Slot

namespace Watch

variable {v : Watch} {slot outer : Slot} {rest : List Slot}

/-- The slots of the open frames without marks of use. -/
def bare (v : Watch) : List Slot :=
  v.stack.map Slot.bare

theorem bare_readName (v : Watch) (name : Ident) : (v.readName name).bare = v.bare := by
  unfold readName
  split
  · rfl
  · exact Slot.bare_mark true v.stack

theorem bare_read (bare : v.bare = rest) (x : String) (names : List Ident) :
    (v.read x names).bare = rest := by
  unfold read
  induction names.filter (·.key = x) generalizing v with
  | nil => exact bare
  | cons name others ih => exact ih ((bare_readName v name).trans bare)

theorem bare_bind (bare : v.bare = slot :: rest) (name : Ident) (role : Role) :
    (v.bind x name role).bare = slot.rebind x name role :: rest := by
  unfold bind Slot.rebind
  obtain ⟨top, tail, stack, rfl, rfl⟩ := map_eq_cons_iff.1 bare
  split
  · simp [Watch.bare, stack, bare_fresh]
  · exact bare

theorem bare_push (bare : v.bare = rest) (slot : Slot) :
    (v.push slot).bare = slot.bare :: rest := by
  simp [push, Watch.bare, ← bare]

theorem bare_close (bare : v.bare = slot :: outer :: rest) (closed : FrameShape) (around : Around) :
    (v.close closed around).bare =
      outer.receive (around = .branches) false (Slot.leaving closed around slot) :: rest := by
  obtain ⟨top, tail, stack, rfl, others⟩ := map_eq_cons_iff.1 bare
  obtain ⟨next, last, rfl, rfl, rfl⟩ := map_eq_cons_iff.1 others
  simp [close, stack, Watch.bare, bare_receive, bare_leaving]

end Watch

section

variable (loopsBranch : Bool)

theorem Stmt.Loops.entered_bare (loops : s.Loops body) {v : Watch}
    {rest : List Slot} (bare : v.bare = rest) :
    (s.enteredWatch x v).bare = s.enteredSlot x :: rest := by
  cases loops with
  | forTo counter limit stride body range =>
    exact Watch.bare_read (Watch.bare_bind (Watch.bare_read (Watch.bare_push bare none) x _) _ _) x _
  | forEach item target body range =>
    have opened := Watch.bare_push (Watch.bare_read bare x (readsOf [target]))
      (opening x (.stmt (.forEach item target body range)))
    rw [bare_opening] at opened
    exact opened
  | whileDo condition body range => exact Watch.bare_push (Watch.bare_read bare x _) none

theorem Chunk.watch_bare (c : Chunk) {v : Watch} {slot : Slot} {rest : List Slot}
    (bare : v.bare = slot :: rest) :
    (c.watch x loopsBranch v).bare = c.track x loopsBranch slot :: rest := by
  induction c generalizing v slot rest with
  | simple s simple =>
    rw [Chunk.watch, Chunk.track, Stmt.watch_of_simple simple, Stmt.track_of_simple simple,
      Watch.bare_read bare]
  | assign a => exact Watch.bare_bind (Watch.bare_read bare _ _) _ _
  | dim name sizes range => exact Watch.bare_bind (Watch.bare_read bare _ _) _ _
  | ifThen i ih => exact ih bare
  | loop s body loops ih =>
    rw [Chunk.watch, loops.watch, Chunk.track, loops.track]
    exact Watch.bare_close (ih (loops.entered_bare bare)) _ _
  | tryCatch body handler range tried caught =>
    exact Watch.bare_close (caught (tried (Watch.bare_push bare none))) _ _
  | cons s others first later => exact later (first bare)
  | empty around range => cases around <;> exact bare
  | block around s others range ih => exact Watch.bare_close (ih (Watch.bare_push bare none)) _ _
  | branch around condition onTrue onFalse range inline taken passed =>
    have opened := Watch.bare_push (Watch.bare_read bare x (readsOf [condition])) none
    have chosen := passed (taken opened)
    rw [Else.track_chunk, Else.leaves_chunk] at chosen
    rw [Chunk.watch_branch]
    exact Watch.bare_close chosen _ _
  | handler caught body range ih =>
    have opened := Watch.bare_push bare (opening x (.handler ⟨caught, body, range⟩))
    rw [bare_opening] at opened
    exact Watch.bare_close (ih opened) _ _
  | _ => exact bare

end

/-! ## Parts that end leave nothing -/

section

variable {loopsBranch : Bool}

@[simp] theorem Slot.leaving_none (closed : FrameShape) (around : Around) :
    leaving closed around none = none := by
  unfold leaving outliving
  split <;> split <;> simp

@[simp] theorem Slot.joined_none_none : joined none none = none := rfl

theorem Block.leaves_of_ends {b : Block} (ends : b.ends)
    (owned : around ≠ .plain) : b.leaves x loopsBranch around = none := by
  cases b with
  | mk statements range =>
    have dropped : isDropped ⟨.block ⟨statements, range⟩, 1, Stmt.endsAny statements⟩ around := by
      have endsAny : Stmt.endsAny statements = true := ends
      simp [isDropped, owned, endsAny]
    simp [Block.leaves, leaving, outliving, Site.isHandler, dropped]

mutual

theorem If.leaves_of_ends {i : If} (ends : i.ends) (around : Around) :
    i.leaves x loopsBranch around = none := by
  cases i with
  | mk condition onTrue onFalse range inline =>
    obtain ⟨endsTrue, endsFalse⟩ := Bool.and_eq_true_iff.1 ends
    simp [If.leaves, Block.leaves_of_ends endsTrue, Else.leaves_of_ends endsFalse]

theorem Else.leaves_of_ends {e : Else} (ends : e.ends) : e.leaves x loopsBranch = none := by
  cases e with
  | absent => rfl
  | block body => exact Block.leaves_of_ends ends (by simp)
  | elseIf branch => exact If.leaves_of_ends ends .branches

end

/-- Of the bindings in a handler only the caught error ends with it. -/
theorem Slot.leaving_handler (c : Catch) (ends : Bool) (slot : Slot) :
    leaving ⟨.handler c, Walk.pathsAfter 1 ends, false⟩ .branches slot =
      slot.filter (·.role ≠ .caughtError) := by
  have notMore : ¬ 1 < Walk.pathsAfter 1 ends := by
    have := Walk.pathsAfter_le 1 ends
    omega
  simp [leaving, outliving, isDropped, Site.isHandler, notMore]

theorem Slot.opening_handler (caught : Option Ident) (body : Block) (range : Range) :
    opening x (.handler ⟨caught, body, range⟩) =
      (caught.filter (·.key = x)).map (.fresh · .caughtError) := by
  cases caught with
  | none => rfl
  | some name =>
    by_cases same : name.key = x
    · simp [opening, Option.filter, same]
    · simp [opening, Option.filter, same]

theorem Catch.leaves_of_ends {c : Catch} (ends : c.ends) : c.leaves x loopsBranch = none := by
  cases c with
  | mk caught body range =>
    have nothing : body.leaves x loopsBranch .handler = none :=
      Block.leaves_of_ends (show body.ends from ends) (by simp)
    simp only [Catch.leaves, nothing, receive, leaving_handler, opening_handler]
    cases caught.filter (·.key = x) <;> rfl

end

/-! ## Where a binding comes from -/

/-- A binding of the name that was made by one of the events. -/
structure Entry.From (x : String) (events : List Event) (e : Entry) : Prop where
  key : e.ident.key = x
  bound : ∃ role, .bind e.ident role ∈ events
  iterated : e.role = .iterator → ∃ name, .bind name .iterator ∈ events ∧ name.key = x

namespace Slot

/-- The binding in a slot was made by one of the events and outlives its frame; outside of branches
it counts once. -/
structure Made (x : String) (events : List Event) (slot : Slot) : Prop where
  origin : ∀ e, slot = some e → e.From x events
  met : ∀ e, slot = some e → e.met = 1
  lasting : ∀ e, slot = some e → e.role ≠ .caughtError

variable {events : List Event} {slot outer inner first second : Slot}

theorem made_none : Slot.Made x events none :=
  ⟨fun _ found => (by cases found), fun _ found => (by cases found),
    fun _ found => (by cases found)⟩

theorem Made.rebind (made : slot.Made x events) {name : Ident} {role : Role}
    (bound : .bind name role ∈ events) (lasting : role ≠ .caughtError) :
    (slot.rebind x name role).Made x events := by
  unfold Slot.rebind
  split
  · next same =>
    refine ⟨?_, by rintro e ⟨⟩; rfl, by rintro e ⟨⟩; exact lasting⟩
    rintro e ⟨⟩
    exact ⟨same, ⟨role, bound⟩, fun isIterator =>
      ⟨name, (show role = .iterator from isIterator) ▸ bound, same⟩⟩
  · exact made

/-- A frame that takes over a binding keeps where it comes from. -/
theorem from_receive (outerFrom : ∀ o, outer = some o → o.From x events)
    (innerFrom : ∀ e, inner = some e → e.From x events) (branches usedBefore : Bool) :
    ∀ e, outer.receive branches usedBefore inner = some e → e.From x events := by
  cases inner with
  | none => exact outerFrom
  | some e =>
    rintro _ ⟨⟩
    have origin := innerFrom e rfl
    refine ⟨origin.key, origin.bound, ?_⟩
    cases outer with
    | none => exact origin.iterated
    | some o =>
      intro isIterator
      by_cases outside : o.role = .iterator
      · exact (outerFrom o rfl).iterated outside
      · exact origin.iterated (by simpa [Entry.moveOut, outside] using isIterator)

theorem lasting_receive (outerLasting : ∀ o, outer = some o → o.role ≠ .caughtError)
    (innerLasting : ∀ e, inner = some e → e.role ≠ .caughtError) (branches usedBefore : Bool) :
    ∀ e, outer.receive branches usedBefore inner = some e → e.role ≠ .caughtError := by
  cases inner with
  | none => exact outerLasting
  | some e =>
    rintro _ ⟨⟩
    cases outer with
    | none => exact innerLasting e rfl
    | some o =>
      by_cases outside : o.role = .iterator
      · simp [Entry.moveOut, outside]
      · simpa [Entry.moveOut, outside] using innerLasting e rfl

theorem Made.receive (outerMade : outer.Made x events) (innerMade : inner.Made x events)
    (usedBefore : Bool) : (outer.receive false usedBefore inner).Made x events := by
  refine ⟨from_receive outerMade.origin innerMade.origin _ _, ?_,
    lasting_receive outerMade.lasting innerMade.lasting _ _⟩
  cases inner with
  | none => exact outerMade.met
  | some e =>
    rintro _ ⟨⟩
    cases outer <;> exact innerMade.met e rfl

/-- A binding that leaves a frame was counted, or is the same. -/
theorem of_leaving {e : Entry} (left : leaving closed around slot = some e) :
    ∃ o, slot = some o ∧ ((1 < closed.paths ∧ e = o.countBranches closed.paths) ∨
      (¬ 1 < closed.paths ∧ isDropped closed around = false ∧ e = o)) := by
  have outlived : outliving closed around slot = some e := by
    unfold leaving at left
    split at left
    · exact (Option.filter_eq_some_iff.1 left).1
    · exact left
  unfold outliving at outlived
  split at outlived
  · next more =>
    obtain ⟨o, found, rfl⟩ := Option.map_eq_some_iff.1 outlived
    exact ⟨o, found, .inl ⟨more, rfl⟩⟩
  · next notMore =>
    split at outlived
    · cases outlived
    · next kept => exact ⟨e, outlived, .inr ⟨notMore, by simpa using kept, rfl⟩⟩

theorem Made.leaving (made : slot.Made x events) (closed : FrameShape) (around : Around) :
    (leaving closed around slot).Made x events := by
  refine ⟨fun e left => ?_, fun e left => ?_, fun e left => ?_⟩
  all_goals obtain ⟨o, found, (⟨-, rfl⟩ | ⟨-, -, rfl⟩)⟩ := of_leaving left
  · obtain ⟨key, bound, iterated⟩ := made.origin o found
    exact ⟨key, bound, iterated⟩
  · exact made.origin e found
  · rfl
  · exact made.met e found
  · exact made.lasting o found
  · exact made.lasting e found

/-- Two branches count twice only while both go on, and then the count starts again. -/
theorem Made.leaving_joined (firstMade : first.Made x events) (secondMade : second.Made x events)
    (around : Around) (both : 1 < closed.paths ∨ first = none ∨ second = none) :
    (Slot.leaving closed around (joined first second)).Made x events := by
  have nothing : Slot.Made x events none := made_none
  have joinedFrom := from_receive (from_receive nothing.origin firstMade.origin true false)
    secondMade.origin true false
  have joinedLasting := lasting_receive (lasting_receive nothing.lasting firstMade.lasting true false)
    secondMade.lasting true false
  refine ⟨fun e left => ?_, fun e left => ?_, fun e left => ?_⟩
  all_goals obtain ⟨o, found, (⟨-, rfl⟩ | ⟨notMore, -, rfl⟩)⟩ := of_leaving left
  · obtain ⟨key, bound, iterated⟩ := joinedFrom o found
    exact ⟨key, bound, iterated⟩
  · exact joinedFrom e found
  · rfl
  · rcases both with more | rfl | rfl
    · exact absurd more notMore
    · cases second with
      | none => cases found
      | some s =>
        cases found
        exact secondMade.met s rfl
    · cases first with
      | none => cases found
      | some f =>
        cases found
        exact firstMade.met f rfl
  · exact joinedLasting o found
  · exact joinedLasting e found

theorem Made.looped (openingMade : outer.Made x events) (bodyMade : inner.Made x events)
    (site : Site) (loopsBranch : Bool) : (looped site loopsBranch outer inner).Made x events :=
  (openingMade.receive bodyMade false).leaving _ _

/-- A caught error stays in its handler, so that only what the body leaves comes out. -/
theorem Made.leaving_handler (bodyMade : inner.Made x events) (c : Catch) (ends : Bool) :
    (Slot.leaving ⟨.handler c, Walk.pathsAfter 1 ends, false⟩ .branches
      (Slot.receive (Slot.opening x (.handler c)) false false inner)).Made x events := by
  obtain ⟨caught, body, range⟩ := c
  rw [Slot.leaving_handler, Slot.opening_handler]
  cases inner with
  | none => cases caught.filter (·.key = x) <;> exact made_none
  | some e =>
    have origin := bodyMade.origin e rfl
    have lasting := bodyMade.lasting e rfl
    refine ⟨fun o kept => ?_, fun o kept => ?_, fun o kept => ?_⟩
    all_goals
      obtain ⟨received, -⟩ := Option.filter_eq_some_iff.1 kept
      cases received
      cases caught.filter (·.key = x)
    · exact ⟨origin.key, origin.bound, origin.iterated⟩
    · exact ⟨origin.key, origin.bound, fun isIterator => origin.iterated (by
        simpa [Entry.moveOut, Entry.fresh] using isIterator)⟩
    · exact bodyMade.met e rfl
    · exact bodyMade.met e rfl
    · exact lasting
    · simpa [Entry.moveOut, Entry.fresh] using lasting

end Slot

section

variable (loopsBranch : Bool) {events : List Event}

/-- While two branches leave something, both paths go on. -/
theorem two_paths (first second : Bool) :
    1 < Walk.pathsAfter (Walk.pathsAfter 2 first) second ∨ first = true ∨ second = true := by
  cases first <;> cases second <;> simp [Walk.pathsAfter]

theorem Stmt.Loops.entered_made (loops : s.Loops body)
    (own : (Site.stmt s).events ⊆ events) : (s.enteredSlot x).Made x events := by
  cases loops with
  | forTo counter limit stride body range =>
    exact made_none.rebind (own (a := .bind counter.name .iterator) (by simp [Site.events]))
      (by simp)
  | forEach item target body range =>
    exact made_none.rebind (own (a := .bind item .iterator) (by simp [Site.events])) (by simp)
  | whileDo condition body range => exact made_none

/-- What stands in a frame after a part stood there before, or was made by the part. -/
theorem Chunk.leaves_made (c : Chunk) {slot : Slot} (made : slot.Made x events)
    (subset : eventsOf c.sites ⊆ events) : (c.leaves x loopsBranch slot).Made x events := by
  induction c generalizing slot with
  | simple s simple =>
    rw [Chunk.leaves, Stmt.track_of_simple simple]
    exact made
  | assign a => exact made.rebind (subset (by simp [Chunk.sites, Stmt.sites, Site.events])) (by simp)
  | dim name sizes range =>
    exact made.rebind (subset (by simp [Chunk.sites, Stmt.sites, Site.events])) (by simp)
  | ifThen i ih => exact made.receive (ih made subset) false
  | loop s body loops ih =>
    rw [Chunk.sites, loops.sites, eventsOf_cons] at subset
    obtain ⟨own, inner⟩ := append_subset.1 subset
    rw [Chunk.leaves, loops.track]
    exact made.receive ((loops.entered_made own).looped (ih made inner) _ _) false
  | tryCatch body handler range tried caught =>
    simp only [Chunk.sites, Stmt.sites, cons_append, eventsOf_cons, eventsOf_append] at subset
    obtain ⟨-, inner⟩ := append_subset.1 subset
    obtain ⟨inBody, inHandler⟩ := append_subset.1 inner
    refine made.receive ((tried made inBody).leaving_joined (caught made inHandler) _ ?_) false
    rcases two_paths body.ends handler.ends with more | ends | ends
    · exact .inl more
    · exact .inr (.inl (Block.leaves_of_ends ends (by simp)))
    · exact .inr (.inr (Catch.leaves_of_ends ends))
  | nil => exact made
  | cons s others first later =>
    rw [Chunk.sites, Stmt.sitesAll, eventsOf_append] at subset
    obtain ⟨here, behind⟩ := append_subset.1 subset
    exact later (first made here) behind
  | empty around range =>
    rw [Chunk.leaves, Block.leaves]
    exact made_none.leaving _ _
  | block around s others range ih =>
    rw [Chunk.leaves_block]
    exact (ih made_none subset).leaving _ _
  | branch around condition onTrue onFalse range inline taken passed =>
    rw [Chunk.sites_branch, eventsOf_cons, eventsOf_append] at subset
    obtain ⟨-, inner⟩ := append_subset.1 subset
    obtain ⟨inTrue, inFalse⟩ := append_subset.1 inner
    rw [Chunk.leaves_branch]
    refine (taken made_none inTrue).leaving_joined (passed made_none inFalse) _ ?_
    rcases two_paths onTrue.ends onFalse.ends with more | ends | ends
    · exact .inl more
    · exact .inr (.inl (Block.leaves_of_ends ends (by simp)))
    · exact .inr (.inr (by rw [Else.leaves_chunk, Else.leaves_of_ends ends]))
  | handler caught body range ih =>
    obtain ⟨-, inner⟩ := append_subset.1 subset
    exact (ih made inner).leaving_handler _ _
  | nothing => exact made_none

end

/-! ## Arms that are forgotten -/

theorem Chunk.leaves_of_unbound (loopsBranch : Bool) (c : Chunk)
    (unbound : ¬ Bound x (eventsOf c.sites)) : c.leaves x loopsBranch none = none := by
  cases left : c.leaves x loopsBranch none with
  | none => rfl
  | some e =>
    have origin := (c.leaves_made loopsBranch made_none (List.Subset.refl _)).origin e left
    obtain ⟨role, bound⟩ := origin.bound
    exact absurd ⟨e.ident, role, bound, origin.key⟩ unbound

/-- The arm of an `else if` does not bind the name if it goes on while the `else if` behind it always
leaves: the frame of such an `else if` is dropped. -/
def If.KeepsArm (x : String) : If → Prop
  | ⟨_, arm, .elseIf behind, _, _⟩ => behind.ends → arm.ends = false → ¬ Bound x (eventsOf arm.sites)
  | _ => True

def Site.KeepsArm (x : String) : Site → Prop
  | .stmt (.ifThen ⟨_, _, .elseIf branch, _, _⟩) => branch.KeepsArm x
  | _ => True

/-- The same for a part that is an `else if`. -/
def Chunk.KeepsArm (x : String) : Chunk → Prop
  | .branch around i => around ≠ .plain → i.KeepsArm x
  | _ => True

theorem Site.KeepsArm.chunk {condition : Expr} {onTrue : Block} {onFalse : Else}
    {range : Range} {inline : Bool}
    (here : Site.KeepsArm x (.stmt (.ifThen ⟨condition, onTrue, onFalse, range, inline⟩))) :
    onFalse.chunk.KeepsArm x := by
  cases onFalse with
  | elseIf branch => exact fun _ => here
  | _ => trivial

/-- The frame of an `if` is dropped only behind an `else if` that always leaves, and then it holds no
binding of the name. -/
theorem If.leaves_of_dropped (loopsBranch : Bool) {condition : Expr} {onTrue : Block}
    {onFalse : Else} {range : Range} {inline : Bool}
    (keepsArm : around ≠ .plain → If.KeepsArm x ⟨condition, onTrue, onFalse, range, inline⟩)
    (dropped : isDropped ⟨.stmt (.ifThen ⟨condition, onTrue, onFalse, range, inline⟩),
      Walk.pathsAfter (Walk.pathsAfter 2 onTrue.ends) onFalse.ends, Walk.endsNested onFalse⟩ around) :
    onFalse.ends ∧ onTrue.leaves x loopsBranch .branches = none ∧
      onFalse.leaves x loopsBranch = none := by
  simp only [isDropped, Bool.and_eq_true, decide_eq_true_eq] at dropped
  obtain ⟨⟨-, owned⟩, nested⟩ := dropped
  cases onFalse with
  | absent => cases nested
  | block body => cases nested
  | elseIf behind =>
    have elseEnds : Else.ends (.elseIf behind) = true := nested
    refine ⟨elseEnds, ?_, Else.leaves_of_ends elseEnds⟩
    cases armEnds : onTrue.ends with
    | true => exact Block.leaves_of_ends armEnds (by simp)
    | false =>
      exact Chunk.leaves_of_unbound loopsBranch (.block .branches onTrue)
        (keepsArm owned nested armEnds)

end ChannelLint
