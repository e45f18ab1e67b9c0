import ChannelLint.Proofs.Marks
import ChannelLint.Proofs.DefiniteAssignment

/-!
# Names that are bound in vain

If an assignment is reported as unused, no path should lead from it to a read of its name that
does not pass another binding. A walk goes through the text once, in order, and it drops the frame of
an arm that always leaves, so it can only be right about the paths that agree with the text:
`Site.Sound` says where they do.
-/
namespace ChannelLint

open List
open Chunk (watch_bare watch_grows runs_within)

variable {events t : List Event} {outcome : Outcome} {kind : LoopKind} {x : String} {s : Stmt}
  {v : Watch} {slot : Slot} {rest : List Slot} {sites : List Site} {closed : FrameShape}
  {around : Around} {f : Slot → Slot} {usedBefore : Bool} {e : Entry}

open Paths

/-! ## Paths on which a name is read first -/

section

variable {a b : List Event}

theorem ReadFirst.append_right (first : ReadFirst x a) (b : List Event) : ReadFirst x (a ++ b) :=
  readFirst_append.2 (.inl first)

theorem ReadFirst.read (first : ReadFirst x a) : ∃ r, .read r ∈ a ∧ r.key = x := by
  obtain ⟨pre, r, post, rfl, same, -⟩ := first
  exact ⟨r, by simp, same⟩

theorem readFirst_of_unbound {r : Ident} (unbound : ¬ Bound x a) (member : .read r ∈ a)
    (same : r.key = x) : ReadFirst x a := by
  obtain ⟨pre, post, rfl⟩ := append_of_mem member
  exact ⟨pre, r, post, rfl, same, (not_bound_append.1 unbound).1⟩

end

namespace Paths

/-- Some path reads the name before it binds it. -/
def Awaits (x : String) (p : Paths) : Prop :=
  ∃ t o, p t o ∧ ReadFirst x t

variable {p q : Paths}

theorem awaits_perform (awaits : (perform events outcome).Awaits x) : ReadFirst x events := by
  obtain ⟨t, o, (⟨rfl, -⟩ | ⟨⟨more, rfl⟩, -⟩), first⟩ := awaits
  · exact first
  · exact first.append_right more

theorem Parts.awaits {r : Paths} {between : Outcome} (parts : Parts p between q r)
    (awaits : r.Awaits x) : p.Awaits x ∨ ((∃ a, p a between ∧ ¬ Bound x a) ∧ q.Awaits x) := by
  obtain ⟨t, o, run, first⟩ := awaits
  obtain run | ⟨a, b, runA, runB, rfl⟩ := parts t o run
  · exact .inl ⟨t, o, run, first⟩
  · rcases readFirst_append.1 first with early | ⟨unbound, late⟩
    · exact .inl ⟨a, _, runA, early⟩
    · exact .inr ⟨⟨a, runA, unbound⟩, b, o, runB, late⟩

theorem Awaits.of_seq (awaits : (seq p q).Awaits x) :
    p.Awaits x ∨ ((∃ a, p a .done ∧ ¬ Bound x a) ∧ q.Awaits x) :=
  parts_seq.awaits awaits

theorem Awaits.of_guarded (awaits : (guarded p q).Awaits x) : p.Awaits x ∨ q.Awaits x :=
  (parts_guarded.awaits awaits).imp_right And.right

theorem Awaits.of_repeated (awaits : (repeated kind p q).Awaits x) : p.Awaits x ∨ q.Awaits x := by
  obtain ⟨t, o, run, first⟩ := awaits
  have ofTurn {a b : List Event} {o : Outcome} (tested : p a .done) (turned : q b o)
      (first : ReadFirst x (a ++ b)) : p.Awaits x ∨ q.Awaits x := by
    rcases readFirst_append.1 first with early | ⟨-, late⟩
    · exact .inl ⟨a, _, tested, early⟩
    · exact .inr ⟨b, o, turned, late⟩
  induction run with
  | stop tested => exact .inl ⟨_, _, tested, first⟩
  | again tested turned _ ih =>
    rcases readFirst_append.1 first with now | ⟨-, later⟩
    · exact ofTurn tested turned now
    · exact ih later
  | exit tested turned => exact ofTurn tested turned first
  | leave tested turned _ _ => exact ofTurn tested turned first

theorem Awaits.of_emit (awaits : (seq (emit events) q).Awaits x) :
    ReadFirst x events ∨ (¬ Bound x events ∧ q.Awaits x) := by
  obtain ⟨t, o, (⟨⟨-, rfl⟩, notDone⟩ | ⟨a, b, ⟨rfl, -⟩, run, rfl⟩), first⟩ := awaits
  · exact absurd rfl notDone
  · exact (readFirst_append.1 first).imp_right fun ⟨unbound, late⟩ => ⟨unbound, b, o, run, late⟩

theorem Awaits.of_either (awaits : (either p q).Awaits x) : p.Awaits x ∨ q.Awaits x := by
  obtain ⟨t, o, (run | run), first⟩ := awaits
  · exact .inl ⟨t, o, run, first⟩
  · exact .inr ⟨t, o, run, first⟩

end Paths

theorem Stmt.awaits_cons {others : List Stmt} (awaits : (Stmt.RunsAll (s :: others)).Awaits x) :
    (seq s.Runs (Stmt.RunsAll others)).Awaits x := by
  obtain ⟨t, o, (⟨rfl, -⟩ | run), first⟩ := awaits
  · exact absurd first not_readFirst_nil
  · exact ⟨t, o, run, first⟩

/-! ## Where the text agrees with the paths -/

/-- If a path reads the name first, so does the text. -/
def Stmt.InOrder (x : String) (s : Stmt) : Prop :=
  s.Runs.Awaits x → ReadFirst x (eventsOf s.sites)

/-- If the block always leaves, its text is in the order of its paths, and where it binds the name it
does not leave by an `exit`. -/
structure Block.Fades (x : String) (b : Block) : Prop where
  inOrder : b.ends → b.Runs.Awaits x → ReadFirst x (eventsOf b.sites)
  leaves : b.ends → Bound x (eventsOf b.sites) → ∀ t loop, ¬ b.Runs t (.left loop)

/-- Nothing is asked of a block that does not bind the name. -/
theorem Block.fades_of_unbound {b : Block}
    (unbound : b.ends → ¬ Bound x (eventsOf b.sites)) : b.Fades x := by
  refine ⟨fun ends awaits => ?_, fun ends bound => absurd bound (unbound ends)⟩
  obtain ⟨t, o, run, first⟩ := awaits
  obtain ⟨r, member, same⟩ := first.read
  exact readFirst_of_unbound (unbound ends)
    (runs_within (.block .plain b) (fun _ => id) t o run _ member) same

/-- The blocks of which one or none is run. -/
def Site.arms : Site → List Block
  | .stmt (.ifThen ⟨_, onTrue, .block body, _, _⟩) => [onTrue, body]
  | .stmt (.ifThen ⟨_, onTrue, _, _, _⟩) => [onTrue]
  | .handler ⟨_, body, _⟩ => [body]
  | _ => []

theorem Site.arms_onTrue (condition : Expr) (onTrue : Block) (onFalse : Else) (range : Range)
    (inline : Bool) :
    onTrue ∈ Site.arms (.stmt (.ifThen ⟨condition, onTrue, onFalse, range, inline⟩)) := by
  cases onFalse <;> exact mem_cons_self

/-- What the walk takes for granted about the name at a site. -/
structure Site.Sound (x : String) (site : Site) : Prop where
  keepsArm : site.KeepsArm x
  fades : ∀ b ∈ site.arms, b.Fades x
  inOrder : ∀ s, site = .stmt s → site.isLoop → s.InOrder x
  /-- From a body that always leaves, a handler can still be reached. -/
  tried : ∀ body handler range, site = .stmt (.tryCatch body handler range) →
    ∀ b, .block b ∈ body.sites → b.ends → ¬ Bound x (eventsOf b.sites)

theorem Site.sound_of_straight {site : Site}
    (straight : site.isIf = false ∧ site.isHandler = false ∧ site.isTry = false)
    (inOrder : ∀ s, site = .stmt s → site.isLoop → s.InOrder x) : site.Sound x := by
  obtain ⟨notIf, notHandler, notTry⟩ := straight
  refine ⟨?_, fun b member => ?_, inOrder, ?_⟩
  · unfold Site.KeepsArm
    split
    · cases notIf
    · trivial
  · unfold Site.arms at member
    split at member
    · cases notIf
    · cases notIf
    · cases notHandler
    · cases member
  · rintro body handler range rfl
    cases notTry

def Chunk.Fades (x : String) : Chunk → Prop
  | .block around b => around ≠ .plain → b.Fades x
  | _ => True

/-- What the walk takes for granted about the name in a part. -/
structure Chunk.Sound (x : String) (c : Chunk) : Prop where
  sites : ∀ site ∈ c.sites, site.Sound x
  keepsArm : c.KeepsArm x
  fades : c.Fades x

namespace Chunk.Sound

variable {others : List Stmt} {body onTrue : Block} {onFalse : Else} {condition : Expr}
  {caught : Option Ident} {range : Range} {inline : Bool} {i : If}

theorem effect {c : Chunk} (sound : c.Sound x) (loopsBranch : Bool) (bare : v.bare = slot :: rest) :
    Effect x (c.leaves x loopsBranch none) c.sites v (c.watch x loopsBranch v) :=
  c.effect loopsBranch bare (fun site member => (sound.sites site member).keepsArm) sound.keepsArm

theorem ifThen (sound : (stmt (.ifThen i)).Sound x) : (branch .plain i).Sound x :=
  ⟨sound.sites, fun inner => absurd rfl inner, trivial⟩

theorem loop (loops : s.Loops body) (sound : (stmt s).Sound x) :
    (Site.stmt s).Sound x ∧ (block .plain body).Sound x := by
  have inside := sound.sites
  rw [Chunk.sites, loops.sites] at inside
  obtain ⟨here, inside⟩ := forall_mem_cons.1 inside
  exact ⟨here, inside, trivial, fun inner => absurd rfl inner⟩

theorem tryCatch {handler : Catch} (sound : (stmt (.tryCatch body handler range)).Sound x) :
    (Site.stmt (.tryCatch body handler range)).Sound x ∧ (block .branches body).Sound x ∧
      (Chunk.handler handler).Sound x := by
  obtain ⟨here, inside⟩ := forall_mem_cons.1 sound.sites
  obtain ⟨inBody, inHandler⟩ := forall_mem_append.1 inside
  exact ⟨here, ⟨inBody, trivial, fun _ => Block.fades_of_unbound
    (here.tried body handler range rfl body (by simp [Block.sites_eq]))⟩, inHandler, trivial, trivial⟩

theorem cons (sound : (stmts (s :: others)).Sound x) : (stmt s).Sound x ∧ (stmts others).Sound x := by
  obtain ⟨here, later⟩ := forall_mem_append.1 sound.sites
  exact ⟨⟨here, trivial, trivial⟩, later, trivial, trivial⟩

theorem block (sound : (block around ⟨s :: others, range⟩).Sound x) :
    (stmts (s :: others)).Sound x :=
  ⟨(forall_mem_cons.1 sound.sites).2, trivial, trivial⟩

theorem branch (sound : (branch around ⟨condition, onTrue, onFalse, range, inline⟩).Sound x) :
    (Chunk.block .branches onTrue).Sound x ∧ onFalse.chunk.Sound x := by
  have inside := sound.sites
  rw [Chunk.sites_branch] at inside
  obtain ⟨here, inside⟩ := forall_mem_cons.1 inside
  obtain ⟨inTrue, inFalse⟩ := forall_mem_append.1 inside
  refine ⟨⟨inTrue, trivial, fun _ => here.fades _ (Site.arms_onTrue ..)⟩, inFalse,
    here.keepsArm.chunk, ?_⟩
  cases onFalse with
  | block body => exact fun _ => here.fades _ (by simp [Site.arms])
  | _ => trivial

theorem handler (sound : (Chunk.handler ⟨caught, body, range⟩).Sound x) :
    (Chunk.block .handler body).Sound x := by
  obtain ⟨here, inside⟩ := forall_mem_cons.1 sound.sites
  exact ⟨inside, trivial, fun _ => here.fades _ mem_cons_self⟩

end Chunk.Sound

/-! ## A read is noticed -/

namespace Slot

theorem leaving_eq_none (notHandler : closed.site.isHandler = false)
    (gone : leaving closed around slot = none) : slot = none ∨ isDropped closed around := by
  rw [leaving, if_neg (by simp [notHandler]), outliving] at gone
  split at gone
  · exact .inl (Option.map_eq_none_iff.1 gone)
  · split at gone
    · next dropped => exact .inr dropped
    · exact .inl gone

/-- What the body of a handler leaves comes out of it. -/
theorem eq_none_of_leaving_handler {c : Catch} {ends : Bool}
    (lasting : ∀ e, slot = some e → e.role ≠ .caughtError)
    (gone : leaving ⟨.handler c, Walk.pathsAfter 1 ends, false⟩ .branches
      (receive (opening x (.handler c)) false false slot) = none) : slot = none := by
  obtain ⟨caught, body, range⟩ := c
  rw [leaving_handler, opening_handler] at gone
  cases slot with
  | none => rfl
  | some e =>
    have lasting := lasting e rfl
    generalize caught.filter (·.key = x) = own at gone
    cases own <;> simp [receive, Entry.moveOut, Entry.fresh, lasting] at gone

end Slot

/-- Something is left to the frame around, or the innermost binding is marked. -/
def Noticed (left : Slot) (w : Watch) : Prop :=
  left = none → Slot.visiblyUsed w.stack

theorem Noticed.later {first second left : Slot} {w : Watch}
    (noticed : Noticed first v) (effect : Effect x second sites v w)
    (both : left = none → first = none ∧ second = none) : Noticed left w := by
  intro nothing
  exact (effect.whole (both nothing).2).visible (noticed (both nothing).1)

theorem noticed_close {top outer : Slot} {w : Watch} (bare : w.bare = top :: outer :: rest)
    (seen : Slot.leaving closed around top = none → Slot.visiblyUsed w.stack.tail) :
    Noticed (Slot.leaving closed around top) (w.close closed around) := by
  intro nothing
  have marked := seen nothing
  obtain ⟨inner, next, others, stack, rfl, -⟩ := Watch.stack_of_bare bare
  have gone : Slot.leaving closed around inner = none := by
    rw [← Slot.bare_leaving] at nothing
    exact Option.map_eq_none_iff.1 nothing
  simpa [Watch.close, stack, gone, Slot.receive] using marked

section

open Watch Slot

variable (loopsBranch : Bool)

theorem noticed_bind {name : Ident} {es : List Expr}
    (first : ReadFirst x (readEvents es ++ [.bind name .plain]))
    (bound : ((v.read x (readsOf es)).bind x name .plain).free = []) :
    Noticed (Slot.rebind x name .plain none) ((v.read x (readsOf es)).bind x name .plain) := by
  intro nothing
  rcases readFirst_append.1 first with own | ⟨-, later⟩
  · exact ((effect_bind x [] name .plain _).whole nothing).visible
      (visible_read own (free_of_grows (bind_grows x name .plain _) bound))
  · exact absurd (readFirst_bind.1 later).2 not_readFirst_nil

/-- Where a loop has a path that reads the name first, a binding outside is marked in its body. -/
theorem Stmt.Loops.visible_of_awaits {body : Block} (loops : s.Loops body) (bare : v.bare = slot :: rest)
    (sound : (Chunk.stmt s).Sound x) (awaits : s.Runs.Awaits x)
    (bound : (body.watch x loopsBranch .plain (s.enteredWatch x v)).free = []) :
    visiblyUsed (body.watch x loopsBranch .plain (s.enteredWatch x v)).stack.tail :=
  loops.visible_turned loopsBranch bare (fun site member => (sound.sites site member).keepsArm)
    ((sound.loop loops).1.inOrder s rfl loops.isLoop awaits)
    (Chunk.visible_of_readFirst loopsBranch (.block .plain body)) bound

/-- Where a path reads the name first, the walk notices it: a binding is marked, unless a new binding
is left in its place. -/
theorem Chunk.noticed (c : Chunk)
    (bare : v.bare = slot :: rest) (sound : c.Sound x) (awaits : c.Runs.Awaits x)
    (bound : (c.watch x loopsBranch v).free = []) :
    Noticed (c.leaves x loopsBranch none) (c.watch x loopsBranch v) := by
  induction c generalizing v slot rest with
  | simple s simple =>
    rw [Chunk.watch, Stmt.watch_of_simple simple] at bound ⊢
    rw [Chunk.Runs, Stmt.runs_of_simple simple] at awaits
    exact fun _ => visible_read (awaits_perform awaits) bound
  | assign a => exact noticed_bind (awaits_perform awaits) bound
  | dim name sizes range => exact noticed_bind (awaits_perform awaits) bound
  | ifThen i ih =>
    exact fun nothing => ih bare sound.ifThen awaits bound (receive_eq_none.1 nothing).2
  | loop s body loops ih =>
    rw [Chunk.leaves, loops.track, Chunk.watch, loops.watch] at *
    have turned := watch_bare (x := x) loopsBranch (.block .plain body)
      (loops.entered_bare (x := x) bare)
    have seen := loops.visible_of_awaits loopsBranch bare sound awaits
      (free_of_grows (close_grows _ _ _) bound)
    exact fun nothing => noticed_close turned (fun _ => seen) (receive_eq_none.1 nothing).2
  | tryCatch body handler range tried caught =>
    obtain ⟨-, inBody, inHandler⟩ := sound.tryCatch
    have opened := bare_push bare none
    have behind := watch_bare (x := x) loopsBranch (.block .branches body) opened
    have after := watch_bare (x := x) loopsBranch (.handler handler) behind
    have boundInside := free_of_grows (close_grows _ _ _) bound
    have inner : Noticed (joined (body.leaves x loopsBranch .branches) (handler.leaves x loopsBranch))
        (handler.watch x loopsBranch (body.watch x loopsBranch .branches (v.push none))) := by
      rcases awaits.of_guarded with early | late
      · exact (tried opened inBody early (free_of_grows
          (watch_grows x loopsBranch (.handler handler) _) boundInside)).later
          (inHandler.effect loopsBranch behind) joined_eq_none.1
      · exact fun nothing => caught behind inHandler late boundInside (joined_eq_none.1 nothing).2
    exact fun nothing => noticed_close after (fun gone => by
      rcases leaving_eq_none rfl gone with nothing | dropped
      · exact visible_tail (nothing ▸ after) (inner nothing)
      · simp [isDropped] at dropped) (receive_eq_none.1 nothing).2
  | cons s others first later =>
    obtain ⟨here, behind⟩ := sound.cons
    have walked := watch_bare (x := x) loopsBranch (.stmt s) bare
    rcases (Stmt.awaits_cons awaits).of_seq with early | ⟨-, late⟩
    · have boundHere := free_of_grows (watch_grows x loopsBranch (.stmts others) _) bound
      exact (first bare here early boundHere).later (behind.effect loopsBranch walked)
        (Stmt.trackAll_cons_none x loopsBranch)
    · exact fun nothing => later walked behind late bound
        (Stmt.trackAll_cons_none x loopsBranch nothing).2
  | block around s others range ih =>
    have opened := bare_push bare none
    have walked := watch_bare (x := x) loopsBranch (.stmts (s :: others)) opened
    have boundInside := free_of_grows (close_grows _ _ _) bound
    rw [Chunk.leaves_block, Chunk.watch_block]
    refine noticed_close walked fun gone => ?_
    rcases leaving_eq_none rfl gone with nothing | dropped
    · have bareInside := walked.trans (congrArg (· :: slot :: rest) nothing)
      exact visible_tail bareInside (ih opened sound.block awaits boundInside nothing)
    · simp only [isDropped, Bool.and_eq_true, decide_eq_true_eq] at dropped
      obtain ⟨⟨-, inner⟩, ends⟩ := dropped
      exact Chunk.visible_of_readFirst loopsBranch (.stmts (s :: others)) opened
        (fun site member => (sound.block.sites site member).keepsArm)
        ((sound.fades inner).inOrder ends awaits) boundInside
  | branch around condition onTrue onFalse range inline taken passed =>
    obtain ⟨inTrue, inFalse⟩ := sound.branch
    rw [Chunk.runs_branch] at awaits
    rw [Chunk.watch_branch] at bound
    have opened := bare_push (bare_read bare x (readsOf [condition])) none
    have behind := watch_bare (x := x) loopsBranch (.block .branches onTrue) opened
    have after := watch_bare (x := x) loopsBranch onFalse.chunk behind
    rw [Else.track_chunk] at after
    have boundInside := free_of_grows (close_grows _ _ _) bound
    have boundTrue := free_of_grows (watch_grows x loopsBranch onFalse.chunk _) boundInside
    have boundTest := free_of_grows ((push_grows none _).trans
      (watch_grows x loopsBranch (.block .branches onTrue) _)) boundTrue
    have effectFalse := inFalse.effect loopsBranch behind
    have inner : Noticed (joined ((Chunk.block .branches onTrue).leaves x loopsBranch none)
        (onFalse.chunk.leaves x loopsBranch none)) (onFalse.chunk.watch x loopsBranch
          ((Chunk.block .branches onTrue).watch x loopsBranch
            ((v.read x (readsOf [condition])).push none))) := by
      rcases awaits.of_seq with test | ⟨-, chosen⟩
      · have tested : Noticed none ((v.read x (readsOf [condition])).push none) := fun _ =>
          visible_read (awaits_perform test) boundTest
        exact (tested.later (inTrue.effect loopsBranch opened) fun nothing => ⟨rfl, nothing⟩).later
          effectFalse joined_eq_none.1
      · rcases chosen.of_either with first | second
        · exact (taken opened inTrue first boundTrue).later effectFalse joined_eq_none.1
        · exact fun nothing => passed behind inFalse second boundInside (joined_eq_none.1 nothing).2
    rw [Chunk.leaves_branch, Chunk.watch_branch]
    refine noticed_close after fun gone => ?_
    have nothing : joined ((Chunk.block .branches onTrue).leaves x loopsBranch none)
        (onFalse.chunk.leaves x loopsBranch none) = none := by
      rcases leaving_eq_none rfl gone with nothing | dropped
      · exact nothing
      · rw [Else.leaves_chunk]
        exact joined_eq_none.2 (If.leaves_of_dropped loopsBranch sound.keepsArm dropped).2
    exact visible_tail (after.trans (congrArg (· :: slot :: rest) nothing)) (inner nothing)
  | handler caught body range ih =>
    rcases awaits.of_emit with bindsFirst | ⟨other, awaits⟩
    · obtain ⟨r, member, -⟩ := bindsFirst.read
      simp at member
    have shut : Slot.opening x (.handler ⟨caught, body, range⟩) = none := by
      cases caught with
      | none => rfl
      | some name => exact if_neg fun same => other ⟨name, .caughtError, by simp, same⟩
    have opened := bare_push bare (Slot.opening x (.handler ⟨caught, body, range⟩))
    rw [bare_opening] at opened
    have handled := watch_bare (x := x) loopsBranch (.block .handler body) opened
    have boundInside := free_of_grows (close_grows _ _ _) bound
    rw [Chunk.leaves_handler, Chunk.watch_handler]
    refine noticed_close handled fun gone => ?_
    have made := Chunk.leaves_made (x := x) loopsBranch (.block .handler body) made_none
      (List.Subset.refl _)
    have nothing := eq_none_of_leaving_handler made.lasting gone
    have seen := ih opened sound.handler awaits boundInside nothing
    exact visible_tail (handled.trans (congrArg (· :: slot :: rest)
      (receive_eq_none.2 ⟨shut, nothing⟩))) seen
  | nothing =>
    obtain ⟨t, o, ⟨rfl, -⟩, first⟩ := awaits
    exact absurd first not_readFirst_nil
  | _ => exact absurd (awaits_perform awaits) not_readFirst_nil

end

/-! ## Bindings that are dropped -/

/-- The name is bound at `n`. -/
def Binds (n : Ident) (t : List Event) : Prop :=
  ∃ role, .bind n role ∈ t

def Event.binds (n : Ident) : Event → Bool
  | .bind name _ => name = n
  | .read _ => false

/-- At most one of the events binds the name at `n`. -/
def BindsOnce (n : Ident) (t : List Event) : Prop :=
  t.countP (·.binds n) ≤ 1

instance (n : Ident) (t : List Event) : Decidable (BindsOnce n t) :=
  inferInstanceAs (Decidable (_ ≤ 1))

section

variable {n : Ident} {a b : List Event}

theorem binds_append : Binds n (a ++ b) ↔ Binds n a ∨ Binds n b := by
  simp [Binds, exists_or]

theorem Binds.countP_pos (binds : Binds n a) : 0 < a.countP (·.binds n) := by
  obtain ⟨role, member⟩ := binds
  exact countP_pos_iff.2 ⟨_, member, by simp [Event.binds]⟩

theorem Binds.bound (binds : Binds n a) : Bound n.key a := by
  obtain ⟨role, member⟩ := binds
  exact ⟨n, role, member, rfl⟩

theorem BindsOnce.append (once : BindsOnce n (a ++ b)) :
    BindsOnce n a ∧ BindsOnce n b ∧ (Binds n a → ¬ Binds n b) := by
  unfold BindsOnce at once ⊢
  rw [countP_append] at once
  refine ⟨by omega, by omega, fun early late => ?_⟩
  have := early.countP_pos
  have := late.countP_pos
  omega

end

namespace Paths

/-- No path binds the name at `n`. -/
def Idle (n : Ident) (p : Paths) : Prop :=
  ∀ t o, p t o → ¬ Binds n t

/-- A path that binds the name at `n` does not go on behind it. -/
def Vain (n : Ident) (p : Paths) : Prop :=
  ∀ t o, p t o → Binds n t → o = .returned ∨ o = .raised

variable {n : Ident} {p q : Paths}

theorem Within.idle (within : p.Within (· ∈ events)) (unbound : ¬ Binds n events) : p.Idle n := by
  rintro t o run ⟨role, member⟩
  exact unbound ⟨role, within t o run _ member⟩

theorem Idle.vain (idle : p.Idle n) : p.Vain n :=
  fun t o run binds => absurd binds (idle t o run)

theorem Vain.seq_left (first : p.Vain n) (second : q.Idle n) : (seq p q).Vain n := by
  rintro t o (⟨run, -⟩ | ⟨a, b, runA, runB, rfl⟩) binds
  · exact first t o run binds
  · rcases binds_append.1 binds with early | late
    · simpa using first a _ runA early
    · exact absurd late (second b o runB)

theorem Parts.vain {r : Paths} {between : Outcome} (parts : Parts p between q r) (first : p.Idle n)
    (second : q.Vain n) : r.Vain n := by
  intro t o run binds
  obtain run | ⟨a, b, runA, runB, rfl⟩ := parts t o run
  · exact absurd binds (first t o run)
  · exact second b o runB ((binds_append.1 binds).resolve_left (first a _ runA))

theorem Idle.seq_vain (first : p.Idle n) (second : q.Vain n) : (seq p q).Vain n :=
  parts_seq.vain first second

theorem Idle.guarded_vain (body : p.Idle n) (handler : q.Vain n) : (guarded p q).Vain n :=
  parts_guarded.vain body handler

theorem Vain.either (first : p.Vain n) (second : q.Vain n) : (either p q).Vain n := by
  rintro t o (run | run)
  · exact first t o run
  · exact second t o run

theorem Vain.repeated (test : p.Idle n) (turn : q.Vain n) : (repeated kind p q).Vain n := by
  have ofTurn {a b : List Event} {o : Outcome} (tested : p a .done) (turned : q b o)
      (binds : Binds n (a ++ b)) : o = .returned ∨ o = .raised :=
    turn b o turned ((binds_append.1 binds).resolve_left (test a _ tested))
  intro t o run binds
  induction run with
  | stop tested => exact absurd binds (test _ _ tested)
  | again tested turned _ ih =>
    rcases binds_append.1 binds with now | later
    · simpa using ofTurn tested turned now
    · exact ih later
  | exit tested turned => simpa using ofTurn tested turned binds
  | leave tested turned _ _ => exact ofTurn tested turned binds

theorem idle_reads (es : List Expr) : (perform (readEvents es) .done).Idle n := by
  refine (within_perform fun _ => id).idle ?_
  rintro ⟨role, member⟩
  simp [readEvents] at member

end Paths

variable {w : Watch} {n : Ident}

theorem Watch.bare_head {top : Slot} (bare : w.bare = top :: rest)
    (found : w.stack.head? = some slot) : slot.bare = top := by
  obtain ⟨others, stack⟩ := head?_eq_some_iff.1 found
  simp only [Watch.bare, stack, map_cons, List.cons.injEq] at bare
  exact bare.1

/-- What is new in the report of a frame that closes was dropped with it. -/
theorem Watch.mem_unused_close (member : n ∈ (w.close closed around).unused) :
    n ∈ w.unused ∨ (Slot.isDropped closed around ∧
      ∃ e, w.stack.head? = some (some e) ∧ e.ident = n ∧ e.used = false ∧ e.role = .plain) := by
  unfold Watch.close at member
  split at member
  · next slot outer rest stack =>
    rcases mem_append.1 member with before | new
    · exact .inl before
    · split at new
      · next dropped =>
        obtain ⟨e, rfl, found⟩ := Slot.mem_unusedIn new
        exact .inr ⟨dropped, e, by rw [stack]; rfl, found⟩
      · cases new
  · exact .inl member

theorem Watch.mem_unused_close_plain
    (member : n ∈ (w.close closed .plain).unused) : n ∈ w.unused := by
  rcases mem_unused_close member with before | ⟨dropped, -⟩
  · exact before
  · simp [Slot.isDropped] at dropped

/-- Of two parts only the one that binds the name at `n` can have reported it. -/
theorem new_in_part {first second : Slot} {early late : List Site} {u : Watch}
    (effectFirst : Effect n.key first early u v) (effectSecond : Effect n.key second late v w)
    (once : BindsOnce n (eventsOf early ++ eventsOf late)) (new : n ∈ w.unused)
    (old : n ∉ u.unused) :
    (n ∈ v.unused ∧ ¬ Binds n (eventsOf late)) ∨ (n ∉ v.unused ∧ ¬ Binds n (eventsOf early)) := by
  by_cases before : n ∈ v.unused
  · rcases effectFirst.unused n before with earlier | dropped
    · exact absurd earlier old
    · exact .inl ⟨before, once.append.2.2 dropped.bound⟩
  · rcases effectSecond.unused n new with earlier | dropped
    · exact absurd earlier before
    · exact .inr ⟨before, fun binds => once.append.2.2 binds dropped.bound⟩

section

open Watch Slot

variable (loopsBranch : Bool)

/-- If a part reports that the name is bound in vain at `n`, its paths stop there. -/
theorem Chunk.vain (c : Chunk)
    (bare : v.bare = slot :: rest) (sound : c.Sound n.key) (once : BindsOnce n (eventsOf c.sites))
    (new : n ∈ (c.watch n.key loopsBranch v).unused) (old : n ∉ v.unused) : c.Runs.Vain n := by
  induction c generalizing v slot rest with
  | simple s simple =>
    rw [Chunk.watch, Stmt.watch_of_simple simple, read_unused] at new
    exact absurd new old
  | assign a =>
    simp only [Chunk.watch, Stmt.watch, bind_unused, read_unused] at new
    exact absurd new old
  | dim name sizes range =>
    simp only [Chunk.watch, Stmt.watch, bind_unused, read_unused] at new
    exact absurd new old
  | ifThen i ih => exact ih bare sound.ifThen once new old
  | loop s body loops ih =>
    obtain ⟨-, inside⟩ := sound.loop loops
    rw [Chunk.watch, loops.watch] at new
    rw [Chunk.sites, loops.sites, eventsOf_cons] at once
    have new := mem_unused_close_plain new
    have old : n ∉ (s.enteredWatch n.key v).unused := by rwa [loops.entered_unused]
    have opened := loops.entered_bare (x := n.key) bare
    have dropped := ((inside.effect loopsBranch opened).unused n new).resolve_left old
    have unbound : ¬ Binds n (Site.stmt s).events := fun binds => once.append.2.2 binds dropped.bound
    obtain ⟨kind, start, test, binds, runs, first, tested, bound, -⟩ := loops.runs
    rw [Chunk.Runs, runs]
    have idle : (emit binds).Idle n := (within_emit fun _ member => bound member).idle unbound
    exact (first.idle unbound).seq_vain (Vain.repeated (tested.idle unbound)
      (idle.seq_vain (ih opened inside once.append.2.1 new old)))
  | tryCatch body handler range tried caught =>
    obtain ⟨here, inBody, inHandler⟩ := sound.tryCatch
    have parts : BindsOnce n (eventsOf (body.sites ++ handler.sites)) := once
    rw [eventsOf_append] at parts
    have opened := bare_push bare none
    have behind := watch_bare (x := n.key) loopsBranch (.block .branches body) opened
    have effectBody := inBody.effect loopsBranch opened
    rcases new_in_part effectBody (inHandler.effect loopsBranch behind) parts
      (mem_unused_close_plain new) old with ⟨early, -⟩ | ⟨notEarly, unbound⟩
    · obtain ⟨b, member, ends, binds⟩ := ((effectBody.unused n early).resolve_left old).ended
      exact absurd (Binds.bound binds) (here.tried body handler range rfl b member ends)
    · exact ((runs_within (.block .branches body) fun _ => id).idle unbound).guarded_vain
        (caught behind inHandler parts.append.2.1 (mem_unused_close_plain new) notEarly)
  | cons s others first later =>
    obtain ⟨here, behind⟩ := sound.cons
    have walked := watch_bare (x := n.key) loopsBranch (.stmt s) bare
    rw [Chunk.sites, Stmt.sitesAll, eventsOf_append] at once
    have atOnce : Vain n fun t o => t = [] ∧ o = .raised := by
      rintro t o ⟨-, rfl⟩ -
      exact .inr rfl
    refine atOnce.either ?_
    rcases new_in_part (here.effect loopsBranch bare) (behind.effect loopsBranch walked) once new old
      with ⟨early, unbound⟩ | ⟨notEarly, unbound⟩
    · exact (first bare here once.append.1 early old).seq_left
        ((runs_within (.stmts others) fun _ => id).idle unbound)
    · exact ((runs_within (.stmt s) fun _ => id).idle unbound).seq_vain
        (later walked behind once.append.2.1 new notEarly)
  | block around s others range ih =>
    have dropped := ((sound.effect loopsBranch bare).unused n new).resolve_left old
    rcases mem_unused_close new with before | ⟨atEnd, -⟩
    · exact ih (bare_push bare none) sound.block once before old
    · simp only [isDropped, Bool.and_eq_true, decide_eq_true_eq] at atEnd
      obtain ⟨⟨-, inner⟩, ends⟩ := atEnd
      intro t o run _
      cases o with
      | done => exact absurd run (Chunk.not_done_of_ends (.block around ⟨s :: others, range⟩) ends t)
      | returned => exact .inl rfl
      | raised => exact .inr rfl
      | left loop =>
        exact absurd run ((sound.fades inner).leaves ends (Binds.bound dropped.bound) t loop)
  | branch around condition onTrue onFalse range inline taken passed =>
    obtain ⟨inTrue, inFalse⟩ := sound.branch
    rw [Chunk.sites_branch, eventsOf_cons, eventsOf_append] at once
    have parts := once.append.2.1
    have opened := bare_push (bare_read bare n.key (readsOf [condition])) none
    have behind := watch_bare (x := n.key) loopsBranch (.block .branches onTrue) opened
    have after := watch_bare (x := n.key) loopsBranch onFalse.chunk behind
    have old : n ∉ ((v.read n.key (readsOf [condition])).push none).unused := by
      simpa [push, read_unused] using old
    rw [Chunk.watch_branch] at new
    have inner : n ∈ (onFalse.chunk.watch n.key loopsBranch ((Chunk.block .branches onTrue).watch
        n.key loopsBranch ((v.read n.key (readsOf [condition])).push none))).unused := by
      rcases mem_unused_close new with before | ⟨dropped, e, found, -⟩
      · exact before
      · obtain ⟨-, noTrue, noFalse⟩ := If.leaves_of_dropped loopsBranch sound.keepsArm dropped
        rw [Else.track_chunk, Else.leaves_chunk, noFalse, Chunk.track, noTrue] at after
        cases bare_head after found
    rw [Chunk.runs_branch]
    refine (idle_reads [condition]).seq_vain ?_
    rcases new_in_part (inTrue.effect loopsBranch opened) (inFalse.effect loopsBranch behind) parts
      inner old with ⟨early, unbound⟩ | ⟨notEarly, unbound⟩
    · exact (taken opened inTrue parts.append.1 early old).either
        ((runs_within onFalse.chunk fun _ => id).idle unbound).vain
    · exact ((runs_within (.block .branches onTrue) fun _ => id).idle unbound).vain.either
        (passed behind inFalse parts.append.2.1 inner notEarly)
  | handler caught body range ih =>
    have opened := bare_push bare (Slot.opening n.key (.handler ⟨caught, body, range⟩))
    have inner := (mem_unused_close new).resolve_right fun ended => by
      simp [isDropped] at ended
    have unbound := ((sound.handler.effect loopsBranch opened).unused n inner).resolve_left old
    refine ((within_emit fun _ => id).idle fun binds => once.append.2.2 binds unbound.bound).seq_vain ?_
    exact ih opened sound.handler once.append.2.1 inner old
  | _ => exact absurd new old

end

/-! ## A binding that is read again -/

/-- The name is assigned at `n` and later read, with no other binding between. -/
def Flows (n : Ident) (t : List Event) : Prop :=
  ∃ pre rest, t = pre ++ .bind n .plain :: rest ∧ ReadFirst n.key rest

section

variable {a b : List Event}

theorem Flows.mem (flows : Flows n a) : .bind n .plain ∈ a := by
  obtain ⟨pre, rest, rfl, -⟩ := flows
  simp

theorem Flows.append_right (flows : Flows n a) (b : List Event) : Flows n (a ++ b) := by
  obtain ⟨pre, rest, rfl, first⟩ := flows
  exact ⟨pre, rest ++ b, by simp, first.append_right b⟩

theorem Flows.of_append (flows : Flows n (a ++ b)) :
    Flows n a ∨ (.bind n .plain ∈ a ∧ ReadFirst n.key b) ∨ Flows n b := by
  obtain ⟨pre, rest, split, first⟩ := flows
  rcases append_eq_append_iff.1 split with ⟨more, rfl, later⟩ | ⟨more, rfl, later⟩
  · exact .inr (.inr ⟨more, rest, later, first⟩)
  · cases more with
    | nil => exact .inr (.inr ⟨[], rest, later.symm, first⟩)
    | cons event others =>
      obtain ⟨rfl, rfl⟩ := cons_eq_cons.1 later
      rcases readFirst_append.1 first with early | ⟨-, late⟩
      · exact .inl ⟨pre, others, rfl, early⟩
      · exact .inr (.inl ⟨by simp, late⟩)

/-- An assignment reads its value before it binds its name. -/
theorem not_flows_bind (es : List Expr) (name : Ident) :
    ¬ Flows n (readEvents es ++ [.bind name .plain]) := by
  intro flows
  rcases flows.of_append with early | ⟨early, -⟩ | ⟨pre, rest, split, first⟩
  · simpa [readEvents] using early.mem
  · simp [readEvents] at early
  · obtain ⟨-, rfl⟩ : pre = [] ∧ rest = [] := by
      cases pre <;> simp_all
    exact not_readFirst_nil first

end

namespace Paths

/-- On some path the name is assigned at `n` and read again. -/
def Carries (n : Ident) (p : Paths) : Prop :=
  ∃ t o, p t o ∧ Flows n t

variable {p q : Paths}

theorem carries_perform (carries : (perform events outcome).Carries n) : Flows n events := by
  obtain ⟨t, o, (⟨rfl, -⟩ | ⟨⟨more, rfl⟩, -⟩), flows⟩ := carries
  · exact flows
  · exact flows.append_right more

theorem Parts.carries {r : Paths} {between : Outcome} (parts : Parts p between q r)
    (carries : r.Carries n) :
    p.Carries n ∨ ((∃ a, p a between ∧ .bind n .plain ∈ a) ∧ q.Awaits n.key) ∨ q.Carries n := by
  obtain ⟨t, o, run, flows⟩ := carries
  obtain run | ⟨a, b, runA, runB, rfl⟩ := parts t o run
  · exact .inl ⟨t, o, run, flows⟩
  · rcases flows.of_append with early | ⟨early, late⟩ | late
    · exact .inl ⟨a, _, runA, early⟩
    · exact .inr (.inl ⟨⟨a, runA, early⟩, b, o, runB, late⟩)
    · exact .inr (.inr ⟨b, o, runB, late⟩)

theorem Carries.of_seq (carries : (seq p q).Carries n) :
    p.Carries n ∨ ((∃ a, p a .done ∧ .bind n .plain ∈ a) ∧ q.Awaits n.key) ∨ q.Carries n :=
  parts_seq.carries carries

theorem Carries.of_seq_right (clean : p.Within (· ≠ .bind n .plain)) (carries : (seq p q).Carries n) :
    q.Carries n := by
  rcases carries.of_seq with ⟨t, o, run, flows⟩ | ⟨⟨a, run, member⟩, -⟩ | late
  · exact absurd rfl (clean t o run _ flows.mem)
  · exact absurd rfl (clean a _ run _ member)
  · exact late

theorem Carries.of_either (carries : (either p q).Carries n) : p.Carries n ∨ q.Carries n := by
  obtain ⟨t, o, (run | run), flows⟩ := carries
  · exact .inl ⟨t, o, run, flows⟩
  · exact .inr ⟨t, o, run, flows⟩

theorem Carries.of_guarded (carries : (guarded p q).Carries n) :
    p.Carries n ∨ ((∃ a, p a .raised ∧ .bind n .plain ∈ a) ∧ q.Awaits n.key) ∨ q.Carries n :=
  parts_guarded.carries carries

/-- In a loop the name is read again in the same turn or in a later one. -/
theorem Carries.of_repeated (clean : p.Within (· ≠ .bind n .plain))
    (carries : (repeated kind p q).Carries n) :
    q.Carries n ∨ ((∃ b, q b .done ∧ .bind n .plain ∈ b) ∧ (repeated kind p q).Awaits n.key) := by
  obtain ⟨t, o, run, flows⟩ := carries
  have ofTurn {a b : List Event} {o : Outcome} (tested : p a .done) (turned : q b o)
      (flows : Flows n (a ++ b)) : q.Carries n := by
    rcases flows.of_append with early | ⟨early, -⟩ | late
    · exact absurd rfl (clean _ _ tested _ early.mem)
    · exact absurd rfl (clean _ _ tested _ early)
    · exact ⟨b, o, turned, late⟩
  induction run with
  | stop tested => exact absurd rfl (clean _ _ tested _ flows.mem)
  | again tested turned others ih =>
    rcases flows.of_append with now | ⟨bound, later⟩ | later
    · exact .inl (ofTurn tested turned now)
    · rcases mem_append.1 bound with inTest | inTurn
      · exact absurd rfl (clean _ _ tested _ inTest)
      · exact .inr ⟨⟨_, turned, inTurn⟩, _, _, others, later⟩
    · exact ih later
  | exit tested turned => exact .inl (ofTurn tested turned flows)
  | leave tested turned _ _ => exact .inl (ofTurn tested turned flows)

theorem Within.binds {o : Outcome} (within : p.Within (· ∈ events))
    (run : p t o) (member : .bind n .plain ∈ t) : Binds n events :=
  ⟨.plain, within t o run _ member⟩

theorem Carries.binds (carries : p.Carries n) (within : p.Within (· ∈ events)) :
    Binds n events := by
  obtain ⟨t, o, run, flows⟩ := carries
  exact within.binds run flows.mem

theorem Vain.not_done (vain : p.Vain n) (run : p t .done)
    (member : .bind n .plain ∈ t) : False := by
  simpa using vain t .done run ⟨.plain, member⟩

theorem Awaits.after {a : List Event} (run : p a .done) (unbound : ¬ Bound n.key a)
    (awaits : q.Awaits n.key) : (seq p q).Awaits n.key := by
  obtain ⟨b, o, later, first⟩ := awaits
  exact ⟨a ++ b, o, .inr ⟨a, b, run, later, rfl⟩, readFirst_append.2 (.inr ⟨unbound, first⟩)⟩

theorem clean_emit (absent : .bind n .plain ∉ events) : (emit events).Within (· ≠ .bind n .plain) :=
  within_emit fun _ member same => absent (same ▸ member)

theorem clean_perform (absent : .bind n .plain ∉ events) :
    (perform events outcome).Within (· ≠ .bind n .plain) :=
  within_perform fun _ member same => absent (same ▸ member)

theorem clean_reads (es : List Expr) :
    (perform (readEvents es) .done).Within (· ≠ .bind n .plain) :=
  clean_perform (by simp [readEvents])

end Paths

/-- The binding in a slot was not made at `n`. -/
def Slot.Other (n : Ident) (slot : Slot) : Prop :=
  ∀ e, slot = some e → e.ident ≠ n

/-- Nothing is reported at `n`, nor will it be because of the frame around. -/
structure Spared (n : Ident) (v w : Watch) : Prop where
  unused : n ∈ w.unused → n ∈ v.unused
  marked : ∀ e, w.stack.head? = some (some e) → e.ident = n → e.role = .plain → e.used

section

open Slot

variable {u : Watch} {left top outer : Slot}

theorem Slot.Made.other (made : slot.Made n.key events)
    (unbound : ¬ Binds n events) : slot.Other n := by
  rintro e rfl rfl
  exact unbound (made.origin e rfl).bound

theorem Slot.Steady.other (steady : Steady f) (here : slot.Other n)
    (made : (f none).Other n) : (f slot).Other n := by
  cases placed : f none with
  | none => rwa [steady.eq_self placed]
  | some e =>
    obtain ⟨e', after, same⟩ := steady.ident placed slot
    rw [after]
    rintro _ ⟨⟩ rfl
    exact made e placed same.symm

theorem Slot.other_receive (outside : outer.Other n) (inside : left.Other n)
    (branches usedBefore : Bool) : (outer.receive branches usedBefore left).Other n := by
  cases left with
  | none => exact outside
  | some e =>
    rintro _ ⟨⟩
    exact inside e rfl

/-- If something is left to the frame around, it was not made at `n`. -/
def Placed (n : Ident) (left : Slot) (w : Watch) : Prop :=
  left ≠ none → ∀ e, w.stack.head? = some (some e) → e.ident ≠ n

theorem Slot.Steady.placed (steady : Steady f) (bare : w.bare = f slot :: rest)
    (other : (f none).Other n) : Placed n (f none) w := by
  intro something e found same
  obtain ⟨e₀, placed⟩ := Option.ne_none_iff_exists'.1 something
  obtain ⟨e', after, ident⟩ := steady.ident placed slot
  have top : Slot.bare (some e) = some e' := (Watch.bare_head bare found).trans after
  cases top
  exact other e₀ placed (ident.symm.trans same)

theorem placed_of_receive {branches : Bool}
    (bare : w.bare = outer.receive branches usedBefore left :: rest) (other : left.Other n) :
    Placed n left w := by
  intro something e found same
  obtain ⟨e₀, rfl⟩ := Option.ne_none_iff_exists'.1 something
  have top : some e.bare = some (e₀.moveOut outer branches usedBefore) := Watch.bare_head bare found
  have ident : e.bare.ident = (e₀.moveOut outer branches usedBefore).ident := by
    rw [Option.some.inj top]
  exact other e₀ rfl (ident.symm.trans same)

/-- A binding that takes the place of a loop variable counts as one. -/
theorem Slot.role_of_iterated {name : Ident} {branches : Bool} (received : Slot.bare (some e) =
      receive (some (.fresh name .iterator)) branches usedBefore left) : e.role = .iterator := by
  have role : (some e.bare).map Entry.role = some .iterator := by
    rw [show some e.bare = _ from received]
    cases left <;> rfl
  exact Option.some.inj role

theorem Spared.later (spared : Spared n u v) (effect : Effect n.key left sites v w)
    (unbound : ¬ Binds n (eventsOf sites)) (placed : Placed n left w) : Spared n u w := by
  refine ⟨fun new => ?_, fun e found same plain => ?_⟩
  · rcases effect.unused n new with before | dropped
    · exact spared.unused before
    · exact absurd dropped.bound unbound
  · by_cases nothing : left = none
    · obtain ⟨o, before, ident, role, used⟩ := (effect.whole nothing).head found
      exact used (spared.marked o before (ident.trans same) (role.trans plain))
    · exact absurd same (placed nothing e found)

theorem Spared.earlier (effect : Effect n.key left sites u v)
    (unbound : ¬ Binds n (eventsOf sites)) (spared : Spared n v w) : Spared n u w := by
  refine ⟨fun new => ?_, spared.marked⟩
  rcases effect.unused n (spared.unused new) with before | dropped
  · exact before
  · exact absurd dropped.bound unbound

theorem spared_of_noticed (noticed : Noticed left w) (placed : Placed n left w)
    (unused : n ∈ w.unused → n ∈ v.unused) : Spared n v w := by
  refine ⟨unused, fun e found same plain => ?_⟩
  by_cases nothing : left = none
  · obtain ⟨others, stack⟩ := head?_eq_some_iff.1 found
    simpa [stack] using noticed nothing
  · exact absurd same (placed nothing e found)

/-- A binding takes its mark out of a frame, and out of a loop also the mark of the binding outside. -/
theorem marked_close (bare : w.bare = top :: outer :: rest) (other : outer.Other n)
    (marked : ∀ e, w.stack.head? = some (some e) → e.ident = n → e.role = .plain →
      e.used ∨ (closed.site.isLoop ∧ visiblyUsed w.stack.tail))
    (found : (w.close closed around).stack.head? = some (some e)) (same : e.ident = n)
    (plain : e.role = .plain) : e.used := by
  obtain ⟨inner, next, others, stack, -, rfl⟩ := Watch.stack_of_bare bare
  simp only [Watch.close, stack, head?_cons, Option.some.injEq] at found
  cases gone : leaving closed around inner with
  | none =>
    rw [gone] at found
    subst found
    exact absurd same (other e.bare rfl)
  | some out =>
    rw [gone] at found
    cases found
    obtain ⟨o, rfl, moved⟩ := of_leaving gone
    have kept : out.ident = o.ident ∧ out.role = o.role ∧ out.used = o.used := by
      rcases moved with ⟨-, rfl⟩ | ⟨-, -, rfl⟩ <;> exact ⟨rfl, rfl, rfl⟩
    have plainInside : out.role = .plain := by
      cases next with
      | none => exact plain
      | some p =>
        simp only [Entry.moveOut] at plain
        split at plain
        · cases plain
        · exact plain
    rcases marked o (by rw [stack]; rfl) (kept.1.symm.trans same) (kept.2.1.symm.trans plainInside) with
      used | ⟨isLoop, seen⟩
    · simp [Entry.moveOut, kept.2.2, used]
    · rw [stack] at seen
      simp only [tail_cons] at seen
      simp [Entry.moveOut, isLoop, seen]

theorem Spared.close (spared : Spared n u w) (same : u.unused = v.unused)
    (bare : w.bare = top :: outer :: rest) (other : outer.Other n) (closed : FrameShape)
    (around : Around) : Spared n v (w.close closed around) := by
  refine ⟨fun new => ?_, fun e => marked_close bare other fun e found ident plain =>
    .inl (spared.marked e found ident plain)⟩
  rcases Watch.mem_unused_close new with before | ⟨-, e, found, ident, unused, plain⟩
  · exact same ▸ spared.unused before
  · have used := spared.marked e found ident plain
    rw [unused] at used
    cases used

end

section

open Watch Slot

variable (loopsBranch : Bool)

theorem Chunk.placed (c : Chunk)
    (bare : v.bare = slot :: rest) (unbound : ¬ Binds n (eventsOf c.sites)) :
    Placed n (c.leaves n.key loopsBranch none) (c.watch n.key loopsBranch v) := by
  have walked := watch_bare (x := n.key) loopsBranch c bare
  have other := (Chunk.leaves_made loopsBranch c made_none (List.Subset.refl _)).other unbound
  cases c with
  | stmt s => exact (s.track_steady n.key loopsBranch).placed walked other
  | stmts statements => exact (Stmt.trackAll_steady n.key loopsBranch statements).placed walked other
  | nothing => exact fun something => absurd rfl something
  | _ => exact placed_of_receive walked other

theorem Chunk.other_track (c : Chunk) (other : slot.Other n)
    (unbound : ¬ Binds n (eventsOf c.sites)) : (c.track n.key loopsBranch slot).Other n := by
  have inside := (Chunk.leaves_made loopsBranch c made_none (List.Subset.refl _)).other unbound
  cases c with
  | stmt s => exact (s.track_steady n.key loopsBranch).other other inside
  | stmts statements => exact (Stmt.trackAll_steady n.key loopsBranch statements).other other inside
  | nothing => exact other
  | _ => exact other_receive other inside _ _

section

variable {c d : Chunk} (bare : v.bare = slot :: rest) (first : c.Sound n.key)
  (second : d.Sound n.key) (apart : Binds n (eventsOf c.sites) → ¬ Binds n (eventsOf d.sites))

include bare second apart

/-- What is read again in the first of two parts. -/
theorem Chunk.spared_first (carries : c.Runs.Carries n)
    (spared : Spared n v (c.watch n.key loopsBranch v)) :
    Spared n v (d.watch n.key loopsBranch (c.watch n.key loopsBranch v)) := by
  have walked := watch_bare (x := n.key) loopsBranch c bare
  have unbound := apart (carries.binds (c.runs_within fun _ => id))
  exact spared.later (second.effect loopsBranch walked) unbound (d.placed loopsBranch walked unbound)

/-- What is read in the second part is bound in the first one. -/
theorem Chunk.spared_between {o : Outcome} (run : c.Runs t o)
    (assigned : .bind n .plain ∈ t) (awaits : d.Runs.Awaits n.key)
    (kept : n ∈ (c.watch n.key loopsBranch v).unused → n ∈ v.unused)
    (bound : (d.watch n.key loopsBranch (c.watch n.key loopsBranch v)).free = []) :
    Spared n v (d.watch n.key loopsBranch (c.watch n.key loopsBranch v)) := by
  have walked := watch_bare (x := n.key) loopsBranch c bare
  have unbound := apart ((c.runs_within fun _ => id).binds run assigned)
  refine spared_of_noticed (d.noticed loopsBranch walked second awaits bound)
    (d.placed loopsBranch walked unbound) fun new => ?_
  rcases (second.effect loopsBranch walked).unused n new with before | dropped
  · exact kept before
  · exact absurd dropped.bound unbound

omit second in
include first in
/-- What is read again in the second of two parts. -/
theorem Chunk.spared_second (other : slot.Other n) (carries : d.Runs.Carries n)
    (spared : ∀ {slot : Slot} {rest : List Slot},
      (c.watch n.key loopsBranch v).bare = slot :: rest → slot.Other n →
      Spared n (c.watch n.key loopsBranch v) (d.watch n.key loopsBranch (c.watch n.key loopsBranch v))) :
    Spared n v (d.watch n.key loopsBranch (c.watch n.key loopsBranch v)) := by
  have unbound : ¬ Binds n (eventsOf c.sites) := fun binds =>
    apart binds (carries.binds (d.runs_within fun _ => id))
  exact (spared (watch_bare loopsBranch c bare) (c.other_track loopsBranch other unbound)).earlier
    (first.effect loopsBranch bare) unbound

end

/-- The binding with which a loop is entered keeps its role, so that its frame has nothing to report. -/
theorem Stmt.Loops.role_of_entered {body : Block} (loops : s.Loops body) (bare : v.bare = slot :: rest)
    (bound : Bound n.key (Site.stmt s).events)
    (found : (body.watch n.key loopsBranch .plain (s.enteredWatch n.key v)).stack.head? =
      some (some e)) : e.role = .iterator := by
  have turned := watch_bare (x := n.key) loopsBranch (.block .plain body)
    (loops.entered_bare (x := n.key) bare)
  have top := bare_head turned found
  obtain ⟨name, role, member, same⟩ := bound
  cases loops with
  | forTo counter limit stride body range =>
    simp [Site.events, readEvents] at member
    rw [Stmt.enteredSlot, Slot.rebind, if_pos (member.1 ▸ same)] at top
    exact role_of_iterated top
  | forEach item target body range =>
    simp [Site.events, readEvents] at member
    rw [Stmt.enteredSlot, Slot.rebind, if_pos (member.1 ▸ same)] at top
    exact role_of_iterated top
  | whileDo condition body range => simp [Site.events, readEvents] at member

/-- If the name is assigned at `n` and read again on some path, the assignment is not reported. -/
theorem Chunk.spared (c : Chunk)
    (bare : v.bare = slot :: rest) (other : slot.Other n) (sound : c.Sound n.key)
    (once : BindsOnce n (eventsOf c.sites)) (carries : c.Runs.Carries n)
    (bound : (c.watch n.key loopsBranch v).free = []) :
    Spared n v (c.watch n.key loopsBranch v) := by
  have nothing : Slot.Other n none := fun _ found => by cases found
  induction c generalizing v slot rest with
  | simple s simple =>
    rw [Chunk.Runs, Stmt.runs_of_simple simple] at carries
    simpa [readEvents] using (carries_perform carries).mem
  | assign a => exact absurd (carries_perform carries) (not_flows_bind _ _)
  | dim name sizes range => exact absurd (carries_perform carries) (not_flows_bind _ _)
  | ifThen i ih => exact ih bare other sound.ifThen once carries bound
  | loop s body loops ih =>
    obtain ⟨-, inside⟩ := sound.loop loops
    rw [Chunk.sites, loops.sites, eventsOf_cons] at once
    obtain ⟨-, onceInside, apart⟩ := once.append
    rw [Chunk.watch, loops.watch] at bound ⊢
    have boundInside := free_of_grows (close_grows _ _ _) bound
    have opened := loops.entered_bare (x := n.key) bare
    have turned := watch_bare (x := n.key) loopsBranch (.block .plain body) opened
    obtain ⟨kind, start, test, binds, runs, first, tested, own, a, started⟩ := loops.runs
    have iterates (e : Event) (member : e ∈ (Site.stmt s).events) : e ≠ .bind n .plain := by
      rintro rfl
      cases loops <;> simp [Site.events, readEvents] at member
    have clean : (emit binds).Within (· ≠ .bind n .plain) :=
      within_emit fun e member => iterates e (own member)
    rw [Chunk.Runs, runs] at carries
    rcases (carries.of_seq_right (first.mono iterates)).of_repeated (tested.mono iterates) with
      inTurn | ⟨⟨b, run, assigned⟩, awaits⟩
    · have carried := inTurn.of_seq_right clean
      have unbound := fun binds => apart binds
        (carried.binds (runs_within (.block .plain body) fun _ => id))
      have otherInside : (s.enteredSlot n.key).Other n :=
        (loops.entered_made (List.Subset.refl _)).other unbound
      exact (ih opened otherInside inside onceInside carried boundInside).close
        (loops.entered_unused v) turned other _ _
    · have unused (new : n ∈ (body.watch n.key loopsBranch .plain (s.enteredWatch n.key v)).unused) :
          n ∈ v.unused := Classical.byContradiction fun old => by
        obtain ⟨c, d, begun, inner, rfl⟩ := seq_done run
        have inTurn := (mem_append.1 assigned).resolve_left fun early =>
          clean c _ begun _ early rfl
        exact (Chunk.vain loopsBranch (.block .plain body) opened inside onceInside new
          (by rwa [loops.entered_unused])).not_done inner inTurn
      refine ⟨fun new => unused (mem_unused_close_plain new), fun e => marked_close turned other
        fun e found _ plain => ?_⟩
      by_cases iterated : Bound n.key (Site.stmt s).events
      · have role := loops.role_of_entered loopsBranch bare iterated found
        rw [plain] at role
        cases role
      · refine .inr ⟨loops.isLoop, loops.visible_of_awaits loopsBranch bare sound ?_ boundInside⟩
        rw [runs]
        refine awaits.after started ?_
        rintro ⟨name, role, member, same⟩
        exact iterated ⟨name, role, first a _ started _ member, same⟩
  | tryCatch body handler range tried caught =>
    obtain ⟨here, inBody, inHandler⟩ := sound.tryCatch
    have parts : BindsOnce n (eventsOf (body.sites ++ handler.sites)) := once
    rw [eventsOf_append] at parts
    obtain ⟨onceBody, onceHandler, apart⟩ := parts.append
    have opened := bare_push bare none
    have after := watch_bare (x := n.key) loopsBranch (.handler handler)
      (watch_bare (x := n.key) loopsBranch (.block .branches body) opened)
    have boundInside := free_of_grows (close_grows _ _ _) bound
    refine Spared.close (u := v.push none) (v := v) ?_ rfl after other _ _
    rcases carries.of_guarded with early | ⟨⟨a, run, assigned⟩, awaits⟩ | late
    · exact Chunk.spared_first loopsBranch opened inHandler apart early
        (tried opened nothing inBody onceBody early
          (free_of_grows (watch_grows n.key loopsBranch (.handler handler) _) boundInside))
    · refine Chunk.spared_between loopsBranch (c := .block .branches body) opened inHandler apart run
        assigned awaits (fun before => ?_) boundInside
      rcases (inBody.effect loopsBranch opened).unused n before with old | dropped
      · exact old
      · obtain ⟨b, member, ends, binds⟩ := dropped.ended
        exact absurd (Binds.bound binds) (here.tried body handler range rfl b member ends)
    · exact Chunk.spared_second loopsBranch opened inBody apart nothing late fun behind others =>
        caught behind others inHandler onceHandler late boundInside
  | cons s others here behind =>
    obtain ⟨inFirst, inOthers⟩ := sound.cons
    rw [Chunk.sites, Stmt.sitesAll, eventsOf_append] at once
    obtain ⟨onceHere, onceLater, apart⟩ := once.append
    have runs : (seq s.Runs (Stmt.RunsAll others)).Carries n := by
      obtain ⟨t, o, (⟨rfl, -⟩ | run), flows⟩ := carries
      · simpa using flows.mem
      · exact ⟨t, o, run, flows⟩
    rcases runs.of_seq with early | ⟨⟨a, run, assigned⟩, awaits⟩ | late
    · exact Chunk.spared_first loopsBranch (c := .stmt s) bare inOthers apart early
        (here bare other inFirst onceHere early
          (free_of_grows (watch_grows n.key loopsBranch (.stmts others) _) bound))
    · exact Chunk.spared_between loopsBranch (c := .stmt s) bare inOthers apart run assigned awaits
        (fun before => Classical.byContradiction fun old =>
          (Chunk.vain loopsBranch (.stmt s) bare inFirst onceHere before old).not_done run assigned)
        bound
    · exact Chunk.spared_second loopsBranch (d := .stmts others) bare inFirst apart other late
        fun walked others => behind walked others inOthers onceLater late bound
  | block around s others range ih =>
    have opened := bare_push bare none
    exact (ih opened nothing sound.block once carries
      (free_of_grows (close_grows _ _ _) bound)).close (v := v) rfl
      (watch_bare loopsBranch (.stmts (s :: others)) opened) other _ _
  | branch around condition onTrue onFalse range inline taken passed =>
    obtain ⟨inTrue, inFalse⟩ := sound.branch
    rw [Chunk.sites_branch, eventsOf_cons, eventsOf_append] at once
    rw [Chunk.runs_branch] at carries
    rw [Chunk.watch_branch] at bound ⊢
    obtain ⟨onceTrue, onceFalse, apart⟩ := once.append.2.1.append
    have opened := bare_push (bare_read bare n.key (readsOf [condition])) none
    have after := watch_bare (x := n.key) loopsBranch onFalse.chunk
      (watch_bare (x := n.key) loopsBranch (.block .branches onTrue) opened)
    have boundInside := free_of_grows (close_grows _ _ _) bound
    refine Spared.close (u := (v.read n.key (readsOf [condition])).push none) ?_
      (by simp [push, read_unused]) after other _ _
    rcases (carries.of_seq_right (clean_reads [condition])).of_either with first | second
    · exact Chunk.spared_first loopsBranch opened inFalse apart first
        (taken opened nothing inTrue onceTrue first
          (free_of_grows (watch_grows n.key loopsBranch onFalse.chunk _) boundInside))
    · exact Chunk.spared_second loopsBranch opened inTrue apart nothing second fun behind others =>
        passed behind others inFalse onceFalse second boundInside
  | handler caught body range ih =>
    obtain ⟨-, onceInside, apart⟩ := once.append
    have carried := carries.of_seq_right (clean_emit (by simp))
    have unbound : ¬ Binds n (caught.toList.map (.bind · .caughtError)) := fun binds =>
      apart binds (carried.binds (runs_within (.block .handler body) fun _ => id))
    have opened := bare_push bare (Slot.opening n.key (.handler ⟨caught, body, range⟩))
    rw [bare_opening] at opened
    have otherCaught : (Slot.opening n.key (.handler ⟨caught, body, range⟩)).Other n := by
      rw [opening_handler]
      rintro e found rfl
      obtain ⟨name, kept, rfl⟩ := Option.map_eq_some_iff.1 found
      exact unbound ⟨.caughtError, mem_map.2
        ⟨name, Option.mem_toList.2 (Option.filter_eq_some_iff.1 kept).1, rfl⟩⟩
    exact (ih opened otherCaught sound.handler onceInside carried
      (free_of_grows (close_grows _ _ _) bound)).close (v := v) rfl
      (watch_bare loopsBranch (.block .handler body) opened) other _ _
  | nothing =>
    obtain ⟨t, o, ⟨rfl, -⟩, flows⟩ := carries
    simpa using flows.mem
  | _ => simpa using (carries_perform carries).mem

end

/-! ## The reports of a function -/

namespace Func

variable {f : Func} {n : Ident}

theorem free_eq_nil (loopsBranch : Bool) (own : f.isLocal x)
    (watchable : ∀ site ∈ f.body.sites, site.watchable x)
    (notDeferred : ∀ use ∈ (f.flow loopsBranch).freeUses, Text.lower use.name ≠ x) :
    (f.watch x loopsBranch).free = [] := by
  obtain ⟨last, -, -, closed⟩ := f.flow_eq loopsBranch
  rw [closed] at notDeferred
  rw [← (bodyWalk_watch loopsBranch own watchable).1]
  exact filterMap_eq_nil_iff.2 fun use member => if_neg (notDeferred use member)

/-- If an assignment is reported as unused, every path from it to a read of its name passes another
binding of the name, provided that the name is always read behind a binding in the text, that the
text agrees with the paths as far as `Site.Sound` asks for it, and that no condition tests the
validity of the name, which would bind it outside all statements (`Site.watchable`). -/
theorem dead_of_reported (loopsBranch : Bool) (own : f.isLocal n.key)
    (watchable : ∀ site ∈ f.body.sites, site.watchable n.key)
    (notDeferred : ∀ use ∈ (f.flow loopsBranch).freeUses, Text.lower use.name ≠ n.key)
    (once : BindsOnce n (eventsOf f.body.sites)) (sound : ∀ site ∈ f.body.sites, site.Sound n.key)
    (reported : ⟨.unusedVariable n.text, n.range⟩ ∈ (f.flow loopsBranch).findings)
    {pre mid post : List Event} {r : Ident} {o : Outcome}
    (run : f.body.Runs (pre ++ .bind n .plain :: (mid ++ .read r :: post)) o)
    (same : r.key = n.key) : Bound n.key mid := by
  refine Classical.byContradiction fun unbound => ?_
  have carries : f.body.Runs.Carries n :=
    ⟨_, o, run, pre, _, rfl, mid, r, post, rfl, same, unbound⟩
  have notFree := free_eq_nil loopsBranch own watchable notDeferred
  rw [mem_unused_iff loopsBranch own watchable] at reported
  unfold Func.watch at notFree reported
  generalize f.body = body at once sound carries notFree reported
  cases body with
  | mk statements range =>
    have spared : Spared n _ (Stmt.watchAll n.key loopsBranch statements ⟨[none], [], [], []⟩) :=
      Chunk.spared loopsBranch (.stmts statements) rfl (fun _ found => by cases found)
        ⟨(forall_mem_cons.1 sound).2, trivial, trivial⟩ once carries notFree
    rcases reported with dropped | ⟨slot, member, unused⟩
    · cases spared.unused dropped
    · obtain ⟨last, stack, -⟩ := map_eq_singleton_iff.1
        (watch_bare (x := n.key) loopsBranch (.stmts statements) (v := ⟨[none], [], [], []⟩) rfl)
      change (Stmt.watchAll n.key loopsBranch statements _).stack = _ at stack
      rw [stack] at member
      cases mem_singleton.1 member
      obtain ⟨e, rfl, ident, notUsed, plain⟩ := Slot.mem_unusedIn unused
      have used := spared.marked e (by rw [stack]; rfl) ident plain
      rw [notUsed] at used
      cases used

/-- In a loop `x` is assigned on line 2, read on line 3, and assigned again on line 4. -/
def assignedLast : Func :=
  let one := Expr.literal .number "1" .empty
  .sub ["c"] [.whileDo (.var ⟨"c", .empty⟩ false)
    ⟨[.assign ⟨.on "x" 2, one, .empty, none⟩, .print [.var (.on "x" 3) false] .empty,
      .assign ⟨.on "x" 4, one, .empty, none⟩], .empty⟩ .empty]

theorem assignedLast_runs : assignedLast.body.Runs
    ([.read ⟨"c", .empty⟩, .bind (.on "x" 2) .plain, .read (.on "x" 3)] ++ .bind (.on "x" 4) .plain ::
      ([.read ⟨"c", .empty⟩, .bind (.on "x" 2) .plain] ++ .read (.on "x" 3) ::
        [.bind (.on "x" 4) .plain, .read ⟨"c", .empty⟩])) .done := by
  have turned : Stmt.RunsAll
      [.assign ⟨.on "x" 2, .literal .number "1" .empty, .empty, none⟩,
        .print [.var (.on "x" 3) false] .empty,
        .assign ⟨.on "x" 4, .literal .number "1" .empty, .empty, none⟩]
      [.bind (.on "x" 2) .plain, .read (.on "x" 3), .bind (.on "x" 4) .plain] .done :=
    .inr (.inr ⟨[_], _, .inl ⟨rfl, rfl⟩, .inr (.inr ⟨[_], _, .inl ⟨rfl, rfl⟩,
      .inr (.inr ⟨[_], [], .inl ⟨rfl, rfl⟩, perform_all _ _, rfl⟩), rfl⟩), rfl⟩)
  exact .inr (.inr ⟨_, [], .again (perform_all _ _) turned (.again (perform_all _ _) turned
    (.stop (perform_all _ _))), perform_all _ _, rfl⟩)

/-- No path through the loop reads `x` before it is assigned. -/
theorem assignedLast_inOrder (member : .stmt s ∈ assignedLast.body.sites)
    (isLoop : (Site.stmt s).isLoop) : s.InOrder "x" := by
  intro awaits
  simp only [assignedLast, Func.sub, Block.sites, Stmt.sitesAll, Stmt.sites, cons_append,
    nil_append, mem_cons, not_mem_nil, or_false, Site.stmt.injEq, reduceCtorEq,
    false_or] at member
  rcases member with rfl | rfl | rfl | rfl
  · rcases awaits.of_repeated with test | turn
    · obtain ⟨r, member, same⟩ := readFirst_reads.1 (awaits_perform test)
      cases mem_singleton.1 member
      exact absurd same (by decide)
    · rcases (Stmt.awaits_cons turn).of_seq with own | ⟨⟨a, assigned, unbound⟩, -⟩
      · exact absurd rfl (readFirst_bind.1 (awaits_perform own)).1
      · exact absurd (bound_of_perform rfl assigned) unbound
  all_goals cases isLoop

theorem dead_of_reported_assignedLast :
    ⟨.unusedVariable "x", (Ident.on "x" 4).range⟩ ∈ (assignedLast.flow true).findings ∧
      (∃ pre mid post o,
        assignedLast.body.Runs
          (pre ++ .bind (.on "x" 4) .plain :: (mid ++ .read (.on "x" 3) :: post)) o) ∧
      ∀ pre mid post r o,
        assignedLast.body.Runs (pre ++ .bind (.on "x" 4) .plain :: (mid ++ .read r :: post)) o →
        r.key = "x" → Bound "x" mid := by
  have reported :
      ⟨.unusedVariable "x", (Ident.on "x" 4).range⟩ ∈ (assignedLast.flow true).findings := by
    decide +kernel
  have nothingFree : (assignedLast.flow true).freeUses = [] := by decide +kernel
  have straight : ∀ site ∈ assignedLast.body.sites, site.isIf = false ∧ site.isHandler = false ∧
    site.isTry = false := by decide
  refine ⟨reported, ⟨_, _, _, _, assignedLast_runs⟩, fun pre mid post r o run same => ?_⟩
  refine dead_of_reported (n := .on "x" 4) true ⟨by decide, rfl⟩ (by decide) (by simp [nothingFree])
    (by decide) (fun site member => Site.sound_of_straight (straight site member) ?_) reported run same
  rintro s rfl isLoop
  exact assignedLast_inOrder member isLoop

/-- The body of a `try` assigns `x` on line 3 and throws; the handler reads it on line 6. -/
def assignedBeforeThrow : Func :=
  let one := Expr.literal .number "1" .empty
  .sub [] [.assign ⟨.on "x" 1, one, .empty, none⟩,
    .tryCatch ⟨[.assign ⟨.on "x" 3, one, .empty, none⟩, .throw one .empty], .empty⟩
      ⟨some ⟨"e", .empty⟩, ⟨[.print [.var (.on "x" 6) false] .empty], .empty⟩, .empty⟩ .empty]

/-- The assignment is reported, though the handler reads what it has assigned. -/
theorem read_though_reported_assignedBeforeThrow : (assignedBeforeThrow.isLocal "x" ∧
      (∀ site ∈ assignedBeforeThrow.body.sites, site.watchable "x") ∧
      (assignedBeforeThrow.flow true).freeUses = []) ∧
    ⟨.unusedVariable "x", (Ident.on "x" 3).range⟩ ∈ (assignedBeforeThrow.flow true).findings ∧
    ∃ pre mid post o, assignedBeforeThrow.body.Runs
      (pre ++ .bind (.on "x" 3) .plain :: (mid ++ .read (.on "x" 6) :: post)) o ∧ ¬ Bound "x" mid := by
  refine ⟨⟨⟨by decide, rfl⟩, by decide, by decide +kernel⟩, by decide +kernel,
    [.bind (.on "x" 1) .plain], [.bind ⟨"e", .empty⟩ .caughtError], [], .done, ?_, ?_⟩
  · have thrown : Stmt.RunsAll [.assign ⟨.on "x" 3, .literal .number "1" .empty, .empty, none⟩,
        .throw (.literal .number "1" .empty) .empty] [.bind (.on "x" 3) .plain] .raised :=
      .inr (.inr ⟨[_], [], .inl ⟨rfl, rfl⟩, runsAll_raised _, rfl⟩)
    have printed : Stmt.RunsAll [.print [.var (.on "x" 6) false] .empty] [.read (.on "x" 6)] .done :=
      .inr (.inr ⟨[_], [], .inl ⟨rfl, rfl⟩, perform_all _ _, rfl⟩)
    exact .inr (.inr ⟨[_], _, .inl ⟨rfl, rfl⟩, .inr (.inr ⟨_, [], .inr ⟨[_], _, thrown,
      .inr ⟨[_], _, ⟨rfl, rfl⟩, printed, rfl⟩, rfl⟩, perform_all _ _, rfl⟩), rfl⟩)
  · rintro ⟨name, role, member, same⟩
    cases mem_singleton.1 member
    exact absurd same (by decide)

end Func

end ChannelLint
