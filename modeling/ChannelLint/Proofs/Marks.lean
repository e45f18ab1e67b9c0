import ChannelLint.Proofs.Standing

/-!
# Marks of use

A read marks the innermost binding of its name. Marks are never taken back while a binding stands, and
a binding only goes when another one takes its place or its frame is dropped. So the frames around a
statement change by marks alone, and what a statement leaves to the frame around it tells whether that
frame still holds its old binding.
-/
namespace ChannelLint

open List
open Chunk (watch_bare watch_grows)

variable {names : List Ident} {name : Ident} {s : Stmt} {slot left : Slot} {v w : Watch}

namespace Slot

variable {a b c : List Slot}

@[simp] theorem visiblyUsed_none (rest : List Slot) :
    visiblyUsed (none :: rest) = visiblyUsed rest :=
  rfl

@[simp] theorem visiblyUsed_some (e : Entry) (rest : List Slot) :
    visiblyUsed (some e :: rest) = e.used :=
  rfl

/-- The same bindings, and those that were marked still are. -/
structure Marked (before after : List Slot) : Prop where
  bare : after.map Slot.bare = before.map Slot.bare
  used : ∀ k, visiblyUsed (before.drop k) → visiblyUsed (after.drop k)

theorem Marked.refl (a : List Slot) : Marked a a :=
  ⟨rfl, fun _ => id⟩

theorem Marked.trans (first : Marked a b) (second : Marked b c) : Marked a c :=
  ⟨second.bare.trans first.bare, fun k seen => second.used k (first.used k seen)⟩

theorem Marked.tail (marked : Marked a b) : Marked a.tail b.tail := by
  refine ⟨?_, fun k seen => ?_⟩
  · rw [map_tail, map_tail, marked.bare]
  · rw [← drop_one, drop_drop] at seen ⊢
    exact marked.used _ seen

theorem Marked.visible (marked : Marked a b) (seen : visiblyUsed a) : visiblyUsed b :=
  marked.used 0 seen

/-- A binding that was marked stands there with its mark. -/
theorem Marked.head {e : Entry} (marked : Marked a b) (found : b.head? = some (some e)) :
    ∃ o, a.head? = some (some o) ∧ o.ident = e.ident ∧ o.role = e.role ∧ (o.used → e.used) := by
  obtain ⟨after, rfl⟩ := head?_eq_some_iff.1 found
  cases a with
  | nil => exact absurd marked.bare (by simp)
  | cons top before =>
    cases top with
    | none => exact absurd marked.bare (by simp [Slot.bare])
    | some o =>
      have same : e.bare = o.bare := by simpa [Slot.bare] using (List.cons.inj marked.bare).1
      have ident : e.bare.ident = o.bare.ident := congrArg Entry.ident same
      have role : e.bare.role = o.bare.role := congrArg Entry.role same
      exact ⟨o, rfl, ident.symm, role.symm, marked.used 0⟩

theorem used_mark (specific : Bool) (stack : List Slot) (k : Nat)
    (seen : visiblyUsed (stack.drop k)) : visiblyUsed ((mark specific stack).drop k) := by
  induction stack generalizing specific k with
  | nil => exact seen
  | cons slot rest ih =>
    cases slot with
    | none =>
      cases k with
      | zero => exact ih specific 0 seen
      | succ k => exact ih specific k seen
    | some e =>
      unfold mark
      split
      · cases k with
        | zero => rfl
        | succ k => exact seen
      · cases k with
        | zero => simpa using Or.inl (by simpa using seen)
        | succ k => exact ih false k seen

theorem marked_mark (specific : Bool) (stack : List Slot) : Marked stack (mark specific stack) :=
  ⟨bare_mark specific stack, used_mark specific stack⟩

/-- The innermost binding is marked. -/
theorem visiblyUsed_mark {stack : List Slot} (bound : stack.all Option.isNone = false) :
    visiblyUsed (mark true stack) := by
  induction stack with
  | nil => cases bound
  | cons slot rest ih =>
    cases slot with
    | none => exact ih (by simpa using bound)
    | some e =>
      unfold mark
      split <;> simp

end Slot

namespace Watch

open Slot

variable {x : String}

theorem marked_readName (v : Watch) (name : Ident) : Marked v.stack (v.readName name).stack := by
  unfold readName
  split
  · exact Marked.refl _
  · exact marked_mark true v.stack

theorem marked_foldl_readName (names : List Ident) (v : Watch) :
    Marked v.stack (names.foldl readName v).stack := by
  induction names generalizing v with
  | nil => exact Marked.refl _
  | cons name others ih => exact (marked_readName v name).trans (ih _)

theorem marked_read (x : String) (names : List Ident) (v : Watch) :
    Marked v.stack (v.read x names).stack :=
  marked_foldl_readName _ v

/-- Where the name is read and is not free, its innermost binding is marked. -/
theorem visiblyUsed_read (member : name ∈ names)
    (same : name.key = x) (bound : (v.read x names).free = []) :
    visiblyUsed (v.read x names).stack := by
  have watched : name ∈ names.filter (·.key = x) := mem_filter.2 ⟨member, by simpa using same⟩
  unfold read at bound ⊢
  generalize names.filter (·.key = x) = reads at watched bound ⊢
  cases reads with
  | nil => cases watched
  | cons first others =>
    have notFree : (v.readName first).free = [] :=
      prefix_nil.1 (bound ▸ (foldl_readName_grows others _).free)
    refine (marked_foldl_readName others _).visible ?_
    unfold readName at notFree ⊢
    split at notFree
    · simp at notFree
    · next bound =>
      rw [if_neg bound]
      exact visiblyUsed_mark (by simpa using bound)

end Watch

/-! ## Bindings that stay and bindings that are replaced -/

namespace Slot

/-- Leaves every slot as it is, or puts a binding of its own into each. -/
def Steady (f : Slot → Slot) : Prop :=
  (∀ slot, f slot = slot) ∨ ∃ ident, ∀ slot, ∃ e, f slot = some e ∧ e.ident = ident

variable {f : Slot → Slot}

theorem Steady.eq_self (steady : Steady f) (nothing : f none = none) (slot : Slot) :
    f slot = slot := by
  rcases steady with idle | ⟨ident, places⟩
  · exact idle slot
  · obtain ⟨e, placed, -⟩ := places none
    rw [nothing] at placed
    cases placed

theorem Steady.ident (steady : Steady f) {e : Entry} (placed : f none = some e) (slot : Slot) :
    ∃ e', f slot = some e' ∧ e'.ident = e.ident := by
  rcases steady with idle | ⟨ident, places⟩
  · cases (idle none).symm.trans placed
  · obtain ⟨_, same, rfl⟩ := places none
    cases same.symm.trans placed
    exact places slot

theorem steady_rebind (x : String) (name : Ident) (role : Role) :
    Steady fun slot => slot.rebind x name role := by
  by_cases same : name.key = x
  · exact .inr ⟨name, fun slot => ⟨.fresh name role, by simp [Slot.rebind, same], rfl⟩⟩
  · exact .inl fun slot => by simp [Slot.rebind, same]

theorem steady_receive (inner : Slot) : Steady fun slot => slot.receive false false inner := by
  cases inner with
  | none => exact .inl fun slot => rfl
  | some e => exact .inr ⟨e.ident, fun slot => ⟨_, rfl, rfl⟩⟩

theorem receive_eq_none {outer inner : Slot} {branches usedBefore : Bool} :
    outer.receive branches usedBefore inner = none ↔ outer = none ∧ inner = none := by
  cases inner <;> simp [receive]

theorem joined_eq_none {first second : Slot} :
    joined first second = none ↔ first = none ∧ second = none := by
  simp [joined, receive_eq_none]

end Slot

section

variable (x : String) (loopsBranch : Bool)

theorem Stmt.track_steady (s : Stmt) : Slot.Steady (s.track x loopsBranch) := by
  by_cases simple : s.isSimple
  · exact .inl (Stmt.track_of_simple simple)
  · cases s with
    | assign a => exact Slot.steady_rebind x _ _
    | dim name sizes range => exact Slot.steady_rebind x _ _
    | ifThen branch => exact Slot.steady_receive _
    | forTo counter limit stride body range => exact Slot.steady_receive _
    | forEach item target body range => exact Slot.steady_receive _
    | whileDo condition body range => exact Slot.steady_receive _
    | tryCatch body handler range => exact Slot.steady_receive _
    | _ => exact absurd rfl simple

theorem Stmt.trackAll_steady (statements : List Stmt) :
    Slot.Steady (Stmt.trackAll x loopsBranch statements) := by
  induction statements with
  | nil => exact .inl fun _ => rfl
  | cons s others ih =>
    rcases ih with idle | ⟨ident, places⟩
    · rcases s.track_steady x loopsBranch with first | ⟨ident, places⟩
      · exact .inl fun slot => (idle _).trans (first slot)
      · refine .inr ⟨ident, fun slot => ?_⟩
        obtain ⟨e, placed, same⟩ := places slot
        exact ⟨e, (idle _).trans placed, same⟩
    · exact .inr ⟨ident, fun slot => places _⟩

theorem Stmt.trackAll_cons_none {others : List Stmt}
    (nothing : Stmt.trackAll x loopsBranch (s :: others) none = none) :
    s.track x loopsBranch none = none ∧ Stmt.trackAll x loopsBranch others none = none := by
  have placed : Stmt.trackAll x loopsBranch others (s.track x loopsBranch none) = none := nothing
  rcases Stmt.trackAll_steady x loopsBranch others with idle | ⟨ident, places⟩
  · exact ⟨(idle _).symm.trans placed, idle none⟩
  · obtain ⟨e, some, -⟩ := places (s.track x loopsBranch none)
    cases placed.symm.trans some

end

/-! ## What a statement does to the frames around it -/

/-- The name at `n` is bound at one of the sites, in a block that always leaves. -/
structure Dropped (x : String) (n : Ident) (sites : List Site) : Prop where
  key : n.key = x
  bound : ∃ role, .bind n role ∈ eventsOf sites
  ended : ∃ b, .block b ∈ sites ∧ b.ends ∧ ∃ role, .bind n role ∈ eventsOf b.sites

theorem Dropped.mono {x : String} {n : Ident} {sites more : List Site} (dropped : Dropped x n sites)
    (subset : sites ⊆ more) : Dropped x n more := by
  obtain ⟨key, ⟨role, bound⟩, b, member, ends⟩ := dropped
  obtain ⟨site, here, own⟩ := mem_flatMap.1 bound
  exact ⟨key, ⟨role, mem_flatMap.2 ⟨site, subset here, own⟩⟩, b, subset member, ends⟩

/-- From before to after some sites: the frames further out are marked at most, so is the frame around
if nothing is left to it, and what is reported was dropped. -/
structure Effect (x : String) (left : Slot) (sites : List Site) (v w : Watch) : Prop where
  tail : Slot.Marked v.stack.tail w.stack.tail
  whole : left = none → Slot.Marked v.stack w.stack
  unused : ∀ n ∈ w.unused, n ∈ v.unused ∨ Dropped x n sites

theorem Slot.mem_unusedIn {n : Ident} (member : n ∈ Slot.unusedIn slot) :
    ∃ e, slot = some e ∧ e.ident = n ∧ e.used = false ∧ e.role = .plain := by
  obtain ⟨e, found, rfl⟩ := mem_map.1 member
  obtain ⟨kept, plain⟩ := Option.filter_eq_some_iff.1 (Option.mem_toList.1 found)
  simp only [Bool.and_eq_true, Bool.not_eq_eq_eq_not, Bool.not_true, decide_eq_true_eq] at plain
  exact ⟨e, kept, rfl, plain.1, plain.2⟩

namespace Watch

variable {x : String} {top outer : Slot} {rest : List Slot}

theorem foldl_readName_unused (names : List Ident) (v : Watch) :
    (names.foldl readName v).unused = v.unused := by
  induction names generalizing v with
  | nil => rfl
  | cons name others ih =>
    rw [foldl_cons, ih]
    unfold readName
    split <;> rfl

theorem read_unused (x : String) (names : List Ident) (v : Watch) :
    (v.read x names).unused = v.unused :=
  foldl_readName_unused _ v

theorem bind_unused (x : String) (name : Ident) (role : Role) (v : Watch) :
    (v.bind x name role).unused = v.unused := by
  unfold bind
  split <;> rfl

theorem marked_bind (x : String) (name : Ident) (role : Role) (v : Watch) :
    Slot.Marked v.stack.tail (v.bind x name role).stack.tail := by
  unfold bind
  split <;> exact Slot.Marked.refl _

/-- The two innermost frames of a watch, with their marks. -/
theorem stack_of_bare (bare : w.bare = top :: outer :: rest) :
    ∃ inner next others, w.stack = inner :: next :: others ∧ inner.bare = top ∧
      next.bare = outer := by
  obtain ⟨inner, tail, stack, same, others⟩ := map_eq_cons_iff.1 bare
  obtain ⟨next, last, rfl, sameNext, -⟩ := map_eq_cons_iff.1 others
  exact ⟨inner, next, last, stack, same, sameNext⟩

end Watch

variable {x : String} {sites : List Site}

theorem Effect.of_left {other : Slot} (effect : Effect x left sites v w)
    (same : other = none → left = none) : Effect x other sites v w :=
  ⟨effect.tail, fun nothing => effect.whole (same nothing), effect.unused⟩

theorem Effect.mono {more : List Site}
    (effect : Effect x left sites v w) (subset : sites ⊆ more) : Effect x left more v w :=
  ⟨effect.tail, effect.whole, fun n member => (effect.unused n member).imp_right (·.mono subset)⟩

theorem Effect.trans {first second : Slot} {u : Watch} (early : Effect x first sites u v)
    (late : Effect x second sites v w) (both : left = none → first = none ∧ second = none) :
    Effect x left sites u w := by
  refine ⟨early.tail.trans late.tail, fun nothing => ?_, fun n member => ?_⟩
  · exact (early.whole (both nothing).1).trans (late.whole (both nothing).2)
  · rcases late.unused n member with before | dropped
    · exact early.unused n before
    · exact .inr dropped

/-- A frame from its opening to its end: `v` is the watch before, `u` the one with the open frame, and
`w` the one in which it closes. -/
theorem Effect.close {top outer : Slot} {rest : List Slot} {u : Watch}
    (inside : Effect x left sites u w) (opened : Slot.Marked v.stack u.stack.tail)
    (same : u.unused = v.unused) (bare : w.bare = top :: outer :: rest) {closed : FrameShape}
    {around : Around}
    (dropped : Slot.isDropped closed around → ∀ e, top = some e → Dropped x e.ident sites) :
    Effect x (Slot.leaving closed around top) sites v (w.close closed around) := by
  have marked := opened.trans inside.tail
  obtain ⟨inner, next, others, stack, rfl, -⟩ := Watch.stack_of_bare bare
  rw [stack] at marked
  refine ⟨?_, fun nothing => ?_, fun n member => ?_⟩
  · simpa [Watch.close, stack] using marked.tail
  · have gone : Slot.leaving closed around inner = none := by
      rw [← Slot.bare_leaving] at nothing
      exact Option.map_eq_none_iff.1 nothing
    simpa [Watch.close, stack, gone, Slot.receive] using marked
  · simp only [Watch.close, stack, mem_append] at member
    rcases member with before | new
    · exact same ▸ inside.unused n before
    · split at new
      · next isDropped =>
        obtain ⟨e, rfl, rfl, -⟩ := Slot.mem_unusedIn new
        exact .inr (dropped isDropped e.bare rfl)
      · cases new

theorem effect_read (x : String) (left : Slot) (sites : List Site) (names : List Ident) (v : Watch) :
    Effect x left sites v (v.read x names) :=
  ⟨(Watch.marked_read x names v).tail, fun _ => Watch.marked_read x names v,
    fun _ member => .inl (Watch.read_unused x names v ▸ member)⟩

theorem effect_bind (x : String) (sites : List Site) (name : Ident) (role : Role) (v : Watch) :
    Effect x (Slot.rebind x name role none) sites v (v.bind x name role) := by
  refine ⟨Watch.marked_bind x name role v, fun nothing => ?_,
    fun _ member => .inl (Watch.bind_unused x name role v ▸ member)⟩
  unfold Slot.rebind at nothing
  split at nothing
  · cases nothing
  · next other =>
    unfold Watch.bind
    rw [if_neg other]
    exact Slot.Marked.refl _

section

open Watch Slot

variable (loopsBranch : Bool)

theorem Stmt.Loops.entered_marked {body : Block} (loops : s.Loops body) (v : Watch) :
    Marked v.stack (s.enteredWatch x v).stack.tail := by
  cases loops with
  | forTo counter limit stride body range =>
    exact ((marked_read x (readsOf [counter.value]) (v.push none)).tail.trans
      (marked_bind x counter.name .iterator _)).trans (marked_read x _ _).tail
  | forEach item target body range => exact marked_read x _ v
  | whileDo condition body range => exact marked_read x _ v

theorem Stmt.Loops.entered_unused {body : Block} (loops : s.Loops body) (v : Watch) :
    (s.enteredWatch x v).unused = v.unused := by
  cases loops <;> simp only [Stmt.enteredWatch, read_unused, bind_unused, push]

theorem Chunk.effect (c : Chunk) {rest : List Slot}
    (bare : v.bare = slot :: rest) (keepsArm : ∀ site ∈ c.sites, site.KeepsArm x)
    (own : c.KeepsArm x) :
    Effect x (c.leaves x loopsBranch none) c.sites v (c.watch x loopsBranch v) := by
  induction c generalizing v slot rest with
  | simple s simple =>
    rw [Chunk.watch, Stmt.watch_of_simple simple]
    exact effect_read x _ _ _ v
  | assign a => exact (effect_read x none _ _ v).trans (effect_bind x _ _ _ _) fun nothing =>
      ⟨rfl, nothing⟩
  | dim name sizes range =>
    exact (effect_read x none _ _ v).trans (effect_bind x _ _ _ _) fun nothing => ⟨rfl, nothing⟩
  | ifThen i ih =>
    exact (ih bare keepsArm fun inner => absurd rfl inner).of_left fun nothing =>
      (receive_eq_none.1 nothing).2
  | loop s body loops ih =>
    rw [Chunk.sites, loops.sites] at keepsArm ⊢
    rw [Chunk.leaves, loops.track, Chunk.watch, loops.watch]
    have opened := loops.entered_bare (x := x) bare
    have turned := ih opened (forall_mem_cons.1 keepsArm).2 trivial
    exact ((turned.mono (subset_cons_self _ _)).close (loops.entered_marked v)
      (loops.entered_unused v) (watch_bare loopsBranch (.block .plain body) opened)
      (by simp [isDropped])).of_left fun nothing => (receive_eq_none.1 nothing).2
  | tryCatch body handler range tried caught =>
    obtain ⟨-, inside⟩ := forall_mem_cons.1 keepsArm
    obtain ⟨inBody, inHandler⟩ := forall_mem_append.1 inside
    have opened := bare_push bare none
    have behind := watch_bare (x := x) loopsBranch (.block .branches body) opened
    have inner := ((tried opened inBody trivial).mono (subset_append_left _ handler.sites)).trans
      ((caught behind inHandler trivial).mono (subset_append_right body.sites _))
      joined_eq_none.1
    exact ((inner.mono (subset_cons_self _ _)).close (Marked.refl _) rfl
      (watch_bare loopsBranch (.handler handler) behind) (by simp [isDropped])).of_left
        fun nothing => (receive_eq_none.1 nothing).2
  | cons s others first later =>
    obtain ⟨here, behind⟩ := forall_mem_append.1 keepsArm
    have walked := watch_bare (x := x) loopsBranch (.stmt s) bare
    exact ((first bare here trivial).mono (subset_append_left _ (Stmt.sitesAll others))).trans
      ((later walked behind trivial).mono (subset_append_right s.sites _))
      (Stmt.trackAll_cons_none x loopsBranch)
  | block around s others range ih =>
    obtain ⟨-, inside⟩ := forall_mem_cons.1 keepsArm
    have opened := bare_push bare none
    have walked := (ih opened inside trivial).mono
      (subset_cons_self (.block ⟨s :: others, range⟩) _)
    rw [Chunk.leaves_block, Chunk.watch_block]
    refine walked.close (Marked.refl _) rfl
      (watch_bare loopsBranch (.stmts (s :: others)) opened) ?_
    intro dropped e left
    have ends : Block.ends ⟨s :: others, range⟩ = true := (Bool.and_eq_true_iff.1 dropped).2
    have origin := (Chunk.leaves_made loopsBranch (.stmts (s :: others)) made_none
      (List.Subset.refl _)).origin e left
    exact ⟨origin.key, origin.bound, _, mem_cons_self, ends, origin.bound⟩
  | branch around condition onTrue onFalse range inline taken passed =>
    rw [Chunk.sites_branch] at keepsArm ⊢
    obtain ⟨nested, inside⟩ := forall_mem_cons.1 keepsArm
    obtain ⟨inTrue, inFalse⟩ := forall_mem_append.1 inside
    have opened := bare_push (bare_read bare x (readsOf [condition])) none
    have behind := watch_bare (x := x) loopsBranch (.block .branches onTrue) opened
    have after := watch_bare (x := x) loopsBranch onFalse.chunk behind
    rw [Else.track_chunk] at after
    have inner := ((taken opened inTrue trivial).mono (subset_append_left _ _)).trans
      ((passed behind inFalse nested.chunk).mono (subset_append_right _ _)) joined_eq_none.1
    rw [Chunk.leaves_branch, Chunk.watch_branch]
    refine (inner.mono (subset_cons_self _ _)).close (marked_read x _ v) (read_unused x _ v)
      after fun dropped e left => ?_
    obtain ⟨-, noTrue, noFalse⟩ := If.leaves_of_dropped loopsBranch own dropped
    rw [Chunk.track, noTrue, Else.leaves_chunk, noFalse] at left
    cases left
  | handler caught body range ih =>
    obtain ⟨-, inside⟩ := forall_mem_cons.1 keepsArm
    have opened := bare_push bare (Slot.opening x (.handler ⟨caught, body, range⟩))
    rw [bare_opening] at opened
    rw [Chunk.leaves_handler, Chunk.watch_handler]
    exact ((ih opened inside trivial).mono (subset_cons_self _ _)).close (Marked.refl _) rfl
      (watch_bare loopsBranch (.block .handler body) opened) (by simp [isDropped])
  | _ => exact ⟨Marked.refl _, fun _ => Marked.refl _, fun _ => .inl⟩

end

/-! ## Names that are read before they are bound -/

/-- The name is read before it is bound. -/
def ReadFirst (x : String) (t : List Event) : Prop :=
  ∃ pre r post, t = pre ++ .read r :: post ∧ r.key = x ∧ ¬ Bound x pre

section

variable {a b : List Event}

theorem readFirst_append :
    ReadFirst x (a ++ b) ↔ ReadFirst x a ∨ (¬ Bound x a ∧ ReadFirst x b) := by
  constructor
  · rintro ⟨pre, r, post, split, same, unbound⟩
    rcases append_eq_append_iff.1 split with ⟨more, rfl, later⟩ | ⟨more, rfl, later⟩
    · exact .inr ⟨(not_bound_append.1 unbound).1, more, r, post, later, same,
        (not_bound_append.1 unbound).2⟩
    · cases more with
      | nil => exact .inr ⟨by simpa using unbound, [], r, post, later.symm, same, not_bound_reads []⟩
      | cons event others =>
        obtain ⟨rfl, -⟩ := cons_eq_cons.1 later
        exact .inl ⟨pre, r, others, rfl, same, unbound⟩
  · rintro (⟨pre, r, post, rfl, same, unbound⟩ | ⟨first, pre, r, post, rfl, same, unbound⟩)
    · exact ⟨pre, r, post ++ b, by simp, same, unbound⟩
    · exact ⟨a ++ pre, r, post, by simp, same, not_bound_append.2 ⟨first, unbound⟩⟩

theorem not_readFirst_nil : ¬ ReadFirst x [] := by
  rintro ⟨pre, r, post, split, -⟩
  simp at split

theorem readFirst_reads : ReadFirst x (names.map .read) ↔ ∃ r ∈ names, r.key = x := by
  constructor
  · rintro ⟨pre, r, post, split, same, -⟩
    have member : Event.read r ∈ names.map .read := split ▸ (by simp)
    exact ⟨r, by simpa using member, same⟩
  · rintro ⟨r, member, same⟩
    obtain ⟨early, late, rfl⟩ := append_of_mem member
    exact ⟨early.map .read, r, late.map .read, by simp, same, not_bound_reads early⟩

theorem readFirst_bind {role : Role} :
    ReadFirst x (.bind name role :: a) ↔ name.key ≠ x ∧ ReadFirst x a := by
  constructor
  · rintro ⟨pre, r, post, split, same, unbound⟩
    cases pre with
    | nil => cases split
    | cons event others =>
      obtain ⟨rfl, rfl⟩ := cons_eq_cons.1 split
      refine ⟨fun bound => unbound ⟨name, role, by simp, bound⟩, others, r, post, rfl, same, ?_⟩
      exact (not_bound_append (a := [_]).1 unbound).2
  · rintro ⟨other, pre, r, post, rfl, same, unbound⟩
    refine ⟨.bind name role :: pre, r, post, rfl, same, not_bound_append (a := [_]).2 ⟨?_, unbound⟩⟩
    rintro ⟨_, _, member, bound⟩
    cases mem_singleton.1 member
    exact other bound

end

namespace Watch

variable {top outer : Slot} {rest : List Slot}

theorem visible_tail (bare : w.bare = none :: rest) (seen : Slot.visiblyUsed w.stack) :
    Slot.visiblyUsed w.stack.tail := by
  obtain ⟨inner, tail, stack, same, -⟩ := map_eq_cons_iff.1 bare
  rw [stack] at seen ⊢
  rw [Option.map_eq_none_iff.1 same] at seen
  exact seen

theorem visible_close (bare : w.bare = top :: none :: rest) (seen : Slot.visiblyUsed w.stack.tail)
    (closed : FrameShape) (around : Around) :
    Slot.visiblyUsed (w.close closed around).stack.tail := by
  obtain ⟨inner, next, others, stack, -, same⟩ := stack_of_bare bare
  rw [stack, Option.map_eq_none_iff.1 same] at seen
  simpa [close, stack] using seen

theorem free_of_grows (growth : Grows v w) (bound : w.free = []) : v.free = [] :=
  prefix_nil.1 (bound ▸ growth.free)

/-- Where reads stand in front of all bindings, the innermost binding is marked. -/
theorem visible_read {es : List Expr} (first : ReadFirst x (readEvents es))
    (bound : (v.read x (readsOf es)).free = []) :
    Slot.visiblyUsed (v.read x (readsOf es)).stack := by
  obtain ⟨r, member, same⟩ := readFirst_reads.1 first
  exact visiblyUsed_read member same bound

/-- The value of an assignment is read before its name is bound. -/
theorem visible_bind {role : Role} {es : List Expr} (bare : v.bare = none :: rest)
    (first : ReadFirst x ((readEvents es ++ [.bind name role]) ++ []))
    (bound : ((v.read x (readsOf es)).bind x name role).free = []) :
    Slot.visiblyUsed ((v.read x (readsOf es)).bind x name role).stack.tail := by
  rw [append_nil] at first
  rcases readFirst_append.1 first with own | ⟨-, later⟩
  · have notFree := free_of_grows (bind_grows x name role _) bound
    exact (marked_bind x name role _).visible
      (visible_tail (bare_read bare x _) (visible_read own notFree))
  · exact absurd (readFirst_bind.1 later).2 not_readFirst_nil

end Watch

section

open Watch Slot

variable (loopsBranch : Bool)

variable {rest : List Slot} {body : Block}

theorem Chunk.bare_of_unbound (c : Chunk) (bare : v.bare = none :: rest)
    (unbound : ¬ Bound x (eventsOf c.sites)) : (c.watch x loopsBranch v).bare = none :: rest := by
  have nothing := Chunk.leaves_of_unbound loopsBranch c unbound
  have same : c.track x loopsBranch none = none := by
    cases c <;> first | rfl | exact nothing | exact receive_eq_none.2 ⟨rfl, nothing⟩
  rw [watch_bare loopsBranch c bare, same]

/-- If the first that a loop does with a name is to read it, its binding outside is marked. -/
theorem Stmt.Loops.visible_entered (loops : s.Loops body) (bare : v.bare = rest)
    (first : ReadFirst x (Site.stmt s).events) (bound : (s.enteredWatch x v).free = []) :
    visiblyUsed (s.enteredWatch x v).stack.tail := by
  cases loops with
  | forTo counter limit stride body range =>
    have started := bare_read (bare_push bare none) x (readsOf [counter.value])
    have limited := bare_read (bare_bind (x := x) started counter.name .iterator) x
      (readsOf (limit :: stride.toList))
    have boundStart := free_of_grows ((bind_grows x _ _ _).trans (read_grows x _ _)) bound
    rcases readFirst_append.1 first with own | ⟨-, later⟩
    · have seen := visible_tail started (visible_read own boundStart)
      exact ((marked_bind x counter.name .iterator _).trans (marked_read x _ _).tail).visible seen
    · obtain ⟨other, limits⟩ := readFirst_bind.1 later
      rw [Slot.rebind, if_neg other] at limited
      exact visible_tail limited (visible_read limits bound)
  | forEach item target body range =>
    rcases readFirst_append.1 first with own | ⟨-, later⟩
    · exact visible_read own bound
    · exact absurd (readFirst_bind.1 later).2 not_readFirst_nil
  | whileDo condition body range => exact visible_read first bound

theorem Stmt.Loops.entered_of_unbound (loops : s.Loops body)
    (unbound : ¬ Bound x (Site.stmt s).events) : s.enteredSlot x = none := by
  cases loops with
  | forTo counter limit stride body range =>
    exact if_neg fun same => unbound ⟨_, .iterator, by simp [Site.events], same⟩
  | forEach item target body range =>
    exact if_neg fun same => unbound ⟨_, .iterator, by simp [Site.events], same⟩
  | whileDo condition body range => rfl

/-- The same before the frame of the loop closes, if it is known for the body. -/
theorem Stmt.Loops.visible_turned (loops : s.Loops body)
    (bare : v.bare = slot :: rest) (keepsArm : ∀ site ∈ s.sites, site.KeepsArm x)
    (first : ReadFirst x (eventsOf s.sites))
    (inBody : ∀ {u : Watch} {others : List Slot}, u.bare = none :: others →
      (∀ site ∈ body.sites, site.KeepsArm x) → ReadFirst x (eventsOf body.sites) →
      (body.watch x loopsBranch .plain u).free = [] →
      visiblyUsed (body.watch x loopsBranch .plain u).stack.tail)
    (bound : (body.watch x loopsBranch .plain (s.enteredWatch x v)).free = []) :
    visiblyUsed (body.watch x loopsBranch .plain (s.enteredWatch x v)).stack.tail := by
  rw [loops.sites] at keepsArm first
  obtain ⟨-, inside⟩ := forall_mem_cons.1 keepsArm
  have opened := loops.entered_bare (x := x) bare
  rcases readFirst_append.1 first with own | ⟨unbound, later⟩
  · exact (Chunk.effect loopsBranch (.block .plain body) opened inside trivial).tail.visible
      (loops.visible_entered bare own
        (free_of_grows (watch_grows x loopsBranch (.block .plain body) _) bound))
  · rw [loops.entered_of_unbound unbound] at opened
    exact inBody opened inside later bound

/-- If the first that is done with a name is to read it, its innermost binding outside is marked. -/
theorem Chunk.visible_of_readFirst (c : Chunk) (bare : v.bare = none :: rest)
    (keepsArm : ∀ site ∈ c.sites, site.KeepsArm x) (first : ReadFirst x (eventsOf c.sites))
    (bound : (c.watch x loopsBranch v).free = []) :
    visiblyUsed (c.watch x loopsBranch v).stack.tail := by
  induction c generalizing v rest with
  | simple s simple =>
    rw [Chunk.watch, Stmt.watch_of_simple simple] at bound ⊢
    rw [Chunk.sites, Stmt.sites_of_simple simple, eventsOf_cons, Site.events_of_simple simple]
      at first
    refine visible_tail (bare_read bare _ _) (visible_read ?_ bound)
    simpa [eventsOf] using first
  | assign a => exact visible_bind bare first bound
  | dim name sizes range => exact visible_bind bare first bound
  | ifThen i ih => exact ih bare keepsArm first bound
  | loop s body loops ih =>
    rw [Chunk.watch, loops.watch] at bound ⊢
    exact visible_close (watch_bare loopsBranch (.block .plain body) (loops.entered_bare bare))
      (loops.visible_turned loopsBranch bare keepsArm first ih
        (free_of_grows (close_grows _ _ _) bound)) _ _
  | tryCatch body handler range tried caught =>
    obtain ⟨-, inside⟩ := forall_mem_cons.1 keepsArm
    obtain ⟨inBody, inHandler⟩ := forall_mem_append.1 inside
    have opened := bare_push bare none
    have behind := watch_bare (x := x) loopsBranch (.block .branches body) opened
    have boundInside := free_of_grows (close_grows _ _ _) bound
    refine visible_close (watch_bare loopsBranch (.handler handler) behind) ?_ _ _
    have split : ReadFirst x (eventsOf body.sites ++ eventsOf handler.sites) := by
      simpa [Chunk.sites, Stmt.sites, Site.events, Stmt.exprs, readEvents, readsOf] using first
    rcases readFirst_append.1 split with own | ⟨unbound, later⟩
    · exact (Chunk.effect loopsBranch (.handler handler) behind inHandler trivial).tail.visible
        (tried opened inBody own
          (free_of_grows (watch_grows x loopsBranch (.handler handler) _) boundInside))
    · exact caught (Chunk.bare_of_unbound loopsBranch (.block .branches body) opened unbound)
        inHandler later boundInside
  | cons s others here behind =>
    obtain ⟨inFirst, inOthers⟩ := forall_mem_append.1 keepsArm
    have walked := watch_bare (x := x) loopsBranch (.stmt s) bare
    rw [Chunk.sites, Stmt.sitesAll, eventsOf_append] at first
    rcases readFirst_append.1 first with own | ⟨unbound, following⟩
    · have boundHere :=
        free_of_grows (watch_grows x loopsBranch (.stmts others) _) bound
      exact (Chunk.effect loopsBranch (.stmts others) walked inOthers trivial).tail.visible
        (here bare inFirst own boundHere)
    · exact behind (Chunk.bare_of_unbound loopsBranch (.stmt s) bare unbound) inOthers following bound
  | block around s others range ih =>
    obtain ⟨-, inside⟩ := forall_mem_cons.1 keepsArm
    have opened := bare_push bare none
    exact visible_close (watch_bare loopsBranch (.stmts (s :: others)) opened)
      (ih opened inside first (free_of_grows (close_grows _ _ _) bound)) _ _
  | branch around condition onTrue onFalse range inline taken passed =>
    rw [Chunk.sites_branch] at keepsArm first
    rw [Chunk.watch_branch] at bound ⊢
    obtain ⟨nested, inside⟩ := forall_mem_cons.1 keepsArm
    obtain ⟨inTrue, inFalse⟩ := forall_mem_append.1 inside
    have opened := bare_push (bare_read bare x (readsOf [condition])) none
    have behind := watch_bare (x := x) loopsBranch (.block .branches onTrue) opened
    have boundInside := free_of_grows (close_grows _ _ _) bound
    have boundTrue := free_of_grows (watch_grows x loopsBranch onFalse.chunk _) boundInside
    have boundTest := free_of_grows ((push_grows none _).trans
      (watch_grows x loopsBranch (.block .branches onTrue) _)) boundTrue
    have passes := (Chunk.effect loopsBranch onFalse.chunk behind inFalse nested.chunk).tail
    refine visible_close (watch_bare loopsBranch onFalse.chunk behind) ?_ _ _
    rw [eventsOf_cons, eventsOf_append] at first
    rcases readFirst_append.1 first with test | ⟨-, later⟩
    · exact ((Chunk.effect loopsBranch (.block .branches onTrue) opened inTrue trivial).tail.trans
        passes).visible (visible_read test boundTest)
    rcases readFirst_append.1 later with own | ⟨unbound, later⟩
    · exact passes.visible (taken opened inTrue own boundTrue)
    · exact passed (Chunk.bare_of_unbound loopsBranch (.block .branches onTrue) opened unbound)
        inFalse later boundInside
  | handler caught body range ih =>
    obtain ⟨-, inside⟩ := forall_mem_cons.1 keepsArm
    rw [Chunk.watch_handler] at bound ⊢
    have opened := bare_push bare (Slot.opening x (.handler ⟨caught, body, range⟩))
    have boundInside := free_of_grows (close_grows _ _ _) bound
    refine visible_close (watch_bare loopsBranch (.block .handler body) opened) ?_ _ _
    cases caught with
    | none => exact ih opened inside first boundInside
    | some name =>
      obtain ⟨other, later⟩ := readFirst_bind.1 first
      have shut : Slot.opening x (.handler ⟨some name, body, range⟩) = none := if_neg other
      exact ih (by rw [opened, shut]; rfl) inside later boundInside
  | _ => exact absurd first not_readFirst_nil

end

end ChannelLint
