import ChannelLint.Proofs.DefiniteAssignment
import ChannelLint.Proofs.Reachability

/-!
# Names that are reported although they are assigned

If a read is reported, some path should lead to it on which its name is not assigned. The walk keeps
to that as long as the name is never a loop variable and it does not forget an assignment: the frame
of an `else if` drops the assignments of its own arm if the `else if` behind it always leaves.
-/
namespace ChannelLint

open List Slot

variable {name : Ident} {usedBefore : Bool} {slot : Slot} {s : Stmt} {es : List Expr} {body : Block}
  {outcome o : Outcome} {rest : List Slot} {post : List Event}

open Paths

section

variable {x : String}

theorem not_assigned_reads (names : List Ident) : ¬ Assigned x (names.map .read) := by
  rintro ⟨name, member, -⟩
  simp at member

theorem not_assigned_bind {role : Role} (other : role = .plain → name.key ≠ x) :
    ¬ Assigned x [.bind name role] := by
  rintro ⟨_, member, same⟩
  cases mem_singleton.1 member
  exact other rfl same

theorem not_assigned_caught (caught : Option Ident) :
    ¬ Assigned x (caught.toList.map (.bind · .caughtError)) := by
  rintro ⟨name, member, -⟩
  simp at member

end

/-! ## Bindings that stay unsettled -/

namespace Slot

variable {x : String} {outer inner first second : Slot}

variable {around : Around}

theorem settled_receive_of_outer (settled : outer.isSettled) :
    (outer.receive false usedBefore inner).isSettled := by
  cases inner with
  | none => exact settled
  | some e =>
    cases outer with
    | none => cases settled
    | some o =>
      have outside : o.unsettled = false := by simpa [isSettled] using settled
      simp [receive, Entry.moveOut, isSettled, outside]

theorem settled_receive_of_firm (firm : inner.Firm) :
    (outer.receive false usedBefore inner).isSettled := by
  obtain ⟨e, rfl, settled, lasting⟩ := firm
  cases outer <;> simp [receive, Entry.moveOut, isSettled, settled, lasting]

theorem firm_receive_none (firm : inner.Firm) : (receive none true false inner).Firm := by
  obtain ⟨e, rfl, settled, lasting⟩ := firm
  exact ⟨_, rfl, by simp [Entry.moveOut, settled, lasting], lasting⟩

theorem leaving_of_single {closed : FrameShape} (notHandler : closed.site.isHandler = false)
    (single : closed.paths = 1) (kept : isDropped closed around = false) :
    leaving closed around slot = slot := by
  simp [leaving, outliving, notHandler, single, kept]

/-- Two firm bindings are counted on both paths. -/
theorem firm_leaving_joined (firstFirm : first.Firm) (secondFirm : second.Firm)
    (firstMet : ∀ e, first = some e → e.met = 1) {site : Site} {returns : Bool}
    (notHandler : site.isHandler = false) :
    (leaving ⟨site, 2, returns⟩ around (joined first second)).Firm := by
  obtain ⟨f, rfl, firstSettled, firstLasting⟩ := firstFirm
  obtain ⟨s, rfl, secondSettled, secondLasting⟩ := secondFirm
  refine ⟨_, by simp [leaving, outliving, notHandler, joined, receive]; rfl, ?_, ?_⟩
  · simp [Entry.countBranches, Entry.moveOut, firstSettled, firstLasting, secondSettled,
      secondLasting, firstMet f rfl]
  · simp [Entry.countBranches, Entry.moveOut, firstLasting, secondLasting]

/-- If two branches leave no firm binding, then one that goes on does not. -/
theorem soft_of_branches (firstMet : ∀ e, first = some e → e.met = 1) {site : Site}
    {returns endsFirst endsSecond : Bool} (noneFirst : endsFirst → first = none)
    (noneSecond : endsSecond → second = none) (goesOn : (endsFirst && endsSecond) = false)
    (notHandler : site.isHandler = false)
    (kept : isDropped ⟨site, Walk.pathsAfter (Walk.pathsAfter 2 endsFirst) endsSecond, returns⟩
      around = false)
    (soft : ¬ (leaving ⟨site, Walk.pathsAfter (Walk.pathsAfter 2 endsFirst) endsSecond, returns⟩
      around (joined first second)).Firm) :
    (endsFirst = false ∧ ¬ first.Firm) ∨ (endsSecond = false ∧ ¬ second.Firm) := by
  cases endsFirst with
  | false =>
    cases endsSecond with
    | false =>
      by_cases firstFirm : first.Firm
      · refine .inr ⟨rfl, fun secondFirm => soft ?_⟩
        exact firm_leaving_joined firstFirm secondFirm firstMet notHandler
      · exact .inl ⟨rfl, firstFirm⟩
    | true =>
      obtain rfl := noneSecond rfl
      refine .inl ⟨rfl, fun firstFirm => soft ?_⟩
      rw [leaving_of_single notHandler rfl kept]
      exact firm_receive_none firstFirm
  | true =>
    cases endsSecond with
    | false =>
      obtain rfl := noneFirst rfl
      refine .inr ⟨rfl, fun secondFirm => soft ?_⟩
      rw [leaving_of_single notHandler rfl kept]
      exact firm_receive_none secondFirm
    | true => cases goesOn

theorem firm_leaving_handler (firm : inner.Firm)
    (lasting : ∀ e, inner = some e → e.role ≠ .caughtError) (c : Catch) (ends : Bool) :
    (leaving ⟨.handler c, Walk.pathsAfter 1 ends, false⟩ .branches
      (receive (opening x (.handler c)) false false inner)).Firm := by
  obtain ⟨e, rfl, settled, notIterator⟩ := firm
  obtain ⟨caught, body, range⟩ := c
  rw [leaving_handler, opening_handler]
  have notCaught := lasting e rfl
  refine ⟨_, Option.filter_eq_some_iff.2 ⟨rfl, ?_⟩, ?_, ?_⟩
  all_goals cases caught.filter (·.key = x)
  all_goals simp [Entry.moveOut, Entry.fresh, settled, notIterator, notCaught]

end Slot

/-! ## A name that is not settled was left out on some path -/

variable {x : String}

/-- Some path goes through to the end without assigning the name. -/
def Paths.Skips (x : String) (p : Paths) : Prop :=
  ∃ t, p t .done ∧ ¬ Assigned x t

theorem Paths.Skips.seq {p q : Paths} (first : Skips x p) (second : Skips x q) :
    Skips x (seq p q) := by
  obtain ⟨a, runA, cleanA⟩ := first
  obtain ⟨b, runB, cleanB⟩ := second
  exact ⟨a ++ b, seq_of_done runA runB, not_assigned_append.2 ⟨cleanA, cleanB⟩⟩

theorem Paths.Skips.mono {p q : Paths} (skips : Skips x p) (sub : ∀ t, p t .done → q t .done) :
    Skips x q :=
  skips.imp fun t => And.imp_left (sub t)

theorem Paths.skips_reads (x : String) (es : List Expr) : Skips x (perform (readEvents es) .done) :=
  ⟨_, perform_all _ _, not_assigned_reads _⟩

theorem Paths.skips_counter (counter : Assign) (limits : List Expr) :
    Skips x (perform (readEvents [counter.value] ++ .bind counter.name .iterator ::
      readEvents limits) .done) := by
  refine ⟨_, perform_all _ _, not_assigned_append.2 ⟨not_assigned_reads _, ?_⟩⟩
  exact not_assigned_append (a := [.bind counter.name .iterator]).2
    ⟨not_assigned_bind (by simp), not_assigned_reads _⟩

/-- What a site must not do if the name is to be followed exactly. -/
structure Site.Fair (x : String) (site : Site) : Prop where
  noExit : site.isExit = false
  notIterated : ∀ name, .bind name .iterator ∈ site.events → name.key ≠ x
  keepsArm : site.KeepsArm x
  orderly : site.Orderly

/-- Where the name is no loop variable, a settled binding is firm. -/
theorem Slot.Made.firm {sites : List Site} (made : slot.Made x (eventsOf sites))
    (fair : ∀ site ∈ sites, site.Fair x) (settled : slot.isSettled) : slot.Firm := by
  cases slot with
  | none => cases settled
  | some e =>
    refine ⟨e, rfl, by simpa [isSettled] using settled, fun isIterator => ?_⟩
    obtain ⟨name, bound, same⟩ := (made.origin e rfl).iterated isIterator
    obtain ⟨site, member, own⟩ := mem_flatMap.1 bound
    exact (fair site member).notIterated name own same

theorem Stmt.outcome_of_goesOn (goesOn : s.ends = false)
    (noExit : (Site.stmt s).isExit = false) : s.outcome = .done := by
  cases s with
  | exit loop range => cases noExit
  | ret value range => cases goesOn
  | throw value range => cases goesOn
  | _ => rfl

theorem Slot.skips_of_rebind (unsettled : ¬ (slot.rebind x name .plain).isSettled) :
    Skips x (perform (readEvents es ++ [.bind name .plain]) .done) := by
  by_cases same : name.key = x
  · simp [rebind, same, isSettled, Entry.fresh] at unsettled
  · refine ⟨_, perform_all _ _, ?_⟩
    exact not_assigned_append.2 ⟨not_assigned_reads _, not_assigned_bind fun _ => same⟩

section

/-- A binding that is settled before a statement is settled behind it. -/
theorem Stmt.settled_track (s : Stmt) (settled : slot.isSettled) :
    (s.track x true slot).isSettled := by
  have rebound (name : Ident) : (slot.rebind x name .plain).isSettled := by
    by_cases same : name.key = x
    · simp [rebind, same, isSettled, Entry.fresh]
    · simpa [rebind, same] using settled
  by_cases simple : s.isSimple
  · rwa [Stmt.track_of_simple simple]
  · cases s with
    | assign a => exact rebound a.name
    | dim name sizes range => exact rebound name
    | ifThen | forTo | forEach | whileDo | tryCatch => exact settled_receive_of_outer settled
    | _ => exact absurd rfl simple

theorem Stmt.settled_trackAll (statements : List Stmt) (settled : slot.isSettled) :
    (Stmt.trackAll x true statements slot).isSettled := by
  induction statements generalizing slot with
  | nil => exact settled
  | cons s others ih => exact ih (s.settled_track settled)

/-- A loop may make no turn, and its own bindings do not count. -/
theorem Stmt.Loops.skips (loops : s.Loops body) : Skips x s.Runs := by
  cases loops with
  | forTo counter limit stride body range =>
    exact (skips_counter counter _).seq ⟨[], .stop ⟨rfl, rfl⟩, not_assigned_reads []⟩
  | forEach item target body range =>
    exact (skips_reads x _).seq ⟨[], .stop ⟨rfl, rfl⟩, not_assigned_reads []⟩
  | whileDo condition body range => exact ⟨_, .stop (perform_all _ _), not_assigned_reads _⟩

/-- What a part leaves is firm if it is settled. -/
theorem Chunk.firm_of_settled (c : Chunk) (fair : ∀ site ∈ c.sites, site.Fair x)
    (settled : (c.leaves x true none).isSettled) : (c.leaves x true none).Firm :=
  (c.leaves_made true made_none (List.Subset.refl _)).firm fair settled

/-- If a part goes on and leaves the name unsettled, some path through it does not assign it. -/
theorem Chunk.skips (c : Chunk) (slot : Slot) (fair : ∀ site ∈ c.sites, site.Fair x)
    (keepsArm : c.KeepsArm x) (goesOn : c.ends = false)
    (unsettled : ¬ (c.leaves x true slot).isSettled) : Skips x c.Runs := by
  induction c generalizing slot with
  | simple s simple =>
    rw [Chunk.sites, Stmt.sites_of_simple simple] at fair
    rw [Chunk.Runs, Stmt.runs_of_simple simple,
      Stmt.outcome_of_goesOn goesOn (fair _ (mem_singleton_self _)).noExit]
    exact skips_reads x _
  | assign a => exact skips_of_rebind unsettled
  | dim name sizes range => exact skips_of_rebind unsettled
  | ifThen i ih =>
    refine ih none fair (fun inner => absurd rfl inner) goesOn fun settled => unsettled ?_
    exact settled_receive_of_firm (Chunk.firm_of_settled (.branch .plain i) fair settled)
  | loop s body loops ih => exact loops.skips
  | tryCatch body handler range tried caught =>
    obtain ⟨-, inner⟩ := forall_mem_cons.1 fair
    obtain ⟨inBody, inHandler⟩ := forall_mem_append.1 inner
    have soft := soft_of_branches
      (Chunk.leaves_made true (.block .branches body) made_none (List.Subset.refl _)).met
      (fun ends => Block.leaves_of_ends ends (by simp)) Catch.leaves_of_ends goesOn rfl
      (by simp [isDropped]) fun firm => unsettled (settled_receive_of_firm firm)
    rcases soft with ⟨bodyGoesOn, soft⟩ | ⟨handlerGoesOn, soft⟩
    · have skips := tried none inBody trivial bodyGoesOn fun settled =>
        soft (Chunk.firm_of_settled (.block .branches body) inBody settled)
      exact skips.mono fun t run => .inl ⟨run, by simp⟩
    · have skips := caught none inHandler trivial handlerGoesOn fun settled =>
        soft (Chunk.firm_of_settled (.handler handler) inHandler settled)
      exact skips.mono fun t run => .inr ⟨[], t, block_raised body, run, rfl⟩
  | nil => exact ⟨[], perform_all _ _, not_assigned_reads []⟩
  | cons s others here later =>
    obtain ⟨first, second⟩ := forall_mem_append.1 fair
    obtain ⟨goesOnHere, goesOnLater⟩ := Bool.or_eq_false_iff.1 goesOn
    have before := here _ first trivial goesOnHere fun settled =>
      unsettled (Stmt.settled_trackAll others settled)
    exact (before.seq (later _ second trivial goesOnLater unsettled)).mono fun _ => .inr
  | empty around range => exact ⟨[], perform_all _ _, not_assigned_reads []⟩
  | block around s others range ih =>
    obtain ⟨-, inner⟩ := forall_mem_cons.1 fair
    have goesOnInside : Stmt.endsAny (s :: others) = false := goesOn
    rw [Chunk.leaves_block, leaving_of_single rfl rfl (by simp [isDropped, goesOnInside])]
      at unsettled
    exact ih _ inner trivial goesOn unsettled
  | branch around condition onTrue onFalse range inline taken passed =>
    rw [Chunk.sites_branch] at fair
    obtain ⟨own, inner⟩ := forall_mem_cons.1 fair
    obtain ⟨inTrue, inFalse⟩ := forall_mem_append.1 inner
    have takesTrue (goesOn : onTrue.ends = false)
        (soft : ¬ (Chunk.leaves x true (.block .branches onTrue) none).Firm) :
        Skips x (either (Chunk.block .branches onTrue).Runs onFalse.chunk.Runs) := by
      have skips := taken none inTrue trivial goesOn fun settled =>
        soft (Chunk.firm_of_settled (.block .branches onTrue) inTrue settled)
      exact skips.mono fun _ => .inl
    rw [Chunk.runs_branch]
    refine (skips_reads x _).seq ?_
    cases dropped : isDropped ⟨.stmt (.ifThen ⟨condition, onTrue, onFalse, range, inline⟩),
        Walk.pathsAfter (Walk.pathsAfter 2 onTrue.ends) onFalse.ends,
        Walk.endsNested onFalse⟩ around with
    | true =>
      -- the bindings of the arm are lost, but there is none of the name
      obtain ⟨elseEnds, armNone, -⟩ := If.leaves_of_dropped true keepsArm dropped
      have armGoesOn : onTrue.ends = false := by simpa [Chunk.ends, If.ends, elseEnds] using goesOn
      exact takesTrue armGoesOn (by rw [Chunk.leaves, armNone]; exact not_firm_none)
    | false =>
      rw [Chunk.leaves_branch] at unsettled
      have soft := soft_of_branches
        (Chunk.leaves_made true (.block .branches onTrue) made_none (List.Subset.refl _)).met
        (fun ends => Block.leaves_of_ends ends (by simp))
        (fun ends => by rw [Else.leaves_chunk, Else.leaves_of_ends ends]) goesOn rfl dropped
        fun firm => unsettled firm.isSettled
      rcases soft with ⟨trueGoesOn, soft⟩ | ⟨falseGoesOn, soft⟩
      · exact takesTrue trueGoesOn soft
      · have skips := passed none inFalse own.keepsArm.chunk
          (by rw [Else.ends_chunk, falseGoesOn]) fun settled =>
          soft (onFalse.chunk.firm_of_settled inFalse settled)
        exact skips.mono fun _ => .inr
  | handler caught body range ih =>
    obtain ⟨-, inner⟩ := forall_mem_cons.1 fair
    have made := Chunk.leaves_made (x := x) true (.block .handler body) made_none
      (List.Subset.refl _)
    refine Skips.seq ⟨_, ⟨rfl, rfl⟩, not_assigned_caught caught⟩ ?_
    refine ih none inner trivial goesOn fun settled => unsettled ?_
    rw [Chunk.leaves_handler]
    exact (firm_leaving_handler (made.firm inner settled) made.lasting _ _).isSettled
  | nothing => exact ⟨[], ⟨rfl, rfl⟩, not_assigned_reads []⟩

end

/-! ## An alarm is raised for a path -/

/-- Some path reads `n` without having assigned its name. -/
def Paths.Exposes (n : Ident) (p : Paths) : Prop :=
  ∃ pre post o, p (pre ++ .read n :: post) o ∧ ¬ Assigned n.key pre

namespace Paths

variable {n : Ident} {p q : Paths}

theorem Exposes.mono (exposes : Exposes n p) (sub : ∀ t o, p t o → q t o) : Exposes n q := by
  obtain ⟨pre, post, o, run, clean⟩ := exposes
  exact ⟨pre, post, o, sub _ _ run, clean⟩

theorem exposes_perform {before after : List Event}
    (clean : ¬ Assigned n.key before) (member : n ∈ readsOf es) :
    Exposes n (perform (before ++ (readEvents es ++ after)) outcome) := by
  obtain ⟨early, late, split⟩ := append_of_mem member
  refine ⟨before ++ early.map .read, late.map .read ++ after, outcome, .inl ⟨?_, rfl⟩,
    not_assigned_append.2 ⟨clean, not_assigned_reads early⟩⟩
  simp [readEvents, split]

theorem exposes_reads (member : n ∈ readsOf es) : Exposes n (perform (readEvents es) outcome) := by
  have exposes : Exposes n (perform ([] ++ (readEvents es ++ [])) outcome) :=
    exposes_perform (not_assigned_reads []) member
  rwa [nil_append, append_nil] at exposes

/-- A run that is left in one way may be followed by more. -/
theorem Exposes.extend {between : Outcome} {b : List Event} (exposes : Exposes n p)
    (stays : ∀ t o, p t o → o ≠ between → q t o) (more : ∀ t, p t between → q (t ++ b) o) :
    Exposes n q := by
  obtain ⟨pre, post, first, run, clean⟩ := exposes
  by_cases left : first = between
  · subst left
    exact ⟨pre, post ++ b, o, by simpa using more _ run, clean⟩
  · exact ⟨pre, post, first, stays _ _ run left, clean⟩

theorem Exposes.seq_left (exposes : Exposes n p) {b : List Event} (second : q b o) :
    Exposes n (seq p q) :=
  exposes.extend (fun _ _ run left => .inl ⟨run, left⟩) fun t run => .inr ⟨t, b, run, second, rfl⟩

theorem Exposes.seq_right (first : Skips n.key p) (exposes : Exposes n q) : Exposes n (seq p q) := by
  obtain ⟨a, runA, cleanA⟩ := first
  obtain ⟨pre, post, o, run, clean⟩ := exposes
  exact ⟨a ++ pre, post, o, .inr ⟨a, _, runA, run, by simp⟩,
    not_assigned_append.2 ⟨cleanA, clean⟩⟩

theorem Exposes.guarded_body (exposes : Exposes n p) {b : List Event}
    (handled : q b o) : Exposes n (guarded p q) :=
  exposes.extend (fun _ _ run left => .inl ⟨run, left⟩) fun t run => .inr ⟨t, b, run, handled, rfl⟩

theorem Exposes.guarded_handler (raised : p [] .raised) (exposes : Exposes n q) :
    Exposes n (guarded p q) :=
  exposes.mono fun t _ run => .inr ⟨[], t, raised, run, rfl⟩

/-- What a single turn of a loop does can happen in its first turn. -/
theorem Exposes.turn {kind : LoopKind} (test : Skips n.key p) (exposes : Exposes n q) :
    Exposes n (repeated kind p q) := by
  obtain ⟨a, tested, cleanTest⟩ := test
  obtain ⟨pre, post, o, run, clean⟩ := exposes
  have cleanBoth := not_assigned_append.2 ⟨cleanTest, clean⟩
  by_cases done : o = .done
  · subst done
    have twice : repeated kind p q (a ++ (pre ++ .read n :: post) ++ a) .done :=
      .again tested run (.stop tested)
    exact ⟨a ++ pre, post ++ a, .done, by simpa using twice, cleanBoth⟩
  · by_cases left : o = .left kind
    · subst left
      refine ⟨a ++ pre, post, .done, ?_, cleanBoth⟩
      simpa using repeated.exit tested run
    · refine ⟨a ++ pre, post, o, ?_, cleanBoth⟩
      simpa using repeated.leave tested run done left

end Paths

namespace Watch

variable {n : Ident} {v : Watch}

theorem mem_alarms_readName (alarm : n ∈ (v.readName name).alarms) :
    n ∈ v.alarms ∨ (¬ v.bare.any isSettled ∧ n = name) := by
  rw [any_isSettled_bare]
  unfold readName at alarm
  split at alarm
  · exact .inl alarm
  · dsimp only at alarm
    split at alarm
    · exact .inl alarm
    · next unsettled =>
      exact (mem_append.1 alarm).imp_right fun new => ⟨unsettled, mem_singleton.1 new⟩

/-- An alarm is raised where nothing settled is in sight. -/
theorem mem_alarms_read {names : List Ident} {slots : List Slot}
    (bare : v.bare = slots) (alarm : n ∈ (v.read x names).alarms) :
    n ∈ v.alarms ∨ (¬ slots.any isSettled ∧ n ∈ names) := by
  have watched : ∀ name ∈ names.filter (·.key = x), name ∈ names :=
    fun name member => (mem_filter.1 member).1
  unfold read at alarm
  generalize names.filter (·.key = x) = reads at watched alarm
  induction reads generalizing v with
  | nil => exact .inl alarm
  | cons name others ih =>
    obtain ⟨here, later⟩ := forall_mem_cons.1 watched
    rcases ih ((bare_readName v name).trans bare) later alarm with early | late
    · rcases mem_alarms_readName early with before | ⟨unsettled, rfl⟩
      · exact .inl before
      · exact .inr ⟨bare ▸ unsettled, here⟩
    · exact .inr late

theorem bind_alarms (v : Watch) (x : String) (name : Ident) (role : Role) :
    (v.bind x name role).alarms = v.alarms := by
  unfold bind
  split <;> rfl

theorem close_alarms (v : Watch) (closed : FrameShape) (around : Around) :
    (v.close closed around).alarms = v.alarms := by
  unfold close
  split <;> rfl

end Watch

theorem not_settled_cons :
    ¬ (slot :: rest).any isSettled ↔ ¬ slot.isSettled ∧ ¬ rest.any isSettled := by
  rw [any_cons, Bool.or_eq_true, not_or]

/-- Nothing is read at the end of a list. -/
theorem Paths.not_exposes_nil {n : Ident} : ¬ Exposes n (Stmt.RunsAll []) := by
  rintro ⟨pre, post, o, (⟨empty, -⟩ | ⟨part, -⟩), -⟩
  · simp at empty
  · simpa using prefix_nil.1 part

section

open Watch

variable {n : Ident}

/-- A path through the body of a loop may be its first turn. -/
theorem Stmt.Loops.exposes_turn (loops : s.Loops body)
    (exposes : Exposes n body.Runs) : Exposes n s.Runs := by
  have idle : Skips n.key (emit []) := ⟨[], ⟨rfl, rfl⟩, not_assigned_reads []⟩
  cases loops with
  | forTo counter limit stride body range =>
    exact .seq_right (skips_counter counter (limit :: stride.toList)) (.turn idle exposes)
  | forEach item target body range =>
    refine .seq_right (skips_reads _ _) (.turn idle ?_)
    exact .seq_right ⟨_, ⟨rfl, rfl⟩, not_assigned_bind (by simp)⟩ exposes
  | whileDo condition body range => exact .turn (skips_reads _ _) exposes

/-- An alarm that is raised on the way into a loop is about one of its paths. -/
theorem Stmt.Loops.exposes_start (loops : s.Loops body) {v : Watch} (bare : v.bare = rest)
    (alarm : n ∈ (s.enteredWatch n.key v).alarms) :
    n ∈ v.alarms ∨ (¬ rest.any isSettled ∧ Exposes n s.Runs) := by
  cases loops with
  | forTo counter limit stride body range =>
    have opened := bare_push bare none
    have counted := bare_bind (x := n.key) (bare_read opened n.key (readsOf [counter.value]))
      counter.name .iterator
    have clean : ¬ Assigned n.key (readEvents [counter.value] ++ [.bind counter.name .iterator]) :=
      not_assigned_append.2 ⟨not_assigned_reads _, not_assigned_bind (by simp)⟩
    rcases mem_alarms_read counted alarm with early | ⟨unsettled, member⟩
    · rw [bind_alarms] at early
      exact (mem_alarms_read opened early).imp_right <| And.imp_right fun member =>
        Exposes.seq_left (exposes_perform (not_assigned_reads []) member) (.stop ⟨rfl, rfl⟩)
    · have limits : Exposes n (Paths.perform (_ ++ (readEvents (limit :: stride.toList) ++ []))
          .done) := exposes_perform clean member
      exact .inr ⟨(not_settled_cons.1 unsettled).2,
        Exposes.seq_left (by simpa using limits) (.stop ⟨rfl, rfl⟩)⟩
  | forEach item target body range =>
    exact (mem_alarms_read bare alarm).imp_right <| And.imp_right fun member =>
      Exposes.seq_left (exposes_reads member) (.stop ⟨rfl, rfl⟩)
  | whileDo condition body range =>
    exact (mem_alarms_read bare alarm).imp_right <| And.imp_right fun member =>
      (exposes_reads member).mono fun _ _ => .stop

/-- Nothing stands behind a statement that ends the list. -/
def Chunk.Orderly : Chunk → Prop
  | .stmts statements => Stmt.Orderly statements
  | _ => True

/-- An alarm that a part raises is about one of its paths. -/
theorem Chunk.exposes (c : Chunk) {v : Watch}
    (bare : v.bare = slot :: rest) (fair : ∀ site ∈ c.sites, site.Fair n.key) (orderly : c.Orderly)
    (alarm : n ∈ (c.watch n.key true v).alarms) :
    n ∈ v.alarms ∨ (¬ (slot :: rest).any isSettled ∧ Exposes n c.Runs) := by
  induction c generalizing v slot rest with
  | simple s simple =>
    rw [Chunk.watch, Stmt.watch_of_simple simple] at alarm
    rw [Chunk.Runs, Stmt.runs_of_simple simple]
    exact (mem_alarms_read bare alarm).imp_right (And.imp_right exposes_reads)
  | assign a =>
    rw [Chunk.watch, Stmt.watch, bind_alarms] at alarm
    exact (mem_alarms_read bare alarm).imp_right
      (And.imp_right (exposes_perform (not_assigned_reads [])))
  | dim name sizes range =>
    rw [Chunk.watch, Stmt.watch, bind_alarms] at alarm
    exact (mem_alarms_read bare alarm).imp_right
      (And.imp_right (exposes_perform (not_assigned_reads [])))
  | ifThen i ih => exact ih bare fair trivial alarm
  | loop s body loops ih =>
    rw [Chunk.sites, loops.sites] at fair
    obtain ⟨-, inner⟩ := forall_mem_cons.1 fair
    rw [Chunk.watch, loops.watch, close_alarms] at alarm
    rcases ih (loops.entered_bare bare) inner trivial alarm with early | ⟨unsettled, exposes⟩
    · exact loops.exposes_start bare early
    · exact .inr ⟨(not_settled_cons.1 unsettled).2, loops.exposes_turn exposes⟩
  | tryCatch body handler range tried caught =>
    obtain ⟨-, inner⟩ := forall_mem_cons.1 fair
    obtain ⟨inBody, inHandler⟩ := forall_mem_append.1 inner
    have opened := bare_push bare none
    have behind := Chunk.watch_bare (x := n.key) true (.block .branches body) opened
    rw [Chunk.watch, Stmt.watch, close_alarms] at alarm
    rcases caught behind inHandler trivial alarm with early | ⟨unsettled, exposes⟩
    · obtain ⟨t, run⟩ := catch_raised handler
      exact (tried opened inBody trivial early).imp_right (And.imp_right (·.guarded_body run))
    · exact .inr ⟨(not_settled_cons.1 unsettled).2, .guarded_handler (block_raised body) exposes⟩
  | nil => exact .inl alarm
  | cons s others here later =>
    obtain ⟨first, second⟩ := forall_mem_append.1 fair
    have lift (exposes : Exposes n (seq s.Runs (Stmt.RunsAll others))) :
        Exposes n (Stmt.RunsAll (s :: others)) := exposes.mono fun _ _ => .inr
    rcases later (Chunk.watch_bare true (.stmt s) bare) second orderly.2 alarm with
      early | ⟨unsettled, exposes⟩
    · exact (here bare first trivial early).imp_right <| And.imp_right fun exposes =>
        lift (exposes.seq_left (runsAll_raised others))
    · -- the alarm comes later, so that the statement goes on and leaves the name out on some path
      have goesOn : s.ends = false := by
        cases ends : s.ends with
        | false => rfl
        | true =>
          rw [orderly.1 ends] at exposes
          exact absurd exposes not_exposes_nil
      obtain ⟨top, outside⟩ := not_settled_cons.1 unsettled
      have before : ¬ slot.isSettled := fun settled => top (s.settled_track settled)
      have skips := Chunk.skips (.stmt s) _ first trivial goesOn top
      exact .inr ⟨not_settled_cons.2 ⟨before, outside⟩, lift (.seq_right skips exposes)⟩
  | empty around range => exact .inl alarm
  | block around s others range ih =>
    obtain ⟨own, inner⟩ := forall_mem_cons.1 fair
    rw [Chunk.watch_block, close_alarms] at alarm
    have inside := ih (bare_push bare none) inner own.orderly alarm
    exact inside
  | branch around condition onTrue onFalse range inline taken passed =>
    rw [Chunk.sites_branch] at fair
    obtain ⟨-, inner⟩ := forall_mem_cons.1 fair
    obtain ⟨inTrue, inFalse⟩ := forall_mem_append.1 inner
    have opened := bare_push (bare_read bare n.key (readsOf [condition])) none
    have behind := Chunk.watch_bare (x := n.key) true (.block .branches onTrue) opened
    have orderly : onFalse.chunk.Orderly := by cases onFalse <;> trivial
    rw [Chunk.runs_branch]
    have chooses (exposes : Exposes n (Chunk.block .branches onTrue).Runs ∨
        Exposes n onFalse.chunk.Runs) : Exposes n (seq (perform (readEvents [condition]) .done)
          (either (Chunk.block .branches onTrue).Runs onFalse.chunk.Runs)) := by
      refine .seq_right (skips_reads _ _) ?_
      exact exposes.elim (·.mono fun _ _ => .inl) (·.mono fun _ _ => .inr)
    rw [Chunk.watch_branch, close_alarms] at alarm
    rcases passed behind inFalse orderly alarm with early | ⟨unsettled, exposes⟩
    · rcases taken opened inTrue trivial early with earlier | ⟨unsettled, exposes⟩
      · exact (mem_alarms_read bare earlier).imp_right <| And.imp_right fun member =>
          Exposes.seq_left (exposes_reads member) (.inl (block_raised onTrue))
      · exact .inr ⟨unsettled, chooses (.inl exposes)⟩
    · exact .inr ⟨(not_settled_cons.1 unsettled).2, chooses (.inr exposes)⟩
  | handler caught body range ih =>
    obtain ⟨-, inner⟩ := forall_mem_cons.1 fair
    have opened := bare_push bare (opening n.key (.handler ⟨caught, body, range⟩))
    rw [bare_opening] at opened
    rw [Chunk.watch_handler, close_alarms] at alarm
    refine (ih opened inner trivial alarm).imp_right <| And.imp
      (fun unsettled => (not_settled_cons.1 unsettled).2) fun exposes => ?_
    exact .seq_right ⟨_, ⟨rfl, rfl⟩, not_assigned_caught caught⟩ exposes
  | nothing => exact .inl alarm

end

/-! ## The reports of a function -/

namespace Func

variable {f : Func} {n : Ident}

/-- A report about a read is about a path that leads to it. -/
theorem exposes_of_reported (own : f.isLocal n.key)
    (watchable : ∀ site ∈ f.body.sites, site.watchable n.key)
    (fair : ∀ site ∈ f.body.sites, site.Fair n.key)
    (reported : ⟨.iteratorOutsideLoop n.text, n.range⟩ ∈ (f.flow true).findings ∨
      ⟨.unassignedPath n.text, n.range⟩ ∈ (f.flow true).findings) : Exposes n f.body.Runs := by
  have alarm := (mem_alarms_iff true own watchable).1 reported
  unfold Func.watch at alarm
  generalize f.body = body at fair alarm
  cases body with
  | mk statements range =>
    obtain ⟨here, inside⟩ := forall_mem_cons.1 fair
    rcases Chunk.exposes (.stmts statements) (v := ⟨[none], [], [], []⟩) rfl inside here.orderly
      alarm with
      early | ⟨-, exposes⟩
    · cases early
    · exact exposes

/-- If a name is assigned on every path to a read, the read is not reported, provided that no code is
unreachable, that the name is never a loop variable or tested for validity, and that no arm of an
`else if` assigns it and goes on while the `else if` behind the arm always leaves. -/
theorem not_reported_of_assigned (own : f.isLocal n.key)
    (watchable : ∀ site ∈ f.body.sites, site.watchable n.key)
    (noExit : ∀ site ∈ f.body.sites, site.isExit = false)
    (reachable : ∀ finding ∈ (f.flow true).findings, finding.issue ≠ .unreachableCode)
    (notIterated : ∀ name, .bind name .iterator ∈ eventsOf f.body.sites → name.key ≠ n.key)
    (keepsArm : ∀ site ∈ f.body.sites, site.KeepsArm n.key)
    (assigned : ∀ pre post o, f.body.Runs (pre ++ .read n :: post) o → Assigned n.key pre) :
    ¬ (⟨.iteratorOutsideLoop n.text, n.range⟩ ∈ (f.flow true).findings ∨
      ⟨.unassignedPath n.text, n.range⟩ ∈ (f.flow true).findings) := by
  intro reported
  have orderly := f.orderly_of_reachable true reachable
  have fair : ∀ site ∈ f.body.sites, site.Fair n.key := fun site member =>
    ⟨noExit site member, fun name bound => notIterated name (mem_flatMap.2 ⟨site, member, bound⟩),
      keepsArm site member, orderly site member⟩
  obtain ⟨pre, post, o, run, clean⟩ := exposes_of_reported own watchable fair reported
  exact clean (assigned pre post o run)

/-- Two arms assign `x`, on lines 2 and 4; behind the branches it is read on line 9. -/
def assigningArms (others : Else) : Func :=
  let assigning (line : Nat) := Block.mk
    [.assign ⟨.on "x" line, .literal .number "1" .empty, .empty, none⟩] .empty
  .sub ["z", "a", "b"]
    [.ifThen ⟨.var ⟨"z", .empty⟩ false, assigning 2,
      .elseIf ⟨.var ⟨"a", .empty⟩ false, assigning 4, others, .empty, false⟩, .empty, false⟩,
      .print [.var (.on "x" 9) false] .empty]

theorem assigningArms_runs (others : Else) : (assigningArms others).body.Runs
    [.read ⟨"z", .empty⟩, .bind (.on "x" 2) .plain, .read (.on "x" 9)] .done := by
  have assigned : Stmt.RunsAll [.assign ⟨.on "x" 2, .literal .number "1" .empty, .empty, none⟩]
      [.bind (.on "x" 2) .plain] .done :=
    .inr (.inr ⟨[_], [], .inl ⟨rfl, rfl⟩, perform_all _ _, rfl⟩)
  have printed : Stmt.RunsAll [.print [.var (.on "x" 9) false] .empty] [.read (.on "x" 9)] .done :=
    .inr (.inr ⟨[_], [], .inl ⟨rfl, rfl⟩, perform_all _ _, rfl⟩)
  exact .inr (.inr ⟨[_, _], [_], .inr ⟨[_], [_], .inl ⟨rfl, rfl⟩, .inl assigned, rfl⟩, printed, rfl⟩)

/-- If a statement assigns the name and does not read it at `n`, then it is assigned before `n` is
read in what follows. -/
theorem assigned_of_first {rest : List Stmt} {pre : List Event} (unread : .read n ∉ eventsOf s.sites)
    (assigns : ∀ t, s.Runs t .done → Assigned x t)
    (run : Stmt.RunsAll (s :: rest) (pre ++ .read n :: post) o) : Assigned x pre := by
  have within (t : List Event) (o : Outcome) (run : s.Runs t o) : .read n ∉ t := fun member =>
    unread (Chunk.runs_within (.stmt s) (fun _ => id) t o run _ member)
  rcases run with ⟨empty, -⟩ | ⟨first, -⟩ | ⟨a, b, first, -, split⟩
  · simp at empty
  · exact absurd (by simp) (within _ _ first)
  · obtain ⟨name, member, same⟩ := assigns a first
    rcases append_eq_append_iff.1 split with ⟨more, rfl, later⟩ | ⟨more, rfl, -⟩
    · cases more with
      | nil => exact ⟨name, by simpa using member, same⟩
      | cons event others =>
        obtain ⟨rfl, -⟩ := cons_eq_cons.1 later
        exact absurd (by simp) (within _ _ first)
    · exact ⟨name, mem_append_left more member, same⟩

theorem assigned_before_read {others : Else} (ends : others.ends)
    (unread : .read (.on "x" 9) ∉ eventsOf others.sites) {pre : List Event}
    (run : (assigningArms others).body.Runs (pre ++ .read (.on "x" 9) :: post) o) :
    Assigned "x" pre := by
  have key : Text.lower "x" = "x" := by decide
  have arm (line : Nat) (t : List Event) (taken : Stmt.RunsAll
      [.assign ⟨.on "x" line, .literal .number "1" .empty, .empty, none⟩] t .done) :
      Assigned "x" t := by
    rcases taken with ⟨-, other⟩ | taken
    · cases other
    · obtain ⟨a, b, (⟨rfl, -⟩ | ⟨-, other⟩), -, rfl⟩ := seq_done taken
      · exact ⟨.on "x" line, by simp, key⟩
      · cases other
  refine assigned_of_first ?_ (fun t through => ?_) run
  · show .read (.on "x" 9) ∉ [.read ⟨"z", .empty⟩, .bind (.on "x" 2) .plain,
      .read ⟨"a", .empty⟩, .bind (.on "x" 4) .plain] ++ eventsOf others.sites
    simpa [Ident.on] using unread
  · obtain ⟨a, b, -, chosen, rfl⟩ := seq_done through
    have taken : Assigned "x" b := by
      rcases chosen with first | passed
      · exact arm 2 b first
      · obtain ⟨c, d, -, chosen, rfl⟩ := seq_done passed
        rcases chosen with second | other
        · exact assigned_append.2 (.inr (arm 4 d second))
        · have passed : others.chunk.Runs d .done := by cases others <;> exact other
          exact absurd passed (Chunk.not_done_of_ends _ (by rwa [Else.ends_chunk]) d)
    exact assigned_append.2 (.inr taken)

/-- The third arm is a plain `else` that returns. -/
def returningElse : Func :=
  assigningArms (.block ⟨[.ret none .empty], .empty⟩)

theorem not_reported_of_assigned_returningElse :
    ¬ (⟨.iteratorOutsideLoop "x", (Ident.on "x" 9).range⟩ ∈ (returningElse.flow true).findings ∨
      ⟨.unassignedPath "x", (Ident.on "x" 9).range⟩ ∈ (returningElse.flow true).findings) := by
  have events : eventsOf returningElse.body.sites = [.read ⟨"z", .empty⟩, .bind (.on "x" 2) .plain,
      .read ⟨"a", .empty⟩, .bind (.on "x" 4) .plain, .read (.on "x" 9)] := rfl
  have silent : (returningElse.flow true).findings = [] := by decide +kernel
  refine not_reported_of_assigned (n := .on "x" 9) ⟨by decide, rfl⟩ (by decide) (by decide)
    (by simp [silent]) (by simp [events]) ?_ fun pre post o run => ?_
  · simp [returningElse, assigningArms, Func.sub, Block.sites, Stmt.sitesAll, Stmt.sites, If.sites,
      Else.sites, Site.KeepsArm, If.KeepsArm]
  · exact assigned_before_read rfl (by decide) run

/-- The third arm is an `else if` whose arms all return. -/
def returningElseIf : Func :=
  let returning := Block.mk [.ret none .empty] .empty
  assigningArms (.elseIf ⟨.var ⟨"b", .empty⟩ false, returning, .block returning, .empty, false⟩)

/-- Then the assignment in the second arm is forgotten and the read reported, though every path to it
assigns the name. -/
theorem reported_though_assigned_returningElseIf : (returningElseIf.isLocal "x" ∧
      (∀ site ∈ returningElseIf.body.sites, site.watchable "x" ∧ ¬ site.isExit ∧ ¬ site.isHalt) ∧
      (∀ finding ∈ (returningElseIf.flow true).findings, finding.issue ≠ .unreachableCode)) ∧
    (∃ pre post o, returningElseIf.body.Runs (pre ++ .read (.on "x" 9) :: post) o) ∧
    (∀ pre post o, returningElseIf.body.Runs (pre ++ .read (.on "x" 9) :: post) o →
      Assigned "x" pre) ∧
    ⟨.unassignedPath "x", (Ident.on "x" 9).range⟩ ∈ (returningElseIf.flow true).findings := by
  exact ⟨⟨⟨by decide, rfl⟩, by decide, by decide +kernel⟩,
    ⟨[_, _], [], .done, assigningArms_runs _⟩,
    fun pre post o run => assigned_before_read rfl (by decide) run, by decide +kernel⟩

end Func

end ChannelLint
