import ChannelLint.Proofs.Standing

/-!
# Names that are bound before they are read

A read that the walk accepts without a word should find its name bound on every path that leads to
it. That holds as long as no branch is read with the bindings of the branch before it: the first
branch of an `if` or `try` has left its bindings in the frame of the statement when the second one
is walked.
-/
namespace ChannelLint

open List Slot

variable {closed : FrameShape} {x : String} {es : List Expr} {names : List Ident} {n : Ident}
  {known : Prop} {before : List Event}

/-! ## Settled bindings -/

namespace Slot

variable {slot outer inner first second : Slot}

variable {branches usedBefore : Bool} {around : Around}

/-- A binding that is settled also outside of the frame it was made in. -/
def Firm (slot : Slot) : Prop :=
  ∃ e, slot = some e ∧ e.unsettled = false ∧ e.role ≠ .iterator

theorem not_firm_none : ¬ Firm none := by
  rintro ⟨e, found, -⟩
  cases found

theorem Firm.isSettled (firm : slot.Firm) : slot.isSettled := by
  obtain ⟨e, rfl, settled, -⟩ := firm
  simp [isSettled, settled]

theorem settled_receive (settled : (outer.receive branches usedBefore inner).isSettled) :
    outer.isSettled ∨ inner.Firm := by
  cases inner with
  | none => exact .inl settled
  | some e =>
    cases outer with
    | none =>
      simp [receive, Entry.moveOut, isSettled] at settled
      exact .inr ⟨e, rfl, settled.1, settled.2⟩
    | some o =>
      simp only [receive, Entry.moveOut, isSettled] at settled ⊢
      cases unsettled : o.unsettled with
      | false => exact .inl rfl
      | true =>
        cases branches <;> simp [unsettled] at settled
        exact .inr ⟨e, rfl, settled.1, settled.2⟩

theorem Firm.settled_receive (firm : inner.Firm) :
    (receive none branches usedBefore inner).isSettled := by
  obtain ⟨e, rfl, settled, lasting⟩ := firm
  simp [receive, Entry.moveOut, Slot.isSettled, settled, lasting]

/-- Two branches leave a firm binding only if each of them that leaves one leaves a firm one. -/
theorem firm_joined (firm : (joined first second).Firm) :
    (first = none ∨ first.Firm) ∧ (second = none ∨ second.Firm) := by
  obtain ⟨e, found, settled, lasting⟩ := firm
  cases first with
  | none =>
    cases second with
    | none => cases found
    | some s =>
      cases found
      simp [receive, Entry.moveOut] at settled lasting
      exact ⟨.inl rfl, .inr ⟨s, rfl, settled.1, settled.2⟩⟩
  | some f =>
    cases second with
    | none =>
      cases found
      simp [Entry.moveOut] at settled lasting
      exact ⟨.inr ⟨f, rfl, settled.1, settled.2⟩, .inl rfl⟩
    | some s =>
      cases found
      simp [receive, Entry.moveOut] at settled lasting
      exact ⟨.inr ⟨f, rfl, settled.1.1, settled.1.2⟩, .inr ⟨s, rfl, settled.2.1, settled.2.2⟩⟩

/-- A firm binding leaves a frame with several paths only if it was met on all of them. -/
theorem firm_leaving (firm : (leaving closed around slot).Firm) :
    slot.Firm ∧ ∀ e, slot = some e → 1 < closed.paths → closed.paths ≤ e.met := by
  obtain ⟨e, left, settled, lasting⟩ := firm
  obtain ⟨o, rfl, (⟨more, rfl⟩ | ⟨single, -, rfl⟩)⟩ := of_leaving left
  · simp [Entry.countBranches] at settled lasting
    refine ⟨⟨o, rfl, settled.1, lasting⟩, ?_⟩
    rintro _ ⟨⟩ -
    exact settled.2
  · exact ⟨⟨e, rfl, settled, lasting⟩, fun _ _ more => absurd more single⟩

/-- Two branches that both go on leave a firm binding only if each of them does. -/
theorem firm_of_both (firstMet : ∀ e, first = some e → e.met = 1)
    (secondMet : ∀ e, second = some e → e.met = 1) (both : 1 < closed.paths)
    (firm : (leaving closed around (joined first second)).Firm) : first.Firm ∧ second.Firm := by
  obtain ⟨joinedFirm, counted⟩ := firm_leaving firm
  obtain ⟨firstFirm, secondFirm⟩ := firm_joined joinedFirm
  -- a branch alone is counted once, which is less than the two paths
  have twoMet : ∀ e, joined first second = some e → e.met ≠ 1 := by
    intro e found once
    have enough := counted e found both
    omega
  cases first with
  | none =>
    cases second with
    | none => exact absurd joinedFirm not_firm_none
    | some s =>
      have once : (s.moveOut none true false).met = 1 := secondMet s rfl
      exact absurd once (twoMet _ rfl)
  | some f =>
    cases second with
    | none =>
      have once : (f.moveOut none true false).met = 1 := firstMet f rfl
      exact absurd once (twoMet _ rfl)
    | some s =>
      exact ⟨firstFirm.resolve_left (by simp), secondFirm.resolve_left (by simp)⟩

/-- If two branches leave a firm binding, then every branch that goes on does. -/
theorem firm_of_going_on (firstMet : ∀ e, first = some e → e.met = 1)
    (secondMet : ∀ e, second = some e → e.met = 1) {site : Site}
    {returns endsFirst endsSecond : Bool} (noneFirst : endsFirst → first = none)
    (noneSecond : endsSecond → second = none)
    (firm : (leaving ⟨site, Walk.pathsAfter (Walk.pathsAfter 2 endsFirst) endsSecond, returns⟩ around
      (joined first second)).Firm) :
    (endsFirst = false → first.Firm) ∧ (endsSecond = false → second.Firm) := by
  obtain ⟨joinedFirm, -⟩ := firm_leaving firm
  obtain ⟨firstFirm, secondFirm⟩ := firm_joined joinedFirm
  cases endsFirst with
  | false =>
    cases endsSecond with
    | false =>
      obtain ⟨firstFirm, secondFirm⟩ := firm_of_both firstMet secondMet (by simp [Walk.pathsAfter]) firm
      exact ⟨fun _ => firstFirm, fun _ => secondFirm⟩
    | true =>
      obtain rfl := noneSecond rfl
      refine ⟨fun _ => firstFirm.resolve_left ?_, fun goesOn => by cases goesOn⟩
      rintro rfl
      exact not_firm_none joinedFirm
  | true =>
    obtain rfl := noneFirst rfl
    refine ⟨fun goesOn => (by cases goesOn), fun _ => secondFirm.resolve_left ?_⟩
    rintro rfl
    exact not_firm_none joinedFirm

/-- A loop may run no time at all, so that nothing made in it is firm. -/
theorem not_firm_looped {opening body : Slot} (openingMet : ∀ e, opening = some e → e.met = 1)
    (bodyMet : ∀ e, body = some e → e.met = 1) {site : Site} (two : site.paths true = 2) :
    ¬ (looped site true opening body).Firm := by
  intro firm
  obtain ⟨⟨e, found, -⟩, counted⟩ := firm_leaving firm
  have enough : site.paths true ≤ e.met := counted e found (by simp [two])
  have once : e.met = 1 := by
    cases body with
    | none => exact openingMet e found
    | some b =>
      cases found
      cases opening <;> exact bodyMet b rfl
  omega

end Slot

/-! ## A settled binding was made on every path -/

open Paths

theorem bound_of_perform {name : Ident} {role : Role} {t : List Event} (same : name.key = x)
    (run : perform (readEvents es ++ [.bind name role]) .done t .done) : Bound x t := by
  rcases run with ⟨rfl, -⟩ | ⟨-, other⟩
  · exact ⟨name, role, by simp, same⟩
  · cases other

/-- If a handler starts with a binding of the name, it is that of the caught error. -/
theorem bound_of_opening {caught : Option Ident} {body : Block} {range : Range}
    (opened : (opening x (.handler ⟨caught, body, range⟩)).isSettled) :
    Bound x (caught.toList.map (.bind · .caughtError)) := by
  cases caught with
  | none => cases opened
  | some name =>
    by_cases same : name.key = x
    · exact ⟨name, .caughtError, by simp, same⟩
    · simp [opening, same, isSettled] at opened

section

/-- A firm binding is settled behind the part that leaves it. -/
theorem Chunk.settled_of_firm {c : Chunk} (firm : (c.leaves x true none).Firm) :
    (c.track x true none).isSettled := by
  cases c with
  | stmt s => exact firm.isSettled
  | stmts statements => exact firm.isSettled
  | nothing => exact absurd firm not_firm_none
  | _ => exact firm.settled_receive

/-- A binding that is settled behind a part was settled before, or is made on every path. -/
theorem Chunk.bound_of_settled (c : Chunk) {slot : Slot} (settled : (c.track x true slot).isSettled) :
    slot.isSettled ∨ ∀ t, c.Runs t .done → Bound x t := by
  induction c generalizing slot with
  | simple s simple =>
    rw [Chunk.track, Stmt.track_of_simple simple] at settled
    exact .inl settled
  | assign a =>
    by_cases same : a.name.key = x
    · exact .inr fun t run => bound_of_perform same run
    · simp only [Chunk.track, Stmt.track, rebind, same, if_false] at settled
      exact .inl settled
  | dim name sizes range =>
    by_cases same : name.key = x
    · exact .inr fun t run => bound_of_perform same run
    · simp only [Chunk.track, Stmt.track, rebind, same, if_false] at settled
      exact .inl settled
  | ifThen i ih => exact ih settled
  | loop s body loops ih =>
    rw [Chunk.track, loops.track] at settled
    refine .inl ((settled_receive settled).resolve_right ?_)
    exact not_firm_looped (loops.entered_made (List.Subset.refl _)).met
      (Chunk.leaves_made true (.block .plain body) made_none (List.Subset.refl _)).met
      (by cases loops <;> rfl)
  | tryCatch body handler range tried caught =>
    refine (settled_receive settled).imp_right fun firm t run => ?_
    obtain ⟨inBody, inHandler⟩ := firm_of_going_on
      (Chunk.leaves_made true (.block .branches body) made_none (List.Subset.refl _)).met
      (Chunk.leaves_made true (.handler handler) made_none (List.Subset.refl _)).met
      (fun ends => Block.leaves_of_ends ends (by simp)) Catch.leaves_of_ends firm
    rcases run with ⟨direct, -⟩ | ⟨a, b, -, handled, rfl⟩
    · cases ends : body.ends with
      | true => exact absurd direct (Chunk.not_done_of_ends (.block .branches body) ends t)
      | false => exact (tried (settled_of_firm (inBody ends))).resolve_left Bool.false_ne_true t direct
    · cases ends : handler.ends with
      | true => exact absurd handled (Chunk.not_done_of_ends (.handler handler) ends b)
      | false =>
        refine Bound.append_right a ?_
        exact (caught (settled_of_firm (inHandler ends))).resolve_left Bool.false_ne_true b handled
  | cons s others first later =>
    rcases later settled with early | late
    · refine (first early).imp_right fun always t run => ?_
      rcases run with ⟨-, other⟩ | run
      · cases other
      · obtain ⟨a, b, here, -, rfl⟩ := seq_done run
        exact (always a here).append_left b
    · refine .inr fun t run => ?_
      rcases run with ⟨-, other⟩ | run
      · cases other
      · obtain ⟨a, b, -, behind, rfl⟩ := seq_done run
        exact Bound.append_right a (late b behind)
  | empty around range =>
    refine (settled_receive settled).imp_right fun firm => ?_
    exact absurd (firm_leaving firm).1 not_firm_none
  | block around s others range ih =>
    refine (settled_receive settled).imp_right fun firm => ?_
    exact (ih (firm_leaving firm).1.isSettled).resolve_left Bool.false_ne_true
  | branch around condition onTrue onFalse range inline taken passed =>
    refine (settled_receive settled).imp_right fun firm t run => ?_
    change (Chunk.leaves x true
      (.branch around ⟨condition, onTrue, onFalse, range, inline⟩) none).Firm at firm
    rw [Chunk.leaves_branch] at firm
    obtain ⟨inTrue, inFalse⟩ := firm_of_going_on
      (Chunk.leaves_made true (.block .branches onTrue) made_none (List.Subset.refl _)).met
      (Chunk.leaves_made true onFalse.chunk made_none (List.Subset.refl _)).met
      (fun ends => Block.leaves_of_ends ends (by simp))
      (fun ends => by rw [Else.leaves_chunk, Else.leaves_of_ends ends]) firm
    rw [Chunk.runs_branch] at run
    obtain ⟨a, b, -, chosen, rfl⟩ := seq_done run
    refine Bound.append_right a ?_
    rcases chosen with chosen | chosen
    · cases ends : onTrue.ends with
      | true => exact absurd chosen (Chunk.not_done_of_ends (.block .branches onTrue) ends b)
      | false => exact (taken (settled_of_firm (inTrue ends))).resolve_left Bool.false_ne_true b chosen
    · cases ends : onFalse.ends with
      | true =>
        exact absurd chosen (Chunk.not_done_of_ends onFalse.chunk (by rwa [Else.ends_chunk]) b)
      | false => exact (passed (settled_of_firm (inFalse ends))).resolve_left Bool.false_ne_true b chosen
  | handler caught body range ih =>
    refine (settled_receive settled).imp_right fun firm t run => ?_
    obtain ⟨a, b, ⟨rfl, -⟩, handled, rfl⟩ := seq_done run
    rcases settled_receive (firm_leaving firm).1.isSettled with opened | firmBody
    · exact (bound_of_opening opened).append_left b
    · exact Bound.append_right _
        ((ih (settled_of_firm firmBody)).resolve_left Bool.false_ne_true b handled)
  | _ => exact .inl settled

theorem Chunk.bound_of_firm (c : Chunk) (firm : (c.leaves x true none).Firm) :
    ∀ t, c.Runs t .done → Bound x t :=
  (c.bound_of_settled (settled_of_firm firm)).resolve_left nofun

end

/-! ## Reads without a word -/

/-- The name was bound before each read of `n` on the way, counted from an earlier point. -/
def Guarded (x : String) (n : Ident) (before t : List Event) : Prop :=
  ∀ pre post, t = pre ++ .read n :: post → Bound x (before ++ pre)

namespace Guarded

variable {a b : List Event}

theorem of_unread (unread : .read n ∉ a) : Guarded x n before a := by
  rintro pre post rfl
  exact absurd (by simp) unread

theorem append (first : Guarded x n before a) (second : Guarded x n (before ++ a) b) :
    Guarded x n before (a ++ b) := by
  intro pre post split
  rcases append_eq_append_iff.1 split with ⟨rest, rfl, later⟩ | ⟨rest, rfl, later⟩
  · rw [← append_assoc]
    exact second rest post later
  · cases rest with
    | nil =>
      simpa using second [] post later.symm
    | cons event others =>
      obtain ⟨rfl, -⟩ := List.cons.inj later
      exact first pre others rfl

theorem of_read (reading : .read n ∈ a → Bound x before) : Guarded x n before a := by
  rintro pre post rfl
  exact (reading (by simp)).append_left pre

theorem of_prefix (whole : Guarded x n before b) (part : a <+: b) : Guarded x n before a := by
  rintro pre post rfl
  obtain ⟨rest, rfl⟩ := part
  exact whole pre (post ++ rest) (by simp)

variable {p q : Paths}

theorem seq (first : ∀ t o, p t o → Guarded x n before t)
    (second : ∀ a, p a .done → ∀ t o, q t o → Guarded x n (before ++ a) t) :
    ∀ t o, Paths.seq p q t o → Guarded x n before t := by
  rintro t o (⟨run, -⟩ | ⟨a, b, runA, runB, rfl⟩)
  · exact first t o run
  · exact (first a _ runA).append (second a runA b o runB)

theorem guarded (body : ∀ t o, p t o → Guarded x n before t)
    (handler : ∀ a, ∀ t o, q t o → Guarded x n (before ++ a) t) :
    ∀ t o, Paths.guarded p q t o → Guarded x n before t := by
  rintro t o (⟨run, -⟩ | ⟨a, b, runA, runB, rfl⟩)
  · exact body t o run
  · exact (body a _ runA).append (handler a b o runB)

theorem repeated {kind : LoopKind} (test : ∀ more t o, p t o → Guarded x n (before ++ more) t)
    (turn : ∀ more t o, q t o → Guarded x n (before ++ more) t) :
    ∀ t o, Paths.repeated kind p q t o → Guarded x n before t := by
  intro t o run
  have turned {a b : List Event} {o : Outcome} (more : List Event) (tested : p a .done)
      (run : q b o) : Guarded x n (before ++ more) (a ++ b) := by
    have later := turn (more ++ a) b o run
    rw [← append_assoc] at later
    exact (test more a _ tested).append later
  suffices everywhere : ∀ more, Guarded x n (before ++ more) t by simpa using everywhere []
  induction run with
  | stop tested => exact fun more => test more _ _ tested
  | @again a b c o tested run _ ih =>
    intro more
    have others := ih (more ++ (a ++ b))
    rw [← append_assoc] at others
    exact (turned more tested run).append others
  | exit tested run => exact fun more => turned more tested run
  | leave tested run _ _ => exact fun more => turned more tested run

theorem perform {outcome : Outcome} (whole : Guarded x n before a) :
    ∀ t o, Paths.perform a outcome t o → Guarded x n before t := by
  rintro t o (⟨rfl, -⟩ | ⟨part, -⟩)
  · exact whole
  · exact whole.of_prefix part

end Guarded

namespace Watch

variable {v v' : Watch}

/-- Nothing was said about a read of `n`. -/
def Quiet (n : Ident) (v : Watch) : Prop :=
  n ∉ v.alarms ∧ n ∉ v.free

theorem Quiet.earlier (quiet : v'.Quiet n) (growth : Grows v v') : v.Quiet n :=
  ⟨fun member => quiet.1 (growth.alarms.subset member),
    fun member => quiet.2 (growth.free.subset member)⟩

theorem any_isSettled_bare (v : Watch) : v.bare.any isSettled = v.stack.any isSettled := by
  unfold bare
  rw [any_map]
  congr 1
  funext slot
  cases slot <;> rfl

theorem settled_of_quiet_readName (quiet : (v.readName n).Quiet n) : v.bare.any isSettled := by
  rw [any_isSettled_bare]
  unfold readName at quiet
  split at quiet
  · exact absurd (by simp) quiet.2
  · cases settled : v.stack.any isSettled with
    | true => rfl
    | false =>
      rw [settled] at quiet
      exact absurd (by simp) quiet.1

/-- Where a name is read in silence, a settled binding is in sight. -/
theorem settled_of_quiet (same : n.key = x) (member : n ∈ names)
    (quiet : (v.read x names).Quiet n) : v.bare.any isSettled := by
  have watched : n ∈ names.filter (·.key = x) := mem_filter.2 ⟨member, by simpa using same⟩
  unfold read at quiet
  generalize names.filter (·.key = x) = reads at watched quiet
  induction reads generalizing v with
  | nil => cases watched
  | cons name others ih =>
    rcases mem_cons.1 watched with rfl | later
    · exact settled_of_quiet_readName (quiet.earlier (foldl_readName_grows others _))
    · have settled := ih later quiet
      rwa [bare_readName] at settled

end Watch

/-! ## Branches that are read by themselves -/

/-- A block that goes on and binds the name on every path to its end. -/
def Block.LeavesBound (x : String) (b : Block) : Prop :=
  b.ends = false ∧ Bound x (eventsOf b.sites) ∧ ∀ t, b.Runs t .done → Bound x t

/-- Some path reads the name at `n`. -/
def Paths.Reads (n : Ident) (p : Paths) : Prop :=
  ∃ t o, p t o ∧ .read n ∈ t

section

variable (n : Ident)

mutual

/-- Where `n` is read in the second branch of a statement and the first branch leaves its name bound,
the name was bound before. `known` says that it is bound on every path to this point. -/
def Stmt.Isolated (known : Prop) : Stmt → Prop
  | .ifThen branch => branch.Isolated known
  | .forTo counter _ _ body _ => body.Isolated (known ∨ counter.name.key = n.key)
  | .forEach item _ body _ => body.Isolated (known ∨ item.key = n.key)
  | .whileDo _ body _ => body.Isolated known
  | .tryCatch body handler _ =>
    body.Isolated known ∧ handler.Isolated known ∧
      (Reads n handler.Runs → body.LeavesBound n.key → known)
  | _ => True

def Stmt.IsolatedAll (known : Prop) : List Stmt → Prop
  | [] => True
  | s :: rest =>
    s.Isolated known ∧ Stmt.IsolatedAll (known ∨ ∀ t, s.Runs t .done → Bound n.key t) rest

def Block.Isolated (known : Prop) : Block → Prop
  | ⟨statements, _⟩ => Stmt.IsolatedAll known statements

def If.Isolated (known : Prop) : If → Prop
  | ⟨_, onTrue, onFalse, _, _⟩ =>
    onTrue.Isolated known ∧ onFalse.Isolated known ∧
      (Reads n onFalse.Runs → onTrue.LeavesBound n.key → known)

def Else.Isolated (known : Prop) : Else → Prop
  | .absent => True
  | .block body => body.Isolated known
  | .elseIf branch => branch.Isolated known

def Catch.Isolated (known : Prop) : Catch → Prop
  | ⟨caught, body, _⟩ => body.Isolated (known ∨ ∃ name ∈ caught, name.key = n.key)

end

end

def Chunk.Isolated (n : Ident) (known : Prop) : Chunk → Prop
  | .stmt s => s.Isolated n known
  | .stmts statements => Stmt.IsolatedAll n known statements
  | .block _ b => b.Isolated n known
  | .branch _ i => i.Isolated n known
  | .handler c => c.Isolated n known
  | .nothing => True

theorem Chunk.isolated_branch {around : Around} {condition : Expr}
    {onTrue : Block} {onFalse : Else} {range : Range} {inline : Bool} :
    (Chunk.branch around ⟨condition, onTrue, onFalse, range, inline⟩).Isolated n known ↔
      (Chunk.block .branches onTrue).Isolated n known ∧ onFalse.chunk.Isolated n known ∧
        (Reads n onFalse.chunk.Runs → onTrue.LeavesBound n.key → known) := by
  cases onFalse <;> rfl

theorem Block.leavesBound_of_firm {b : Block}
    (firm : (b.leaves x true .branches).Firm) : b.LeavesBound x := by
  refine ⟨?_, ?_, Chunk.bound_of_firm (.block .branches b) firm⟩
  · cases ends : b.ends with
    | false => rfl
    | true =>
      rw [Block.leaves_of_ends ends (by simp)] at firm
      exact absurd firm not_firm_none
  · obtain ⟨e, left, -⟩ := firm
    have origin := (Chunk.leaves_made true (.block .branches b) made_none
      (List.Subset.refl _)).origin e left
    obtain ⟨role, bound⟩ := origin.bound
    exact ⟨e.ident, role, bound, origin.key⟩

/-- The name is bound by now if it is known to be, and if a settled binding is in sight. -/
def Knows (x : String) (known : Prop) (slots : List Slot) (before : List Event) : Prop :=
  known ∨ slots.any isSettled → Bound x before

namespace Knows

variable {slot : Slot} {slots : List Slot}

/-- A binding in sight behind a statement is an old one, or the statement makes it on every path. -/
theorem next (knows : Knows x known (slot :: slots) before) {s : Stmt} {a : List Event}
    (run : s.Runs a .done) :
    Knows x (known ∨ ∀ t, s.Runs t .done → Bound x t) (s.track x true slot :: slots)
      (before ++ a) := by
  rintro ((already | always) | settled)
  · exact (knows (.inl already)).append_left a
  · exact Bound.append_right before (always a run)
  · rcases Bool.or_eq_true_iff.1 settled with top | outside
    · rcases Chunk.bound_of_settled (.stmt s) top with earlier | always
      · exact (knows (.inr (by simp [earlier]))).append_left a
      · exact Bound.append_right before (always a run)
    · exact (knows (.inr (Bool.or_eq_true_iff.2 (.inr outside)))).append_left a

variable (knows : Knows x known slots before)

include knows

theorem later (more : List Event) : Knows x known slots (before ++ more) :=
  fun reason => (knows reason).append_left more

theorem opened : Knows x known (none :: slots) before :=
  knows

/-- A frame that starts with a binding is entered after that binding was made. -/
theorem rebind (name : Ident) (role : Role) :
    Knows x (known ∨ name.key = x) (rebind x name role none :: slots)
      (before ++ [.bind name role]) := by
  intro reason
  by_cases same : name.key = x
  · exact Bound.append_right before ⟨name, role, by simp, same⟩
  · simp only [Slot.rebind, same, or_false, if_false] at reason
    exact (knows reason).append_left _

theorem caught (caught : Option Ident) (body : Block) (range : Range) :
    Knows x (known ∨ ∃ name ∈ caught, name.key = x)
      (opening x (.handler ⟨caught, body, range⟩) :: slots)
      (before ++ caught.toList.map (.bind · .caughtError)) := by
  rintro ((already | ⟨name, rfl, same⟩) | settled)
  · exact (knows (.inl already)).append_left _
  · exact Bound.append_right before ⟨name, .caughtError, by simp, same⟩
  · rcases Bool.or_eq_true_iff.1 settled with here | outside
    · exact Bound.append_right before (bound_of_opening here)
    · exact (knows (.inr outside)).append_left _

/-- Behind the first branch nothing new is in sight, unless that branch leaves the name bound. -/
theorem second {first : Block} (isolated : first.LeavesBound x → known) :
    Knows x known (receive none true false (first.leaves x true .branches) :: slots) before := by
  rintro (already | settled)
  · exact knows (.inl already)
  · rcases Bool.or_eq_true_iff.1 settled with inFirst | outside
    · exact knows (.inl (isolated (Block.leavesBound_of_firm
        ((settled_receive inFirst).resolve_left nofun))))
    · exact knows (.inr outside)

end Knows

/-- What is read where the walk keeps silent is bound. -/
theorem Guarded.of_quiet {v : Watch} {slots : List Slot} {t : List Event} (bare : v.bare = slots)
    (knows : Knows n.key known slots before) (quiet : (v.read n.key names).Quiet n)
    (only : .read n ∈ t → n ∈ names) : Guarded n.key n before t :=
  .of_read fun reads => knows (.inr (bare ▸ Watch.settled_of_quiet rfl (only reads) quiet))

theorem mem_of_read_mem {name : Ident} {role : Role}
    (reads : .read n ∈ readEvents es ++ [.bind name role]) : n ∈ readsOf es := by
  simpa [readEvents] using reads

theorem mem_readsOf (reads : .read n ∈ readEvents es) : n ∈ readsOf es := by
  simpa [readEvents] using reads

section

open Watch

/-- Where the walk is silent about `n`, its name is bound before it is read. -/
theorem Chunk.guarded (c : Chunk) {v : Watch} {slot : Slot} {rest : List Slot}
    (bare : v.bare = slot :: rest)
    (knows : Knows n.key known (slot :: rest) before) (isolated : c.Isolated n known)
    (quiet : (c.watch n.key true v).Quiet n) : ∀ t o, c.Runs t o → Guarded n.key n before t := by
  induction c generalizing known v slot rest before with
  | simple s simple =>
    rw [Chunk.watch, Stmt.watch_of_simple simple] at quiet
    rw [Chunk.Runs, Stmt.runs_of_simple simple]
    exact .perform (.of_quiet bare knows quiet mem_readsOf)
  | assign a =>
    exact .perform (.of_quiet bare knows (quiet.earlier (bind_grows _ _ _ _)) mem_of_read_mem)
  | dim name sizes range =>
    exact .perform (.of_quiet bare knows (quiet.earlier (bind_grows _ _ _ _)) mem_of_read_mem)
  | ifThen i ih => exact ih bare knows isolated quiet
  | loop s body loops ih =>
    rw [Chunk.watch, loops.watch] at quiet
    have quietBody := quiet.earlier (close_grows _ _ _)
    have quietEntered := quietBody.earlier (Chunk.watch_grows n.key true (.block .plain body) _)
    have opened := loops.entered_bare (x := n.key) bare
    cases loops with
    | forTo counter limit stride body range =>
      have quietStart := (quietEntered.earlier (read_grows _ _ _)).earlier (bind_grows _ _ _ _)
      have started := bare_push bare none
      have counted := bare_bind (x := n.key) (bare_read started n.key (readsOf [counter.value]))
        counter.name .iterator
      have start : Guarded n.key n before (readEvents [counter.value]) :=
        .of_quiet started knows.opened quietStart mem_readsOf
      -- the counter is bound when the limit is read and throughout the loop
      have knowsCounter := (knows.later (readEvents [counter.value])).rebind counter.name .iterator
      have limits : Guarded n.key n (before ++ readEvents [counter.value])
          (.bind counter.name .iterator :: readEvents (limit :: stride.toList)) :=
        Guarded.append (a := [.bind counter.name .iterator]) (.of_unread (by simp))
          (.of_quiet counted knowsCounter quietEntered mem_readsOf)
      refine .seq (.perform (start.append limits)) fun a begun => ?_
      refine .repeated (fun more t o nothing => ?_) fun more => ?_
      · obtain ⟨rfl, -⟩ := nothing
        exact .of_unread (by simp)
      · refine ih opened ?_ isolated quietBody
        rcases begun with ⟨rfl, -⟩ | ⟨-, other⟩
        · simpa [Stmt.enteredSlot] using
            (knowsCounter.later (readEvents (limit :: stride.toList))).later more
        · cases other
    | forEach item target body range =>
      refine .seq (.perform (.of_quiet bare knows (quietEntered.earlier (push_grows _ _))
        mem_readsOf)) fun a _ => ?_
      refine .repeated (fun more t o nothing => ?_) fun more => .seq (fun t o bound => ?_) ?_
      · obtain ⟨rfl, -⟩ := nothing
        exact .of_unread (by simp)
      · obtain ⟨rfl, -⟩ := bound
        exact .of_unread (by simp)
      · rintro b ⟨rfl, -⟩
        exact ih opened (((knows.later a).later more).rebind item .iterator) isolated quietBody
    | whileDo condition body range =>
      refine .repeated (fun more => ?_) fun more => ?_
      · exact .perform (.of_quiet bare (knows.later more) (quietEntered.earlier (push_grows _ _))
          mem_readsOf)
      · exact ih opened (knows.later more).opened isolated quietBody
  | tryCatch body handler range tried caught =>
    obtain ⟨inBody, inHandler, own⟩ := isolated
    have quietHandler := quiet.earlier (close_grows _ _ _)
    have quietBody := quietHandler.earlier (Chunk.watch_grows n.key true (.handler handler) _)
    have opened := bare_push bare none
    refine .guarded (tried opened knows.opened inBody quietBody) fun a t o run => ?_
    by_cases reads : .read n ∈ t
    · exact caught (Chunk.watch_bare true (.block .branches body) opened)
        ((knows.later a).second (own ⟨t, o, run, reads⟩)) inHandler quietHandler t o run
    · exact .of_unread reads
  | cons s others first later =>
    have quietHere := quiet.earlier (Chunk.watch_grows n.key true (.stmts others) _)
    rintro t o (⟨rfl, -⟩ | run)
    · exact .of_unread (by simp)
    · refine Guarded.seq (first bare knows isolated.1 quietHere) (fun a here => ?_) t o run
      exact later (Chunk.watch_bare true (.stmt s) bare) (knows.next here) isolated.2 quiet
  | block around s others range ih =>
    exact ih (bare_push bare none) knows.opened isolated (quiet.earlier (close_grows _ _ _))
  | branch around condition onTrue onFalse range inline taken passed =>
    obtain ⟨inTrue, inFalse, own⟩ := Chunk.isolated_branch.1 isolated
    rw [Chunk.watch_branch] at quiet
    rw [Chunk.runs_branch]
    have quietFalse := quiet.earlier (close_grows _ _ _)
    have quietTrue := quietFalse.earlier (Chunk.watch_grows n.key true onFalse.chunk _)
    have quietRead := (quietTrue.earlier
      (Chunk.watch_grows n.key true (.block .branches onTrue) _)).earlier (push_grows none _)
    have opened := bare_push (bare_read bare n.key (readsOf [condition])) none
    refine .seq (.perform (.of_quiet bare knows quietRead mem_readsOf)) fun a _ => ?_
    rintro t o (run | run)
    · exact taken opened (knows.later a).opened inTrue quietTrue t o run
    · by_cases reads : .read n ∈ t
      · exact passed (Chunk.watch_bare true (.block .branches onTrue) opened)
          ((knows.later a).second (own ⟨t, o, run, reads⟩)) inFalse quietFalse t o run
      · exact .of_unread reads
  | handler caught body range ih =>
    have opened := bare_push bare (opening n.key (.handler ⟨caught, body, range⟩))
    rw [bare_opening] at opened
    refine .seq ?_ fun a started => ?_
    · rintro t o ⟨rfl, -⟩
      exact .of_unread (by simp)
    · obtain ⟨rfl, -⟩ := started
      exact ih opened (knows.caught caught body range) isolated (quiet.earlier (close_grows _ _ _))
  | nothing =>
    rintro t o ⟨rfl, -⟩
    exact .of_unread (by simp)
  | _ => exact .perform (.of_unread (by simp))

end

/-! ## The reads of a function -/

/-- A name at the start of a line. -/
def Ident.on (text : String) (line : Nat) : Ident :=
  ⟨text, ⟨⟨line, 0⟩, ⟨line, text.length⟩⟩⟩

namespace Func

variable {f : Func} {n : Ident}

/-- A sub with the given parameters and statements. -/
def sub (params : List String) (statements : List Stmt) : Func where
  keyword := "sub"
  params := params.map fun name => ⟨⟨name, .empty⟩, none, none⟩
  body := ⟨statements, .empty⟩
  range := .empty
  signature := .empty
  returnType := none
  name := none
  isMethod := false
  nspace := none

/-- If a read of a name is neither left to the whole project nor reported, then the name was bound
earlier on every path that leads to it, unless the walk takes the read for one behind the branch
before it. -/
theorem bound_before_read (own : f.isLocal n.key)
    (watchable : ∀ site ∈ f.body.sites, site.watchable n.key) (isolated : f.body.Isolated n False)
    (notDeferred : ¬ ∃ called, ⟨n.text, n.range, called⟩ ∈ (f.flow true).freeUses)
    (notReported : ¬ (⟨.iteratorOutsideLoop n.text, n.range⟩ ∈ (f.flow true).findings ∨
      ⟨.unassignedPath n.text, n.range⟩ ∈ (f.flow true).findings))
    {pre post : List Event} {o : Outcome} (run : f.body.Runs (pre ++ .read n :: post) o) :
    Bound n.key pre := by
  rw [mem_free_iff true own watchable] at notDeferred
  rw [mem_alarms_iff true own watchable] at notReported
  have start : Knows n.key False [none] [] := by
    rintro (impossible | nothing)
    · exact impossible.elim
    · cases nothing
  unfold Func.watch at notDeferred notReported
  generalize f.body = body at isolated run notDeferred notReported
  cases body with
  | mk statements range =>
    have guarded := Chunk.guarded (.stmts statements) (v := ⟨[none], [], [], []⟩) rfl start isolated
      ⟨notReported, notDeferred⟩ _ o run
    exact guarded pre post rfl

/-- Under a condition `x` is assigned on line 2, otherwise it is read on line 4. -/
def readInElse (start : List Stmt) : Func :=
  let flag := Expr.var ⟨"c", .empty⟩ false
  let assigning := Block.mk [.assign ⟨.on "x" 2, flag, .empty, none⟩] .empty
  let reading := Block.mk [.print [.var (.on "x" 4) false] .empty] .empty
  .sub ["c"] (start ++ [.ifThen ⟨flag, assigning, .block reading, .empty, false⟩])

theorem readInElse_runs :
    Stmt.RunsAll (readInElse []).body.statements [.read ⟨"c", .empty⟩, .read (.on "x" 4)] .done := by
  have printed : Stmt.RunsAll [.print [.var (.on "x" 4) false] .empty] [.read (.on "x" 4)] .done :=
    .inr (.inr ⟨[_], [], .inl ⟨rfl, rfl⟩, perform_all _ _, rfl⟩)
  exact .inr (.inr ⟨[_, _], [], .inr ⟨[_], [_], .inl ⟨rfl, rfl⟩, .inr printed, rfl⟩, perform_all _ _,
    rfl⟩)

/-- The same with an assignment of `x` before the branches. -/
def assignedBefore : Func :=
  readInElse [.assign ⟨.on "x" 0, .var ⟨"c", .empty⟩ false, .empty, none⟩]

theorem bound_before_read_assignedBefore :
    (∃ pre post o, assignedBefore.body.Runs (pre ++ .read (.on "x" 4) :: post) o) ∧
      ∀ pre post o, assignedBefore.body.Runs (pre ++ .read (.on "x" 4) :: post) o →
        Bound "x" pre := by
  refine ⟨⟨[.read ⟨"c", .empty⟩, .bind (.on "x" 0) .plain, .read ⟨"c", .empty⟩], [], .done, ?_⟩, ?_⟩
  · exact .inr (.inr ⟨[_, _], _, .inl ⟨rfl, rfl⟩, readInElse_runs, rfl⟩)
  · intro pre post o run
    have assigned : (Ident.on "x" 0).key = (Ident.on "x" 4).key := rfl
    have isolated : assignedBefore.body.Isolated (.on "x" 4) False :=
      ⟨trivial, ⟨⟨trivial, trivial⟩, ⟨trivial, trivial⟩, fun _ _ => .inr fun t first =>
        bound_of_perform assigned first⟩, trivial⟩
    have silent : (assignedBefore.flow true).findings = [] := by decide +kernel
    have nothingFree : (assignedBefore.flow true).freeUses = [] := by decide +kernel
    exact bound_before_read (n := .on "x" 4) ⟨by decide, rfl⟩ (by decide) isolated
      (by simp [nothingFree]) (by simp [silent]) run

/-- Without that assignment the read is still accepted, though nothing is bound on the way to it. -/
theorem not_bound_before_read_readInElse : let f := readInElse []
    (f.isLocal "x" ∧ ∀ site ∈ f.body.sites, site.watchable "x") ∧
      (f.flow true).freeUses = [] ∧ (f.flow true).findings = [] ∧
      ∃ pre post o, f.body.Runs (pre ++ .read (.on "x" 4) :: post) o ∧ ¬ Bound "x" pre := by
  refine ⟨⟨⟨by decide, rfl⟩, by decide⟩, by decide +kernel, by decide +kernel,
    [.read ⟨"c", .empty⟩], [], .done, readInElse_runs, ?_⟩
  rintro ⟨name, role, member, -⟩
  simp at member

end Func

end ChannelLint
