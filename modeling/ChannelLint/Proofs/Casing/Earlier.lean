import ChannelLint.Proofs.Casing.Fixes
import ChannelLint.Proofs.Spans.Functions

/-!
# The binding behind a mismatch

A walk follows the text, and what is bound stands in front of all that comes later. So a name in the
wrong case stands behind the binding whose spelling it should have. There is one exception. A branch
that knows whether a variable is valid binds it again, with its old place and spelling, and compares
it with what the branch before has bound.
-/
namespace ChannelLint

open List

/-- What binds a name stands in front of the other event. -/
def Event.Ahead : Event → Event → Prop
  | .read _, _ => True
  | .bind name _, e => name.range.stop ≤ e.name.range.start

theorem pairwise_readEvents (es : List Expr) {events : List Event}
    (behind : events.Pairwise Event.Ahead) : (readEvents es ++ events).Pairwise Event.Ahead := by
  refine pairwise_append.2 ⟨?_, behind, forall_mem_map.2 fun _ _ _ _ => trivial⟩
  exact pairwise_map.2 (pairwise_of_forall fun _ _ => trivial)

namespace Part

variable {t : String} {p : Part}

theorem mem_uses_of_sites (p : Part) {e : Event} (member : e ∈ eventsOf p.sites) :
    e.name ∈ p.uses := by
  cases p with
  | stmt | block | handler => exact mem_map_of_mem member
  | _ => cases member

/-- What a part binds stands in front of what comes later in it. -/
theorem All.pairwise_events (all : p.All (AsRead t)) : (eventsOf p.sites).Pairwise Event.Ahead := by
  induction all with
  | @intro p here each ih =>
    have ahead {q r : Part} (hq : q ∈ p.parts) (hr : r ∈ p.parts) (before : q.Before r) :
        ∀ a ∈ eventsOf q.sites, ∀ b ∈ eventsOf r.sites, Event.Ahead a b := by
      intro a first b second
      cases a with
      | read => trivial
      | bind =>
        exact (each q hq).uses_le (each r hr) before (q.mem_uses_of_sites first)
          (r.mem_uses_of_sites second)
    have joined {q r : Part} (hq : q ∈ p.parts) (hr : r ∈ p.parts) (before : q.Before r) :
        (eventsOf q.sites ++ eventsOf r.sites).Pairwise Event.Ahead :=
      pairwise_append.2 ⟨ih q hq, ih r hr, ahead hq hr before⟩
    have bound {i : Ident} {role : Role} {r : Part} (hi : .ident i ∈ p.parts)
        (hr : r ∈ p.parts) (before : (Part.ident i).Before r) :
        (.bind i role :: eventsOf r.sites).Pairwise Event.Ahead :=
      pairwise_cons.2 ⟨fun e member => (each _ hi).uses_le (each r hr) before
        mem_cons_self (r.mem_uses_of_sites member), ih r hr⟩
    cases p with
    | block b =>
      obtain ⟨statements, range⟩ := b
      change (eventsOf (Stmt.sitesAll statements)).Pairwise _
      rw [Stmt.sitesAll_eq, eventsOf, flatMap_assoc]
      refine pairwise_flatMap.2 ⟨fun s isStmt => ih _ (mem_map_of_mem isStmt), ?_⟩
      exact (pairwise_map.1 here.row).imp_of_mem fun first second before =>
        ahead (mem_map_of_mem first) (mem_map_of_mem second) before
    | handler h =>
      obtain ⟨_ | name, body, range⟩ := h
      · exact ih (.block body) mem_cons_self
      · exact bound (r := .block body) mem_cons_self (mem_cons_of_mem _ mem_cons_self)
          ((pairwise_cons.1 here.row).1 _ mem_cons_self)
    | stmt s =>
      cases s with
      | assign | dim =>
        change ((readEvents _ ++ [_]) ++ []).Pairwise _
        rw [append_nil]
        exact pairwise_readEvents _ (pairwise_singleton _ _)
      | ifThen branch =>
        obtain ⟨condition, onTrue, onFalse, range, inline⟩ := branch
        suffices (eventsOf (onTrue.sites ++ onFalse.sites)).Pairwise Event.Ahead from
          pairwise_readEvents [condition] this
        obtain ⟨before, -⟩ := pairwise_cons.1 (pairwise_cons.1 here.row).2
        have inside {q : Part} (member : q ∈ .block onTrue :: onFalse.parts) :
            q ∈ (Part.stmt (.ifThen ⟨condition, onTrue, onFalse, range, inline⟩)).parts :=
          mem_cons_of_mem _ member
        rw [eventsOf_append]
        cases onFalse with
        | absent => exact (append_nil _).symm ▸ ih _ (inside mem_cons_self)
        | block body =>
          exact joined (r := .block body) (inside mem_cons_self)
            (inside (mem_cons_of_mem _ mem_cons_self)) (before _ mem_cons_self)
        | elseIf other =>
          exact joined (r := .stmt (.ifThen other)) (inside mem_cons_self)
            (inside (mem_cons_of_mem _ mem_cons_self)) (before _ mem_cons_self)
      | forTo counter limit stride body range =>
        change ((readEvents _ ++ .bind counter.name .iterator :: readEvents _) ++ _).Pairwise _
        rw [append_assoc, cons_append]
        refine pairwise_readEvents _ (pairwise_cons.2 ⟨fun e member => ?_, pairwise_readEvents _
          (ih (.block body) (mem_append_right _ mem_cons_self))⟩)
        have binds : counter.name ∈ (Part.stmt (.assign counter)).uses :=
          (Part.stmt (.assign counter)).mem_uses_of_sites (e := .bind counter.name .plain)
            (mem_append_left _ (mem_append_right _ mem_cons_self))
        have behind : ∃ r ∈ (limit :: stride.toList).map Part.expr ++ [.block body],
            e.name ∈ r.uses := by
          obtain isRead | inBody := mem_append.1 member
          · obtain ⟨name, inReads, rfl⟩ := mem_map.1 isRead
            obtain ⟨x, isExpr, inExpr⟩ := mem_flatMap.1 inReads
            exact ⟨.expr x, mem_append_left _ (mem_map_of_mem isExpr), inExpr⟩
          · exact ⟨.block body, mem_append_right _ mem_cons_self, mem_uses_of_sites _ inBody⟩
        obtain ⟨r, later, isUsed⟩ := behind
        exact (each _ mem_cons_self).uses_le (each r (mem_cons_of_mem _ later))
          ((pairwise_cons.1 here.row).1 r later) binds isUsed
      | forEach item target body range =>
        change ((readEvents [target] ++ [_]) ++ eventsOf body.sites).Pairwise _
        rw [append_assoc]
        have inside : .block body ∈ [Part.expr target, .block body] :=
          mem_cons_of_mem _ mem_cons_self
        exact pairwise_readEvents _ (bound (r := .block body) mem_cons_self
          (mem_cons_of_mem _ inside) ((pairwise_cons.1 here.row).1 _ inside))
      | whileDo condition body range =>
        exact pairwise_readEvents [condition]
          (ih (.block body) (mem_cons_of_mem _ mem_cons_self))
      | tryCatch body handler range =>
        exact eventsOf_append body.sites handler.sites ▸ joined (q := .block body)
          (r := .handler handler) mem_cons_self (mem_cons_of_mem _ mem_cons_self)
          ((pairwise_cons.1 here.row).1 _ mem_cons_self)
      | _ => exact pairwise_readEvents _ .nil
    | _ => exact .nil

end Part

/-! ## Bindings -/

def Event.bound? : Event → Option Ident
  | .read _ => none
  | .bind name _ => some name

/-- The names that a function binds where they stand: its parameters, and what the statements of its
body bind. -/
def Func.bindings (f : Func) : List Ident :=
  f.paramNames ++ (eventsOf f.body.sites).filterMap Event.bound?

theorem Func.mem_bindings {f : Func} {i : Ident}
    (bound : ∃ role, .bind i role ∈ eventsOf f.body.sites) : i ∈ f.bindings := by
  obtain ⟨role, member⟩ := bound
  exact mem_append_right _ (mem_filterMap.2 ⟨_, member, rfl⟩)

theorem Func.bindings_subset (f : Func) : f.bindings ⊆ f.names := by
  refine append_subset.2 ⟨subset_append_left _ _, fun i member => ?_⟩
  obtain ⟨e, isEvent, binds⟩ := mem_filterMap.1 member
  cases e with
  | read => cases binds
  | bind =>
    cases binds
    exact mem_append_right _ (mem_map_of_mem isEvent)

/-- The text of a function has its parameters first, and then binds names in front of what comes
later. -/
structure Func.InOrder (f : Func) : Prop where
  params : ∀ i ∈ f.paramNames, ∀ j ∈ f.uses, i.range.stop ≤ j.range.start
  events : (eventsOf f.body.sites).Pairwise Event.Ahead

namespace Script

variable {source path pkgPath : String} {s : Script}

theorem inOrder_of_read (read : Script.read source path pkgPath = .ok s) :
    ∀ f ∈ s.functions, f.InOrder := by
  obtain ⟨ds, parsed, rfl⟩ := Script.exists_parsed read
  intro f member
  obtain ⟨g, isFunction, same⟩ := Decl.exists_unplaced member
  obtain ⟨params, body, -⟩ := Func.parts_of_unplaced same
  obtain ⟨d, isDecl, inPart⟩ := Decl.exists_of_allFunctions isFunction
  have all := (asRead_of_parsed parsed d isDecl).of_mem_functions inPart
  refine ⟨fun i isParam j isUsed => ?_, ?_⟩
  · rw [Func.paramNames, ← params] at isParam
    rw [Func.uses, ← body] at isUsed
    exact all.param_le isParam isUsed
  · rw [← body]
    exact (all.parts (.block g.body) (mem_append_right _ mem_cons_self)).pairwise_events

end Script

/-- A name that is written differently from its known spelling stands behind what binds that, except
when a branch binds a tested variable again. -/
theorem Func.InOrder.binding_of_compared {f : Func} (inOrder : f.InOrder) {name known : Ident}
    {again : Bool} (differ : known.text ≠ name.text)
    (fits : (TraceEntry.compare name known again).Fits (eventsOf f.body.sites) f.vocabulary) :
    known = ⟨"m", .empty⟩ ∨ known = ⟨"super", .empty⟩ ∨
      known ∈ f.bindings ∧ (known.range.stop ≤ name.range.start ∨
        name.range.stop ≤ known.range.start ∧ name ∈ f.bindings ∧ name.key ∈ f.tested) := by
  have given (isGiven : f.given.find? name.key = some known) :
      known = ⟨"m", .empty⟩ ∨ known = ⟨"super", .empty⟩ ∨
        known ∈ f.bindings ∧ known.range.stop ≤ name.range.start := by
    obtain isParam | isImplicit := Func.mem_given isGiven
    · exact .inr (.inr ⟨mem_append_left _ isParam, inOrder.params _ isParam _ fits.known.used⟩)
    · exact isImplicit.imp_right .inl
  cases again with
  | false =>
    obtain ⟨before, behind, split, used, isGiven | loose⟩ := fits
    · exact (given isGiven).imp_right (.imp_right (.imp_right .inl))
    · obtain ⟨role, bound⟩ := loose.bound
      obtain ⟨e, later, rfl⟩ := mem_map.1 used
      refine .inr (.inr ⟨f.mem_bindings ⟨role, split ▸ mem_append_left _ bound⟩, .inl ?_⟩)
      exact (pairwise_append.1 (split ▸ inOrder.events)).2.2 _ bound e later
  | true =>
    obtain ⟨tested, ⟨role, bound⟩, isGiven | loose⟩ := fits
    · exact (given isGiven).imp_right (.imp_right (.imp_right .inl))
    · obtain ⟨role', bound'⟩ := loose.bound
      refine .inr (.inr ⟨f.mem_bindings loose.bound, ?_⟩)
      have ne : Event.bind known role' ≠ .bind name role := by
        rintro ⟨⟩
        exact differ rfl
      have either : (eventsOf f.body.sites).Pairwise fun a b => a.Ahead b ∨ b.Ahead a :=
        inOrder.events.imp .inl
      have : Std.Symm fun a b : Event => a.Ahead b ∨ b.Ahead a := ⟨fun _ _ => Or.symm⟩
      exact (either.forall bound' bound ne).imp_right
        fun later => ⟨later, f.mem_bindings ⟨role, bound⟩, tested⟩

namespace Script

variable {settings : Settings} {source path pkgPath : String} {s : Script} {d : Diagnostic}

/-- What is reported about case is a name of a function that is written differently, up to case,
from another that is known there: the implicit `m` or `super`, or a name that the function binds in
front of it. It can bind that name behind it only if it binds both and compares the variable with
`invalid` in an `if`. The fix is the known spelling. -/
theorem binding_of_mismatch (read : Script.read source path pkgPath = .ok s)
    (diagnosed : d ∈ lintScript settings s) (mismatch : d.issue.code = .caseMismatch) :
    ∃ f ∈ s.functions, ∃ name ∈ f.uses, ∃ known : Ident,
      d.range = name.range ∧ d.fixes = [⟨d.range, known.text⟩] ∧
      textAt (unmarkedText source) d.range = name.text ∧
      known.text ≠ name.text ∧ Text.lower known.text = Text.lower name.text ∧
      (known = ⟨"m", .empty⟩ ∨ known = ⟨"super", .empty⟩ ∨
        known ∈ f.bindings ∧ textAt (unmarkedText source) known.range = known.text ∧
          (known.range.stop ≤ d.range.start ∨
            d.range.stop ≤ known.range.start ∧ name ∈ f.bindings ∧ name.key ∈ f.tested)) := by
  obtain ⟨-, -, f, isFunction, found⟩ := exists_finding_of_mismatch diagnosed mismatch
  obtain ⟨name, known, again, fits, differ, same⟩ := Func.compared_of_mismatch found mismatch
  obtain ⟨names, named⟩ := Script.exists_named_unmarked read
  have texts {i : Ident} (isName : i ∈ f.names) : textAt (unmarkedText source) i.range = i.text :=
    (named.stand i (named.inner f isFunction i isName)).text
  obtain ⟨issue, range⟩ := Finding.mk.inj same
  have isKnown := fits.known
  refine ⟨f, isFunction, name, isKnown.used, known, range, ?_, ?_, differ, isKnown.key_eq, ?_⟩
  · rw [Diagnostic.fixes, issue]
  · rw [range]
    exact texts (mem_append_right _ isKnown.used)
  · rw [range]
    obtain isM | isSuper | ⟨bound, order⟩ :=
      ((inOrder_of_read read f isFunction).binding_of_compared differ fits)
    · exact .inl isM
    · exact .inr (.inl isSuper)
    · exact .inr (.inr ⟨bound, texts (f.bindings_subset bound), order⟩)

theorem mem_lintScript_default {reports : List Diagnostic}
    (same : Settings.report {} s.pkgPath (s.lintFindings {}) = reports) :
    d ∈ lintScript {} s ↔ d ∈ reports := by
  rw [lintScript_eq, ← same]
  exact mem_mergeSort

/-- A name in another case than the variable of the handler around it. -/
def caughtBefore : String :=
  "sub s(Each)\n  try\n    print each\n  catch Err\n    throw err\n  end try\nend sub"

theorem binding_of_mismatch_caughtBefore :
    ∃ s d, Script.read caughtBefore "a.brs" "" = .ok s ∧ d ∈ lintScript {} s ∧
      d.issue = .caseMismatch "err" "Err" ∧
      ∃ f ∈ s.functions, ∃ known ∈ f.bindings, known.text = "Err" ∧
        known.range.stop ≤ d.range.start := by
  have computed : (Script.read caughtBefore "a.brs" "").toOption.map (fun s =>
      (Settings.report {} s.pkgPath (s.lintFindings {}),
        decide (∀ f ∈ s.functions, f.tested = []))) =
      some ([⟨.warn, .caseMismatch "each" "Each", ⟨⟨2, 10⟩, ⟨2, 14⟩⟩, "a.brs"⟩,
        ⟨.warn, .caseMismatch "err" "Err", ⟨⟨4, 10⟩, ⟨4, 13⟩⟩, "a.brs"⟩], true) := by
    decide +kernel
  obtain ⟨s, read, facts⟩ := exists_ok_of_map_toOption computed
  obtain ⟨reports, untested⟩ := Prod.mk.inj facts
  have diagnosed := (mem_lintScript_default reports).2 (mem_cons_of_mem _ mem_cons_self)
  obtain ⟨f, isFunction, name, -, known, -, fixes, -, -, -, source⟩ :=
    binding_of_mismatch read diagnosed rfl
  obtain ⟨-, spelled⟩ := TextEdit.mk.inj (singleton_inj.1 fixes)
  refine ⟨s, _, read, diagnosed, rfl, f, isFunction, known, ?_⟩
  obtain rfl | rfl | ⟨bound, -, front | ⟨-, -, tested⟩⟩ := source
  · simp at spelled
  · simp at spelled
  · exact ⟨bound, spelled.symm, front⟩
  · rw [of_decide_eq_true untested f isFunction] at tested
    cases tested

/-- A variable that one branch binds in another case, when the next branch knows that it is valid. -/
def boundBehind : String :=
  "sub f(c)\n  if c then\n    x = 1\n  end if\n  if x = invalid then\n    X = 2\n  else\n" ++
    "    print 1\n  end if\nend sub\n"

/-- The first binding should have the spelling of the second one, which stands behind it. -/
theorem no_binding_boundBehind :
    ∃ s d, Script.read boundBehind "a.brs" "" = .ok s ∧ d ∈ lintScript {} s ∧
      d.issue = .caseMismatch "x" "X" ∧
      ∀ f ∈ s.functions, ∀ known ∈ f.bindings, known.text = "X" →
        ¬ known.range.stop ≤ d.range.start := by
  have computed : (Script.read boundBehind "a.brs" "").toOption.map (fun s =>
      ((Settings.report {} s.pkgPath (s.lintFindings {}))[1]?,
        decide (∀ f ∈ s.functions, ∀ known ∈ f.bindings, known.text = "X" →
          ¬ known.range.stop ≤ ⟨2, 4⟩))) =
      some (some ⟨.warn, .caseMismatch "x" "X", ⟨⟨2, 4⟩, ⟨2, 5⟩⟩, "a.brs"⟩, true) := by
    decide +kernel
  obtain ⟨s, read, facts⟩ := exists_ok_of_map_toOption computed
  obtain ⟨reports, behind⟩ := Prod.mk.inj facts
  exact ⟨s, _, read, (mem_lintScript_default rfl).2 (mem_of_getElem? reports), rfl,
    of_decide_eq_true behind⟩

end Script

end ChannelLint
