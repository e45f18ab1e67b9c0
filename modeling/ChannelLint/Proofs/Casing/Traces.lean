import ChannelLint.Proofs.Casing.Uses
import ChannelLint.Proofs.Casing.Walks
import ChannelLint.Proofs.Invariant

/-!
# The trace of a walk

The one place where the case of a name counts in a walk is the comparison with the spelling that is
known. The findings of a walk are therefore traced as entries: findings of other kinds, and the
comparisons that were made, whether they reported something or not. The walk over a respelled
function is the respelled walk, and both have the same trace up to the respelling
(`Func.flow_respell`).

Every comparison is one of a name that the body uses with a parameter, or with a name that the body
binds and that is no parameter (`Known`). A walk follows the events of the body in order, so the name
that is known was bound before (`Timely`), unless a branch binds a tested variable again.
-/
namespace ChannelLint

open List

variable {key : String} {name : Ident} {b : Binding} {visited : Nat}

/-- The comparison of a name with its known spelling reports a name that is written differently. -/
def Ident.mismatch (name known : Ident) : List Finding :=
  if known.text = name.text then [] else [⟨.caseMismatch name.text known.text, name.range⟩]

/-- What arriving at a site reads and binds; `role` is that of a name which the site binds. -/
def Site.arrival (role : Role) (site : Site) : List Event :=
  readEvents site.front ++ (site.binds?.toList.map (.bind · role) ++ site.opens)

/-- The events bind a name under its key, and there is no parameter with that key. -/
structure Loose (events : List Event) (given : OrderedMap Ident) (key : String) (i : Ident) :
    Prop where
  bound : ∃ role, .bind i role ∈ events
  key_eq : i.key = key
  free : given.find? key = none

/-- A name is used in the events, and its known spelling is that of the parameter with its key or
else of a name that the events bind. -/
structure Known (events : List Event) (given : OrderedMap Ident) (name known : Ident) : Prop where
  used : name ∈ events.map Event.name
  source : given.find? name.key = some known ∨ Loose events given name.key known

/-- The spelling was known before the name is used. -/
def Timely (events : List Event) (given : OrderedMap Ident) (name known : Ident) : Prop :=
  ∃ before behind, events = before ++ behind ∧ name ∈ behind.map Event.name ∧
    (given.find? name.key = some known ∨ Loose before given name.key known)

/-- The variable about whose assignments or reads an issue complains. -/
def Issue.blamed? : Issue → Option String
  | .iteratorOutsideLoop name | .unassignedPath name | .unusedVariable name => some name
  | _ => none

/-- What a walk notes: a finding that is no matter of case, or a comparison. A variable is compared
`again` when a branch opens that knows its validity. -/
inductive TraceEntry where
  | note (finding : Finding)
  | compare (name known : Ident) (again : Bool)

namespace TraceEntry

def findings : TraceEntry → List Finding
  | note f => [f]
  | compare name known _ => name.mismatch known

def respell (ρ : Respelling) : TraceEntry → TraceEntry
  | note f => note (f.respell ρ)
  | compare name known again => compare (ρ.name name) (ρ.name known) again

/-- The name that is compared where it stands. -/
def fresh? : TraceEntry → Option Ident
  | compare name _ false => some name
  | _ => none

def Fits (events : List Event) (V : Vocabulary) : TraceEntry → Prop
  | note f => f.issue.code ≠ .caseMismatch ∧
    ∀ name, f.issue.blamed? = some name → V.given.find? (Text.lower name) = none
  | compare name known false => Timely events V.given name known
  | compare name known true => V.Tested name.key ∧ (∃ role, .bind name role ∈ events) ∧
    (V.given.find? name.key = some known ∨ Loose events V.given name.key known)

end TraceEntry

/-- The vocabulary when the events have happened. -/
def Vocabulary.along (V : Vocabulary) (events : List Event) : Vocabulary :=
  { V with Bound := fun i => ∃ role, .bind i role ∈ events }

section

variable (events : List Event) (V : Vocabulary)

/-- The second walk is the first one respelled, and their findings have one trace. -/
structure Walk.Traced (ρ : Respelling) (w w' : Walk) : Prop where
  uses : ∀ use ∈ w.freeUses, use.ident ∈ events.map Event.name ∧ V.given.find? use.ident.key = none
  trace : ∃ entries : List TraceEntry, (∀ e ∈ entries, e.Fits events V) ∧
    (entries.filterMap TraceEntry.fresh?).Sublist (events.map Event.name) ∧
    w.findings = entries.flatMap TraceEntry.findings ∧
    w' = w.respell ρ (entries.flatMap fun e => (e.respell ρ).findings)

/-- The same for walks that look at a frame which is not open. -/
structure Walk.TracedAt (ρ : Respelling) (state state' : Frame × Walk) : Prop where
  walk : state.2.Traced events V ρ state'.2
  frame : state'.1 = state.1.respell ρ

/-- What the steps of the two walks keep. -/
structure Walk.Mirrors (ρ : Respelling) (w w' : Walk) : Prop where
  tidy : w.IsTidy (V.along events)
  traced : w.Traced events V ρ w'

end

/-! ### What is known -/

section

variable {events more : List Event} {given : OrderedMap Ident} {i : Ident}

theorem Loose.used (loose : Loose events given key i) : i ∈ events.map Event.name :=
  loose.bound.elim fun role member => mem_map.2 ⟨.bind i role, member, rfl⟩

theorem Loose.mono (loose : Loose events given key i)
    (sub : events ⊆ more) : Loose more given key i :=
  { loose with bound := loose.bound.imp fun _ member => sub member }

theorem Timely.known (h : Timely events given name i) : Known events given name i := by
  obtain ⟨before, behind, rfl, used, source⟩ := h
  exact ⟨map_append ▸ mem_append_right _ used, source.imp_right (·.mono (subset_append_left _ _))⟩

theorem Timely.append (h : Timely events given name i) (more : List Event) :
    Timely (events ++ more) given name i := by
  obtain ⟨before, behind, rfl, used, source⟩ := h
  exact ⟨before, behind ++ more, append_assoc .., by simp [used], source⟩

end

section

variable {events more : List Event} {V : Vocabulary} {ρ : Respelling}

namespace TraceEntry

theorem Fits.known {known : Ident} {again : Bool}
    (fits : (compare name known again).Fits events V) : Known events V.given name known := by
  cases again with
  | false => exact Timely.known fits
  | true =>
    obtain ⟨-, ⟨role, bound⟩, source⟩ := fits
    exact ⟨mem_map.2 ⟨_, bound, rfl⟩, source⟩

theorem Fits.append {e : TraceEntry} (fits : e.Fits events V) (more : List Event) :
    e.Fits (events ++ more) V := by
  cases e with
  | note => exact fits
  | compare name known again =>
    cases again with
    | false => exact Timely.append fits more
    | true =>
      obtain ⟨tested, bound, source⟩ := fits
      exact ⟨tested, bound.imp fun _ => mem_append_left _,
        source.imp_right (·.mono (subset_append_left _ _))⟩

end TraceEntry

theorem Stored.loose {own : Option Ident} (stored : Stored (V.along events) own (key, b)) :
    Loose events V.given key b.ident :=
  ⟨stored.bound, stored.named, stored.free⟩

namespace Walk

variable {w w' : Walk}

theorem IsTidy.append (tidy : w.IsTidy (V.along events)) (more : List Event) :
    w.IsTidy (V.along (events ++ more)) :=
  tidy.loosen fun _ bound => bound.imp fun _ => mem_append_left _

theorem given_of_param (tidy : w.IsTidy (V.along events))
    (found : w.params.find? key = some b) : V.given.find? key = some b.ident :=
  (tidy.given_find? key).trans (by rw [found, Option.map_some])

theorem loose_of_visible {block : Frame} (prepared : Prepared (V.along events) visited (block, w))
    (found : w.visible? key block = some b) : Loose events V.given key b.ident := by
  obtain ⟨frame, isOpen, inFrame⟩ := exists_of_findSome?_eq_some found
  rcases mem_cons.1 isOpen with rfl | isOpen
  · exact (prepared.1.filed.found inFrame).loose
  · exact ((prepared.2.frames frame isOpen).filed.found inFrame).loose

/-! ### Findings -/

namespace Traced

variable (traced : w.Traced events V ρ w')

include traced

theorem respelled : ∃ fs, w' = w.respell ρ fs :=
  traced.trace.elim fun _ trace => ⟨_, trace.2.2.2⟩

theorem stack : w'.stack = w.stack.map (·.respell ρ) :=
  traced.respelled.elim fun _ same => same ▸ rfl

/-- More has happened. -/
theorem append (more : List Event) : w.Traced (events ++ more) V ρ w' := by
  obtain ⟨entries, fit, fresh, trace⟩ := traced.trace
  have first : (events.map Event.name).Sublist ((events ++ more).map Event.name) :=
    (sublist_append_left _ _).map _
  exact ⟨fun use member => (traced.uses use member).imp_left fun used => first.subset used, entries,
    fun e listed => (fit e listed).append more, fresh.trans first, trace⟩

/-- A step that reports nothing. -/
theorem quiet {v v' : Walk} (findings : v.findings = w.findings) (uses : v.freeUses = w.freeUses)
    (turns : ∀ fs, w' = w.respell ρ fs → v' = v.respell ρ fs) : v.Traced events V ρ v' := by
  obtain ⟨entries, fit, fresh, reported, same⟩ := traced.trace
  exact ⟨uses ▸ traced.uses, entries, fit, fresh, findings.trans reported, turns _ same⟩

/-- Findings that are no matter of case. -/
theorem notes (new : List Finding) (other : ∀ f ∈ new, (TraceEntry.note f).Fits events V) :
    Traced events V ρ { w with findings := w.findings ++ new }
      { w' with findings := w'.findings ++ new.map (·.respell ρ) } := by
  obtain ⟨entries, fit, fresh, reported, rfl⟩ := traced.trace
  refine ⟨traced.uses, entries ++ new.map TraceEntry.note, ?_, ?_, ?_, ?_⟩
  · refine forall_mem_append.2 ⟨fit, ?_⟩
    exact forall_mem_map.2 other
  · have silent : (new.map TraceEntry.note).filterMap TraceEntry.fresh? = [] := by
      simp [TraceEntry.fresh?]
    rwa [filterMap_append, silent, append_nil]
  · have added : (new.map TraceEntry.note).flatMap TraceEntry.findings = new := by
      simp [flatMap_map, TraceEntry.findings]
    rw [flatMap_append, added, reported]
  · have added : ((new.map TraceEntry.note).flatMap fun e => (e.respell ρ).findings) =
        new.map (·.respell ρ) := by
      rw [flatMap_map]
      exact map_eq_flatMap.symm
    rw [flatMap_append, added]
    rfl

theorem report {issue issue' : Issue} {range : Range}
    (other : (TraceEntry.note ⟨issue, range⟩).Fits events V)
    (same : (⟨issue, range⟩ : Finding).respell ρ = ⟨issue', range⟩) :
    (w.report issue range).Traced events V ρ (w'.report issue' range) := by
  have noted := traced.notes [⟨issue, range⟩] (by simpa using other)
  rwa [map_singleton, same] at noted

/-- A comparison at an event, or again without one. -/
theorem checkCase (again : Bool)
    (fits : (TraceEntry.compare name b.ident again).Fits (events ++ more) V)
    (fresh : (TraceEntry.compare name b.ident again).fresh?.toList.Sublist (more.map Event.name)) :
    (w.checkCase (some b) name).Traced (events ++ more) V ρ
      (w'.checkCase (some (b.respell ρ)) (ρ.name name)) := by
  have checked (w : Walk) (b : Binding) (name : Ident) : w.checkCase (some b) name =
      { w with findings := w.findings ++ name.mismatch b.ident } := by
    by_cases same : b.name = name.text
    · simp [Walk.checkCase, Ident.mismatch, Binding.ident, same]
    · simp [Walk.checkCase, Ident.mismatch, Binding.ident, same, Walk.report]
  obtain ⟨entries, fit, freshBefore, reported, rfl⟩ := traced.trace
  rw [checked, checked, Binding.ident_respell]
  refine ⟨(traced.append more).uses, entries ++ [.compare name b.ident again], ?_, ?_, ?_, ?_⟩
  · exact forall_mem_append.2 ⟨fun e listed => (fit e listed).append more,
      forall_mem_singleton.2 fits⟩
  · rw [filterMap_append, map_append]
    refine freshBefore.append ?_
    cases again <;> exact fresh
  · rw [flatMap_append, reported, flatMap_singleton]
    rfl
  · rw [flatMap_append, flatMap_singleton]
    rfl

/-! ### Visits and returns -/

theorem visit (site : Site) (paths : Int) :
    TracedAt events V ρ (w.visit site paths) (w'.visit (site.respell ρ) paths) := by
  obtain ⟨fs, rfl⟩ := traced.respelled
  refine ⟨traced.quiet rfl rfl ?_, ?_⟩
  · rintro fs same
    rw [same, visit_respell]
  · rw [visit_respell]

theorem markReturning : w.markReturning.Traced events V ρ w'.markReturning := by
  refine traced.quiet (modifyTop_report w _).1 (modifyTop_report w _).2 ?_
  rintro fs rfl
  exact markReturning_respell ρ w fs

theorem noteReturn (site : Site) :
    (w.noteReturn site).Traced events V ρ (w'.noteReturn (site.respell ρ)) := by
  have returning : (w'.stack.head?.map (·.returns)) = w.stack.head?.map (·.returns) := by
    rw [traced.stack, head?_map, Option.map_map]
    rfl
  unfold Walk.noteReturn
  rw [returning, Site.range_respell]
  split
  · exact traced.report ⟨by simp [Issue.code], nofun⟩ rfl
  · rcases site with b | s | c
    · exact traced
    · cases s with
      | ret value range =>
        refine markReturning (traced.quiet rfl rfl ?_)
        rintro fs rfl
        cases value <;> rfl
      | throw value range =>
        refine markReturning (traced.quiet rfl rfl ?_)
        rintro fs rfl
        rfl
      | _ => exact traced
    · exact traced

/-! ### Labels and jumps -/

theorem noteLabel (name : Ident) :
    (w.noteLabel name).Traced events V ρ (w'.noteLabel (ρ.label name)) := by
  refine traced.quiet rfl rfl ?_
  rintro fs rfl
  exact noteLabel_respell ρ w fs name

theorem jump (label : Ident) : (w.jump label).Traced events V ρ (w'.jump (ρ.label label)) := by
  refine traced.quiet ?_ ?_ ?_
  · unfold Walk.jump
    split <;> rfl
  · unfold Walk.jump
    split <;> rfl
  · rintro fs rfl
    exact jump_respell ρ w fs label

theorem visitSite (loopsBranch : Bool) (site : Site) :
    TracedAt events V ρ (w.visitSite loopsBranch site) (w'.visitSite loopsBranch (site.respell ρ)) := by
  have visited := traced.visit site (site.paths loopsBranch)
  have noted := visited.walk.noteReturn site
  unfold Walk.visitSite
  rw [Site.paths_respell]
  refine ⟨?_, visited.frame⟩
  rcases site with b | s | c
  · exact noted
  · cases s with
    | label name range => exact noted.noteLabel name
    | goto label range => exact noted.jump label
    | _ => exact noted
  · exact noted

/-! ### Reads -/

theorem markReadAll (key : String) :
    (w.markReadAll key).Traced events V ρ (w'.markReadAll key) := by
  refine traced.quiet (markReadAll_report w key).1 (freeUses_markReadAll w key) ?_
  rintro fs rfl
  exact markReadAll_respell ρ w fs key

end Traced

namespace TracedAt

variable {state state' : Frame × Walk} (traced : TracedAt events V ρ state state')

include traced

theorem readName
    (tidy : state.2.IsTidy (V.along events)) (name : Ident) (called : Bool) (parent : Option Expr) :
    TracedAt (events ++ [.read name]) V ρ (state.2.readName state.1 name called parent)
      (state'.2.readName state'.1 (ρ.name name) called (parent.map (·.respell ρ))) := by
  obtain ⟨frame, w⟩ := state
  obtain ⟨frame', w'⟩ := state'
  obtain ⟨walk, rfl⟩ := traced
  dsimp only at walk tidy ⊢
  have used : name ∈ (events ++ [Event.read name]).map Event.name := by simp [Event.name]
  unfold Walk.readName
  dsimp only
  rw [ρ.lower_name]
  split
  · exact ⟨walk.append _, rfl⟩
  · have resolved : w'.resolve (Text.lower name.text) =
        ((w.resolve (Text.lower name.text)).1.map (·.respell ρ),
          (w.resolve (Text.lower name.text)).2.map (·.respell ρ)) := by
      obtain ⟨fs, rfl⟩ := walk.respelled
      exact resolve_respell ρ w _ _
    rw [resolved]
    cases found : w.resolve (Text.lower name.text) with
    | mk specific safe =>
      -- a parameter is found, and its binding is safe
      have free (lost : specific = none ∨ safe = none) : V.given.find? name.key = none := by
        cases param : w.params.find? name.key with
        | none => exact (tidy.given_find? name.key).trans (congrArg _ param)
        | some p =>
          have both : w.resolve name.key = (some p, some p) := by simp [resolve, param]
          cases found.symm.trans both
          simp at lost
      cases specific with
      | none =>
        obtain ⟨uses, entries, fit, fresh, reported, rfl⟩ := walk.append [.read name]
        refine ⟨⟨forall_mem_append.2 ⟨uses, forall_mem_singleton.2
          ⟨used, free (.inl rfl)⟩⟩, entries, fit, fresh, reported, ?_⟩, rfl⟩
        dsimp only [Option.map_none]
        rw [ρ.range_name]
        simp only [respell, map_append, map_cons, map_nil]
        rfl
      | some b =>
        have known : V.given.find? name.key = some b.ident ∨
            Loose events V.given name.key b.ident := by
          cases param : w.params.find? name.key with
          | none =>
            obtain ⟨own, stored⟩ := tidy.stored_of_resolve param (congrArg Prod.fst found)
            exact .inr stored.loose
          | some p =>
            have both : w.resolve name.key = (some p, some p) := by simp [resolve, param]
            cases found.symm.trans both
            exact .inl (given_of_param tidy param)
        have compared := (walk.markReadAll (Text.lower name.text)).checkCase false
          ⟨events, [.read name], rfl, mem_cons_self, known⟩ (List.Sublist.refl _)
        have sameRole : (b.respell ρ).role = b.role := rfl
        simp only [Option.map_some, Option.isSome_map, sameRole, narrow_respell]
        split
        · exact ⟨compared, rfl⟩
        · next lost =>
          have spared {issue : Issue} (blamed : issue.blamed? = some name.text) :
              ∀ text, issue.blamed? = some text → V.given.find? (Text.lower text) = none := by
            rintro _ same
            cases blamed.symm.trans same
            exact free (.inr (by simpa using lost))
          split
          · refine ⟨?_, rfl⟩
            rw [ρ.range_name]
            exact compared.report ⟨by simp [Issue.code], spared rfl⟩ rfl
          · cases narrow b parent frame with
            | mk tested frame =>
              cases tested with
              | true => exact ⟨compared, rfl⟩
              | false =>
                refine ⟨?_, rfl⟩
                dsimp only
                rw [ρ.range_name]
                exact compared.report ⟨by simp [Issue.code], spared rfl⟩ rfl

theorem readNodes (tidy : state.2.IsTidy (V.along events)) (nodes : List (Expr × Option Expr)) :
    TracedAt (events ++ (nodes.filterMap nodeReads).map .read) V ρ (nodes.foldl readNode state)
      ((nodes.map (Expr.respellNode ρ)).foldl readNode state') := by
  induction nodes generalizing events state state' with
  | nil => simpa using traced
  | cons node rest ih =>
    have tidyThen := tidy.read (readNode_effect state node)
    obtain ⟨e, parent⟩ := node
    rw [map_cons, foldl_cons, foldl_cons]
    cases e with
    | var name called =>
      have later := ih (traced.readName tidy name called parent) (tidyThen.append [.read name])
      rwa [append_assoc] at later
    | _ => exact ih traced tidy

theorem readExprs (tidy : state.2.IsTidy (V.along events)) (es : List Expr) :
    TracedAt (events ++ readEvents es) V ρ (es.foldl Walk.readExpr state)
      ((es.map (·.respell ρ)).foldl Walk.readExpr state') := by
  have nodes : ((es.map (·.respell ρ)).flatMap (·.preorder none)) =
      (es.flatMap (·.preorder none)).map (Expr.respellNode ρ) := by
    rw [flatMap_map, map_flatMap]
    exact congrArg es.flatMap (funext fun e => Expr.preorder_respell ρ e none)
  have read := traced.readNodes tidy (es.flatMap (·.preorder none))
  rw [← nodes, foldl_flatMap, foldl_flatMap, filterMap_flatMap] at read
  exact read

/-! ### Bindings -/

theorem bind (prepared : Prepared (V.along events) visited state) (again : Bool)
    (fits : ∀ known, V.given.find? name.key = some known ∨ Loose events V.given name.key known →
      (TraceEntry.compare name known again).Fits (events ++ more) V) (fresh : ∀ known,
      (TraceEntry.compare name known again).fresh?.toList.Sublist (more.map Event.name))
    (role : Role) (narrowed : Option Narrowing) :
    TracedAt (events ++ more) V ρ (state.2.bind state.1 name role narrowed)
      (state'.2.bind state'.1 (ρ.name name) role (narrowed.map (·.respell ρ))) := by
  obtain ⟨frame, w⟩ := state
  obtain ⟨frame', w'⟩ := state'
  obtain ⟨walk, rfl⟩ := traced
  dsimp only at walk ⊢
  have counted : Traced events V ρ { w with order := w.order + 1 }
      { w' with order := w'.order + 1 } := by
    refine walk.quiet rfl rfl ?_
    rintro fs rfl
    rfl
  have params : w'.params.find? (Text.lower name.text) =
      (w.params.find? (Text.lower name.text)).map (·.respell ρ) := by
    obtain ⟨fs, rfl⟩ := walk.respelled
    exact OrderedMap.find?_map _ _ _
  unfold Walk.bind
  simp only [ρ.lower_name, params]
  cases isParam : w.params.find? (Text.lower name.text) with
  | some param =>
    exact ⟨counted.checkCase again (fits _ (.inl (given_of_param ⟨_, prepared.2⟩ isParam))) (fresh _),
      rfl⟩
  | none =>
    refine ⟨?_, ?_⟩
    · have visible : ({ w' with order := w'.order + 1 } : Walk).visible? (Text.lower name.text)
          (frame.respell ρ) = (({ w with order := w.order + 1 } : Walk).visible?
            (Text.lower name.text) frame).map (·.respell ρ) := by
        obtain ⟨fs, rfl⟩ := walk.respelled
        exact visible?_respell ρ { w with order := w.order + 1 } fs _ _
      simp only [Option.map_none, visible]
      cases seen :
          ({ w with order := w.order + 1 } : Walk).visible? (Text.lower name.text) frame with
      | none => exact counted.append more
      | some b =>
        exact counted.checkCase again (fits _ (.inr (loose_of_visible prepared seen))) (fresh _)
    · have order : w'.order = w.order := by
        obtain ⟨fs, rfl⟩ := walk.respelled
        rfl
      simp only [Option.map_none, order, ρ.range_name, Option.isSome_map, Frame.respell,
        OrderedMap.map_insert]
      rfl

/-- A statement binds a name. -/
theorem bindHere
    (prepared : Prepared (V.along events) visited state) (name : Ident) (role role' : Role) :
    TracedAt (events ++ [.bind name role']) V ρ (state.2.bind state.1 name role none)
      (state'.2.bind state'.1 (ρ.name name) role none) :=
  traced.bind prepared false
    (fun _ known => ⟨events, [.bind name role'], rfl, mem_cons_self, known⟩)
    (fun _ => List.Sublist.refl _) role none

theorem bindNarrowings (parent : Frame)
    (first : Bool) (prepared : Prepared (V.along events) visited state) {ns : List Narrowing}
    (noted : ∀ n ∈ ns, (∃ role, .bind n.ident role ∈ events) ∧ V.Tested n.ident.key) :
    TracedAt events V ρ (ns.foldl (bindNarrowing parent first) state)
      ((ns.map (·.respell ρ)).foldl (bindNarrowing (parent.respell ρ) first) state') := by
  induction ns generalizing state state' with
  | nil => exact traced
  | cons n rest ih =>
    obtain ⟨⟨bound, tested⟩, others⟩ := forall_mem_cons.1 noted
    rw [map_cons, foldl_cons, foldl_cons]
    refine ih ?_ (prepared.bindNarrowing parent first bound tested) others
    have spelled : (⟨(n.respell ρ).text, (n.respell ρ).range⟩ : Ident) = ρ.name n.ident :=
      Narrowing.ident_respell ρ n
    have fits {known : Ident} (source : V.given.find? n.ident.key = some known ∨
        Loose events V.given n.ident.key known) :
        (TraceEntry.compare n.ident known true).Fits (events ++ []) V := by
      rw [append_nil]
      exact ⟨tested, bound, source⟩
    have again := traced.bind prepared true (fun _ => fits) (fun _ => List.Sublist.refl _) .plain
      (some (if first && n.owner = parent.index then n else n.opposite))
    unfold bindNarrowing
    rw [spelled]
    rw [Option.map_some, apply_ite (Narrowing.respell ρ), append_nil] at again
    exact again

/-- A frame inside the innermost of the open frames takes what that one says about validity. -/
def inherit (stack : List Frame) (frame : Frame) (w : Walk) (first : Bool) : Frame × Walk :=
  match stack with
  | [] => (frame, w)
  | parent :: _ =>
    if frame.site.isIf && parent.site.isIf then
      ({ frame with narrowings := parent.narrowings ++ frame.narrowings }, w)
    else parent.narrowings.foldl (bindNarrowing parent first) (frame, w)

theorem prepare (opening : Opening (V.along events) state) (first : Bool) :
    TracedAt (events ++ state.1.site.opens) V ρ (state.2.prepare state.1 first)
      (state'.2.prepare state'.1 first) := by
  obtain ⟨frame, w⟩ := state
  obtain ⟨frame', w'⟩ := state'
  obtain ⟨walk, rfl⟩ := traced
  dsimp only at walk ⊢
  have traced : TracedAt events V ρ (frame, w) (frame.respell ρ, w') := ⟨walk, rfl⟩
  -- the frames of most kinds open in this way
  have inherited : TracedAt events V ρ
      (inherit w.stack frame w first) (inherit w'.stack (frame.respell ρ) w' first) := by
    rw [walk.stack]
    cases isOpen : w.stack with
    | nil => exact traced
    | cons parent rest =>
      have around := (opening.walk.frames parent (isOpen ▸ mem_cons_self)).noted
      have sameKinds : ((frame.respell ρ).site.isIf && (parent.respell ρ).site.isIf) =
          (frame.site.isIf && parent.site.isIf) :=
        congrArg₂ and (Site.isIf_respell ρ _) (Site.isIf_respell ρ _)
      simp only [map_cons, inherit, sameKinds]
      split
      · refine ⟨walk, ?_⟩
        simp only [Frame.respell, map_append]
      · exact traced.bindNarrowings parent first opening.prepared fun n noted =>
          ⟨(around n noted).1, (around n noted).2.1⟩
  obtain ⟨site, index, parent, paths, returns, locals, narrowings⟩ := frame
  rw [← append_nil events] at inherited
  unfold Walk.prepare
  rcases site with b | s | c
  · exact inherited
  · cases s with
    | forEach item target body range => exact traced.bindHere opening.prepared item .iterator .iterator
    | _ => exact inherited
  · obtain ⟨caught, body, range⟩ := c
    cases caught with
    | none => exact (append_nil events).symm ▸ traced
    | some name => exact traced.bindHere opening.prepared name .caughtError .caughtError

theorem openFrame (opening : Opening (V.along events) state) (first : Bool) :
    (state.2.openFrame state.1 first).Traced (events ++ state.1.site.opens) V ρ
      (state'.2.openFrame state'.1 first) := by
  have prepared := traced.prepare opening first
  refine prepared.walk.quiet rfl rfl ?_
  rintro fs same
  unfold Walk.openFrame
  dsimp only
  rw [prepared.frame, same]
  rfl

end TracedAt

/-! ### Closing a frame -/

theorem note_unusedFindings {locals : OrderedMap Binding} {own : Option Ident}
    {bindings : List Binding} (filed : Filed (V.along events) own locals)
    (listed : bindings ⊆ locals.values) :
    ∀ f ∈ unusedFindings bindings, (TraceEntry.note f).Fits events V := by
  intro f member
  obtain ⟨b, unused, rfl⟩ := mem_map.1 member
  refine ⟨by simp [Issue.code], ?_⟩
  rintro _ ⟨⟩
  obtain ⟨⟨key, b⟩, stored, rfl⟩ := mem_map.1 (listed (mem_filter.1 unused).1)
  obtain ⟨free, named, -⟩ := filed.stored _ stored
  exact (congrArg _ named).trans free

theorem leaving_subset (closed parent : Frame) : (leaving closed parent).2 ⊆ closed.locals.values := by
  have filtered (p : String → Binding → Bool) :
      (closed.locals.filter p).values ⊆ closed.locals.values :=
    map_subset _ filter_sublist.subset
  by_cases branching : 1 < closed.paths <;> by_cases owns : parent.site.ownsPaths <;>
    cases returns : closed.returns <;> simp [leaving, branching, owns, returns, filtered]

namespace Traced

variable (traced : w.Traced events V ρ w')

include traced

theorem closeVariables {closed : Frame} {own : Option Ident}
    (filed : Filed (V.along events) own closed.locals) (parent : Frame) :
    (w.closeVariables closed parent).Traced events V ρ
      (w'.closeVariables (closed.respell ρ) (parent.respell ρ)) := by
  have noted := traced.notes _ (note_unusedFindings filed (leaving_subset closed parent))
  unfold Walk.closeVariables
  rw [leaving_respell]
  dsimp only
  rw [unusedFindings_respell]
  refine noted.quiet (modifyTop_report _ _).1 (modifyTop_report _ _).2 ?_
  intro fs same
  rw [same]
  exact modifyTop_respell ρ _ fs fun frame => moveEntries_respell ρ _ fs closed _ frame

theorem close (tidy : w.IsTidy (V.along events)) : w.close.Traced events V ρ w'.close := by
  obtain ⟨visited, inOrder⟩ := tidy
  unfold Walk.close
  rw [traced.stack]
  match isOpen : w.stack with
  | [] => exact traced
  | [_] => exact traced
  | closed :: parent :: rest =>
    have settled : Traced events V ρ { w with stack := settlePaths closed parent :: rest }
        { w' with stack := (settlePaths closed parent).respell ρ :: rest.map (·.respell ρ) } := by
      refine traced.quiet rfl rfl ?_
      rintro fs rfl
      rfl
    have ordered := inOrder.frames closed (isOpen ▸ mem_cons_self)
    have closedWalk := settled.closeVariables ordered.filed (settlePaths closed parent)
    simp only [map_cons, settlePaths_respell]
    refine closedWalk.quiet rfl rfl ?_
    intro fs same
    rw [same, head?_respell]
    simp only [respell, map_append, map_cons, map_nil]
    rfl

theorem bindTop (tidy : w.IsTidy (V.along events)) (name : Ident) (role role' : Role) :
    (w.bindTop name role).Traced (events ++ [.bind name role']) V ρ
      (w'.bindTop (ρ.name name) role) := by
  unfold Walk.bindTop
  rw [traced.stack]
  cases isOpen : w.stack with
  | nil => exact traced.append _
  | cons top rest =>
    obtain ⟨visited, inOrder⟩ := tidy
    have ofTop := inOrder.frames top (isOpen ▸ mem_cons_self)
    have atTop : TracedAt events V ρ (top, w) (top.respell ρ, w') := ⟨traced, rfl⟩
    have changed := atTop.bindHere ⟨ofTop, inOrder⟩ name role role'
    simp only [map_cons]
    refine changed.walk.quiet rfl rfl ?_
    intro fs same
    rw [same, changed.frame]
    rfl

theorem roleAt (site : Site) : w'.roleAt (site.respell ρ) = w.roleAt site := by
  have counts : w'.stack.head?.map (·.site.isFor) = w.stack.head?.map (·.site.isFor) := by
    rw [traced.stack, head?_map, Option.map_map]
    congr 1
    funext frame
    exact Site.isFor_respell ρ frame.site
  unfold Walk.roleAt
  rw [counts]
  rcases site with b | s | c
  · rfl
  · cases s <;> rfl
  · rfl

end Traced

/-! ### Statements -/

namespace Mirrors

variable (mirrors : w.Mirrors events V ρ w')

include mirrors

theorem arrive (loopsBranch : Bool) (site : Site) (first : Bool)
    (role : Role) (permits : Permits V site) :
    (w.arrive loopsBranch site first).Mirrors (events ++ site.arrival role) V ρ
      (w'.arrive loopsBranch (site.respell ρ) first) := by
  refine ⟨(mirrors.tidy.append _).arrive loopsBranch first (fun name bound => ?_) permits, ?_⟩
  · rcases bound with binds | ⟨opened, opens⟩
    · exact ⟨role, by simp [Site.arrival, binds]⟩
    · exact ⟨opened, by simp [Site.arrival, opens]⟩
  · have visited := mirrors.tidy.opening loopsBranch site
    have opening : Opening (V.along (events ++ readEvents site.front))
        (site.front.foldl readExpr (w.visitSite loopsBranch site)) :=
      ((mirrors.tidy.append _).opening loopsBranch site).read permits
    have read := (mirrors.traced.visitSite loopsBranch site).readExprs ⟨_, visited.walk⟩ site.front
    obtain ⟨added, frame⟩ := (readExprs_effect site.front (w.visitSite loopsBranch site)).frame
    unfold Walk.arrive Walk.settle Site.arrival
    rw [Site.front_respell, Site.binds?_respell, Site.isLeaf_respell, ← append_assoc]
    cases site.binds? with
    | some name =>
      have bound := read.walk.bindTop ⟨_, opening.walk⟩ name
        (Walk.roleAt (site.front.foldl readExpr (w.visitSite loopsBranch site)).2 site) role
      have both := bound.append site.opens
      rw [append_assoc] at both
      dsimp only [Option.map_some]
      rw [read.walk.roleAt]
      exact both
    | none =>
      dsimp only [Option.map_none]
      split
      · exact read.walk.append _
      · have opened := read.openFrame opening first
        rw [frame] at opened ⊢
        exact opened

theorem readMore (exprs : List Expr) : (w.readMore exprs).Mirrors (events ++ readEvents exprs) V ρ
      (w'.readMore (exprs.map (·.respell ρ))) := by
  refine ⟨(mirrors.tidy.readMore exprs).append _, ?_⟩
  unfold Walk.readMore
  rw [mirrors.traced.stack]
  cases isOpen : w.stack with
  | nil => exact mirrors.traced.append _
  | cons top rest =>
    have atTop : TracedAt events V ρ (top, w) (top.respell ρ, w') := ⟨mirrors.traced, rfl⟩
    exact (atTop.readExprs mirrors.tidy exprs).walk

theorem close : w.close.Mirrors events V ρ w'.close :=
  ⟨mirrors.tidy.close, mirrors.traced.close mirrors.tidy⟩

theorem cast {events' : List Event} (same : events' = events) : w.Mirrors events' V ρ w' :=
  same ▸ mirrors

theorem enterLoop (loopsBranch : Bool) {s : Stmt} {body : Block} (loops : s.Loops body) :
    (w.enterLoop loopsBranch s).Mirrors (events ++ (Site.stmt s).events) V ρ
      (w'.enterLoop loopsBranch (s.respell ρ)) := by
  cases loops with
  | forTo counter limit stride body range =>
    have entered := mirrors.arrive loopsBranch
      (.stmt (.forTo counter limit stride body range)) false .plain (by rintro _ ⟨⟩)
    have limited := (entered.arrive loopsBranch (.stmt (.assign counter)) false .iterator
      (by rintro _ ⟨⟩)).readMore (limit :: stride.toList)
    have same : events ++ (Site.stmt (.forTo counter limit stride body range)).events =
        events ++ (Site.stmt (.forTo counter limit stride body range)).arrival .plain ++
          (Site.stmt (.assign counter)).arrival .iterator ++ readEvents (limit :: stride.toList) := by
      simp [Site.events, Site.arrival, Site.front, Site.binds?, Site.opens, readEvents, readsOf,
        Stmt.exprs]
    cases counter
    cases stride <;> exact limited.cast same
  | forEach item target body range =>
    exact mirrors.arrive loopsBranch (.stmt (.forEach item target body range)) false .plain
      (by rintro _ ⟨⟩)
  | whileDo condition body range =>
    exact (mirrors.arrive loopsBranch (.stmt (.whileDo condition body range)) false .plain
      (by rintro _ ⟨⟩)).cast
      (congrArg (events ++ ·) (append_nil _).symm)

end Mirrors

theorem Mirrors.follow (loopsBranch : Bool) (c : Chunk) (first : Bool)
    (permits : ∀ i, .stmt (.ifThen i) ∈ c.sites → Permits V (.stmt (.ifThen i)))
    (mirrors : w.Mirrors events V ρ w') :
    (Walk.follow loopsBranch first w c).Mirrors (events ++ eventsOf c.sites) V ρ
      (Walk.follow loopsBranch first w' (c.respell ρ)) := by
  induction c generalizing events w w' first with
  | simple s simple =>
    have arrived := mirrors.arrive loopsBranch (.stmt s) false .plain (by rintro i ⟨⟩; cases simple)
    rw [Chunk.sites, Stmt.sites_of_simple simple, eventsOf_cons, Site.events_of_simple simple]
    cases s <;> first
      | exact arrived
      | cases simple
  | assign a =>
    have assigned := mirrors.arrive loopsBranch (.stmt (.assign a)) false .plain (by rintro _ ⟨⟩)
    cases a
    exact assigned.cast (congrArg (events ++ ·) (append_nil _))
  | dim name sizes range =>
    exact (mirrors.arrive loopsBranch (.stmt (.dim name sizes range)) false .plain (by rintro _ ⟨⟩)).cast
      (congrArg (events ++ ·) (append_nil _))
  | ifThen i ih => exact ih first permits mirrors
  | loop s body loops ih =>
    rw [Chunk.sites, loops.sites] at permits ⊢
    rw [Walk.follow, followStmt_of_loop loops, Chunk.respell, Walk.follow,
      followStmt_of_loop (loops.respell ρ), eventsOf_cons, ← append_assoc]
    exact (ih false (fun i member => permits i (mem_cons_of_mem _ member))
      (mirrors.enterLoop loopsBranch loops)).close
  | tryCatch body handler range tried caught =>
    have permits : ∀ i, .stmt (.ifThen i) ∈ body.sites ++ handler.sites → _ := fun i member =>
      permits i (mem_cons_of_mem _ member)
    have entered := mirrors.arrive loopsBranch (.stmt (.tryCatch body handler range)) false .plain
      (by rintro _ ⟨⟩)
    have handled := caught false (fun i member => permits i (mem_append_right _ member))
      (tried false (fun i member => permits i (mem_append_left _ member)) entered)
    refine handled.close.cast ?_
    show events ++ eventsOf (body.sites ++ handler.sites) = _
    simp [Chunk.sites, Site.arrival, Site.front, Site.binds?, Stmt.exprs, readEvents, readsOf,
      Site.opens]
  | nil => exact (append_nil events).symm ▸ mirrors
  | cons s others here behind =>
    rw [Chunk.sites, Stmt.sitesAll] at permits ⊢
    rw [eventsOf_append, ← append_assoc]
    exact behind first (fun i member => permits i (mem_append_right _ member))
      (here first (fun i member => permits i (mem_append_left _ member)) mirrors)
  | empty around range =>
    exact mirrors.arrive loopsBranch (.block ⟨[], range⟩) first .plain (by rintro _ ⟨⟩)
  | block around s others range ih =>
    have entered := mirrors.arrive loopsBranch (.block ⟨s :: others, range⟩) first .plain
      (by rintro _ ⟨⟩)
    have walked := ih first (fun i member => permits i (mem_cons_of_mem _ member)) entered
    exact walked.close.cast (congrArg (· ++ _) (append_nil events).symm)
  | branch around condition onTrue onFalse range inline taken passed =>
    rw [Chunk.sites_branch] at permits ⊢
    have entered := mirrors.arrive loopsBranch _ false .plain (permits _ mem_cons_self)
    have chosen := passed false (fun i member => permits i (by simp [member]))
      (taken true (fun i member => permits i (by simp [member])) entered)
    rw [← Else.chunk_respell, follow_chunk, follow_chunk] at chosen
    refine chosen.close.cast ?_
    simp [Site.events, Site.arrival, Site.front, Site.binds?, Site.opens, Stmt.exprs]
  | handler caught body range ih =>
    have entered := mirrors.arrive loopsBranch (.handler ⟨caught, body, range⟩) false .plain
      (by rintro _ ⟨⟩)
    exact append_assoc .. ▸
      (ih false (fun i member => permits i (mem_cons_of_mem _ member)) entered).close
  | nothing => exact (append_nil events).symm ▸ mirrors

/-! ## Functions -/

theorem returnFindings_plain {f : Func} {last : Frame} {returns : List ReturnSeen} {throws : Nat} :
    ∀ finding ∈ returnFindings f last returns throws,
      finding.respell ρ = finding ∧ ∀ events V, (TraceEntry.note finding).Fits events V := by
  rintro ⟨issue, range⟩ member
  have rule := rule_of_mem_returnFindings member
  cases issue <;> first
    | cases rule; done
    | exact ⟨rfl, fun _ _ => ⟨by simp [Issue.code], by rintro _ ⟨⟩⟩⟩

theorem returnFindings_respell (f : Func) (last : Frame) (returns : List ReturnSeen)
    (throws : Nat) : returnFindings (f.respell ρ) (last.respell ρ) returns throws =
      (returnFindings f last returns throws).map (·.respell ρ) := by
  rw [map_congr_left fun finding member => (returnFindings_plain finding member).1, map_id']
  cases f
  rfl

theorem Mirrors.closeFunction (mirrors : w.Mirrors events V ρ w') (f : Func) :
    (w.closeFunction f).Traced events V ρ (w'.closeFunction (f.respell ρ)) := by
  obtain ⟨⟨visited, inOrder⟩, traced⟩ := mirrors
  obtain ⟨fs, rfl⟩ := traced.respelled
  have stack : (w.respell ρ fs).stack = w.stack.map (·.respell ρ) := rfl
  unfold Walk.closeFunction
  rw [stack]
  match isOpen : w.stack with
  | [] => exact traced
  | _ :: _ :: _ => exact traced
  | [last] =>
    have returned := traced.notes (returnFindings f last w.returns w.throws)
      fun finding member => (returnFindings_plain finding member : finding.respell ρ = _ ∧ _).2 _ _
    have ordered := inOrder.frames last (isOpen ▸ mem_cons_self)
    have noted := returned.notes _ (note_unusedFindings ordered.filed (List.Subset.refl _))
    rw [← returnFindings_respell, ← unusedFindings_respell, ← OrderedMap.values_map] at noted
    refine noted.quiet rfl rfl ?_
    rintro fs' same
    obtain rfl := congrArg Walk.findings same
    simp only [respell, map_cons, map_nil, map_append]
    rfl

end Walk

end

namespace Walk

variable (ρ : Respelling)

theorem paramBindings_respell (f : Func) :
    paramBindings (f.respell ρ) = (paramBindings f).map (·.respell ρ) := by
  have added (ps : List Param) (m : OrderedMap Binding) :
      (ps.map (·.respell ρ)).foldl addParam (m.map (·.respell ρ)) =
        (ps.foldl addParam m).map (·.respell ρ) := by
    induction ps generalizing m with
    | nil => rfl
    | cons p rest ih =>
      rw [map_cons, foldl_cons, foldl_cons, ← ih]
      congr 1
      unfold addParam
      rw [OrderedMap.map_insert]
      simp only [Param.respell, ρ.lower_name, ρ.range_name]
      rfl
  have own : (f.respell ρ).params = f.params.map (·.respell ρ) := by
    cases f
    exact Param.respellAll_eq ρ _
  have method : (f.respell ρ).isMethod = f.isMethod := by
    cases f
    rfl
  have givenM : (givenBinding "m").respell ρ = givenBinding "m" := by
    simp [Binding.respell, givenBinding, Binding.ident, ρ.given_m]
  have givenSuper : (givenBinding "super").respell ρ = givenBinding "super" := by
    simp [Binding.respell, givenBinding, Binding.ident, ρ.given_super]
  have start : (∅ : OrderedMap Binding).insert "m" (givenBinding "m") =
      ((∅ : OrderedMap Binding).insert "m" (givenBinding "m")).map (·.respell ρ) := by
    rw [OrderedMap.map_insert, givenM]
    rfl
  unfold paramBindings
  rw [own, method, start, added]
  dsimp only
  rw [apply_ite (OrderedMap.map _), OrderedMap.map_insert, givenSuper]
  rw [← start]

end Walk

namespace Func

/-- Each parameter is kept under its own key. -/
theorem key_of_given (f : Func) {i : Ident} (found : f.given.find? key = some i) : i.key = key := by
  have inserted {m : OrderedMap Binding} (named : ∀ entry ∈ m.entries, entry.2.ident.key = entry.1)
      {key : String} {b : Binding} (own : b.ident.key = key) :
      ∀ entry ∈ (m.insert key b).entries, entry.2.ident.key = entry.1 := by
    intro entry member
    rcases OrderedMap.mem_insertEntry member with rfl | original
    · exact own
    · exact named entry original
  have added (ps : List Param) (m : OrderedMap Binding)
      (named : ∀ entry ∈ m.entries, entry.2.ident.key = entry.1) :
      ∀ entry ∈ (ps.foldl Walk.addParam m).entries, entry.2.ident.key = entry.1 := by
    induction ps generalizing m with
    | nil => exact named
    | cons p rest ih => exact ih _ (inserted named rfl)
  have named : ∀ entry ∈ (Walk.paramBindings f).entries, entry.2.ident.key = entry.1 := by
    have start : ∀ entry ∈ ((∅ : OrderedMap Binding).insert "m" (Walk.givenBinding "m")).entries,
        entry.2.ident.key = entry.1 :=
      inserted (fun entry member => (not_mem_nil member).elim) (by decide)
    unfold Walk.paramBindings
    dsimp only
    split
    · exact inserted (added _ _ start) (by decide)
    · exact added _ _ start
  obtain ⟨entry, member, same⟩ := mem_map.1 (OrderedMap.mem_of_find? found)
  obtain ⟨rfl, rfl⟩ := Prod.mk.inj same
  exact named entry member

/-- The variables that the function compares with `invalid` in an `if`. -/
def tested (f : Func) : List String :=
  f.body.sites.flatMap fun
    | .stmt (.ifThen i) => i.condition.compared .valid ++ i.condition.compared .invalid
    | _ => []

/-- The names that a walk over the function deals with. -/
def vocabulary (f : Func) : Vocabulary :=
  ⟨f.given, fun _ => True, (· ∈ f.tested)⟩

/-- The walk over a respelled function. -/
theorem flow_respell (f : Func) (ρ : Respelling) (loopsBranch : Bool) :
    (f.flow loopsBranch).Traced (eventsOf f.body.sites) f.vocabulary ρ
      ((f.respell ρ).flow loopsBranch) := by
  have start : (Walk.ofFunc f).Traced [] f.vocabulary ρ (Walk.ofFunc (f.respell ρ)) := by
    refine ⟨forall_mem_nil _, [], forall_mem_nil _, nil_sublist _, rfl, ?_⟩
    unfold Walk.ofFunc
    rw [Walk.paramBindings_respell]
    rfl
  have opened := (start.visit (.block f.body) 1).openFrame (f.body_opening rfl) false
  have permits : ∀ i, .stmt (.ifThen i) ∈ Stmt.sitesAll f.body.statements →
      Walk.Permits f.vocabulary (.stmt (.ifThen i)) := by
    rintro i member _ ⟨⟩ validity x compared
    refine mem_flatMap.2 ⟨.stmt (.ifThen i), ?_, ?_⟩
    · rw [Block.sites_eq]
      exact mem_cons_of_mem _ member
    · cases validity
      · exact mem_append_left _ compared
      · exact mem_append_right _ compared
  have followed := Walk.Mirrors.follow loopsBranch (.stmts f.body.statements) false permits
    ⟨f.openBody_isTidy rfl, opened⟩
  have closed := followed.closeFunction f
  obtain ⟨keyword, params, body, range, signature, returnType, name, isMethod, nspace⟩ := f
  cases body
  exact closed

end Func

end ChannelLint
