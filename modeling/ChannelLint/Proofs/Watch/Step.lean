import ChannelLint.Proofs.Invariant
import ChannelLint.Proofs.Watch

/-!
# Each step of a walk, watched

What reads, bindings, openings and closings do to the watch of a walk. A walk that is watched stays
tidy: nothing is known about the validity of the watched name.
-/
namespace ChannelLint

open List Text

/-! ## The watch of a walk -/

def Frame.slot (x : String) (frame : Frame) : Slot :=
  (frame.locals.find? x).map Binding.entry

/-- The name at which a finding says that not every path binds it. -/
def Finding.alarm? (x : String) (finding : Finding) : Option Ident :=
  match finding.issue with
  | .iteratorOutsideLoop name | .unassignedPath name =>
    if lower name = x then some ⟨name, finding.range⟩ else none
  | _ => none

/-- The name at which a finding says that it is bound in vain. -/
def Finding.unused? (x : String) (finding : Finding) : Option Ident :=
  match finding.issue with
  | .unusedVariable name => if lower name = x then some ⟨name, finding.range⟩ else none
  | _ => none

def FreeUse.of? (x : String) (use : FreeUse) : Option Ident :=
  if lower use.name = x then some ⟨use.name, use.range⟩ else none

/-- Whether a node of an expression compares the name with `invalid`. -/
def testsValidity (x : String) (node : Expr × Option Expr) : Bool :=
  match node.1 with
  | .var name _ => name.key = x && (Walk.comparedValidity? node.2).join.isSome
  | _ => false

def Expr.testsValidity (x : String) (e : Expr) : Bool :=
  (e.preorder none).any (ChannelLint.testsValidity x)

/-- Whether the condition of an `if` compares the name with `invalid`. -/
def Site.testsValidity (x : String) : Site → Bool
  | .stmt (.ifThen branch) => branch.condition.testsValidity x
  | _ => false

/-- A walk can be watched through what neither jumps nor tests the validity of the name. A jump marks
bindings all over the stack, and where the name is tested each branch opens with a binding of it
that no statement makes; the paths of the body know of neither. -/
def Site.watchable (x : String) (site : Site) : Bool :=
  !site.isGoto && !site.testsValidity x

theorem Site.front_untested {x : String} {site : Site} (branching : site.isIf)
    (untested : site.testsValidity x = false) : site.front.any (Expr.testsValidity x) = false := by
  rcases site with b | s | c
  · cases branching
  · cases s with
    | ifThen i => exact Bool.or_eq_false_iff.2 ⟨untested, rfl⟩
    | _ => cases branching
  · cases branching

/-- What arriving at a site does to a name; `role` is that of a name which the site binds. -/
def Watch.arrive (x : String) (site : Site) (role : Role) (v : Watch) : Watch :=
  let v := v.read x (readsOf site.front)
  match site.binds? with
  | some name => v.bind x name role
  | none => if site.children.isEmpty then v else v.push (Slot.opening x site)

theorem Expr.not_compared {x : String} {e : Expr} (untested : e.testsValidity x = false)
    (validity : Validity) : ∀ y ∈ e.compared validity, y ≠ x := by
  rintro _ member rfl
  obtain ⟨⟨node, parent⟩, inside, found⟩ := mem_filterMap.1 member
  have tested := any_eq_false.1 untested _ inside
  split at found
  · obtain ⟨compared, named⟩ := Option.ite_none_right_eq_some.1 found
    simp_all [ChannelLint.testsValidity]
  · cases found

/-- A walk may bind anything, but compares one name with `invalid` nowhere. -/
def Vocabulary.untested (x : String) (given : OrderedMap Ident) : Vocabulary :=
  ⟨given, fun _ => True, (· ≠ x)⟩

namespace Walk

def watch (x : String) (w : Walk) : Watch where
  stack := w.stack.map (Frame.slot x)
  free := w.freeUses.filterMap (FreeUse.of? x)
  alarms := w.findings.filterMap (Finding.alarm? x)
  unused := w.findings.filterMap (Finding.unused? x)

/-- What holds of a walk while no condition tests the validity of the name. -/
structure Tidy (x : String) (w : Walk) : Prop where
  ordinary : x ≠ "m"
  isTidy : ∃ given, given.find? x = none ∧ w.IsTidy (.untested x given)

variable {x : String} {given : OrderedMap Ident} {own : Option Ident}

variable {w : Walk} {locals : OrderedMap Binding} {b : Binding} {name : Ident}
  {parent : Option Expr} {state : Frame × Walk} {closed : Frame} {top : FrameShape}
  {rest : List FrameShape}

theorem Tidy.step {w after : Walk} (tidy : w.Tidy x)
    (keeps : ∀ given, w.IsTidy (.untested x given) → after.IsTidy (.untested x given)) :
    after.Tidy x :=
  ⟨tidy.ordinary, tidy.isTidy.imp fun given isTidy => isTidy.imp_right (keeps given)⟩

theorem Tidy.unbound (tidy : w.Tidy x) : w.params.find? x = none := by
  obtain ⟨given, own, isTidy⟩ := tidy.isTidy
  simpa using (isTidy.given_find? x).symm.trans own

theorem Tidy.frame (tidy : w.Tidy x) {frame : Frame} (isOpen : frame ∈ w.stack) :
    ∃ given, Filed (.untested x given) frame.site.caught? frame.locals ∧
      ∀ n ∈ frame.narrowings, lower n.text ≠ x := by
  obtain ⟨given, -, visited, inOrder⟩ := tidy.isTidy
  have ordered := inOrder.frames frame isOpen
  exact ⟨given, ordered.filed, fun n noted => (ordered.noted n noted).2.1⟩

theorem narrowed_of_find? (filed : Filed (.untested x given) own locals)
    (found : locals.find? x = some b) : b.narrowed = none := by
  exact Decidable.not_not.1 fun narrowed => (filed.found found).tested narrowed rfl

theorem watch_report (w : Walk) {issue : Issue} {range : Range}
    (silent : Finding.alarm? x ⟨issue, range⟩ = none)
    (unblamed : Finding.unused? x ⟨issue, range⟩ = none) :
    (w.report issue range).watch x = w.watch x := by
  simp [watch, report, silent, unblamed]

theorem watch_checkCase (w : Walk) (known : Option Binding) (name : Ident) :
    (w.checkCase known name).watch x = w.watch x := by
  unfold checkCase
  split
  · split
    · rfl
    · exact watch_report w rfl rfl
  · rfl

/-! ## Reads -/

theorem slot_markUsed (key : String) (frame : Frame) :
    (markUsed key frame).slot x = if x = key then (frame.slot x).map (fun e => { e with used := true })
      else frame.slot x := by
  unfold Frame.slot markUsed
  rw [OrderedMap.find?_modify]
  split
  · simp only [Option.map_map]
    rfl
  · rfl

theorem slots_markRead_of_ne {key : String} (differs : x ≠ key) (specific : Bool)
    (stack : List Frame) :
    (markRead key specific stack).map (Frame.slot x) = stack.map (Frame.slot x) := by
  induction stack generalizing specific with
  | nil => rfl
  | cons frame rest ih =>
    unfold markRead
    split
    · simp [ih]
    · split
      · simp [slot_markUsed, differs]
      · cases specific <;> simp [ih, slot_markUsed, differs]

theorem slots_markRead (specific : Bool) (stack : List Frame) :
    (markRead x specific stack).map (Frame.slot x) =
      Slot.mark specific (stack.map (Frame.slot x)) := by
  induction stack generalizing specific with
  | nil => rfl
  | cons frame rest ih =>
    unfold markRead
    split
    · next nothing => simp [Frame.slot, nothing, Slot.mark, ← ih]
    · next b found =>
      have slot : frame.slot x = some b.entry := by simp [Frame.slot, found]
      split
      · next settled =>
        simp [slot, slot_markUsed, Slot.mark, Binding.entry, settled]
      · next unsettled =>
        cases specific <;>
          simp [slot, slot_markUsed, Slot.mark, Binding.entry, unsettled, ih]

theorem resolveIn_fst (stack : List Frame) :
    ((resolveIn x stack).1 = none ↔ (stack.map (Frame.slot x)).all Option.isNone) := by
  induction stack with
  | nil => simp [resolveIn]
  | cons frame rest ih =>
    unfold resolveIn
    split
    · next nothing => simpa [Frame.slot, nothing] using ih
    · next b found =>
      split <;> simp [Frame.slot, found]

theorem resolveIn_snd (stack : List Frame) :
    (resolveIn x stack).2.isSome = (stack.map (Frame.slot x)).any Slot.isSettled := by
  induction stack with
  | nil => simp [resolveIn]
  | cons frame rest ih =>
    unfold resolveIn
    split
    · next nothing => simpa [Frame.slot, nothing, Slot.isSettled] using ih
    · next b found =>
      split
      · next unsettled => simp [Frame.slot, found, Slot.isSettled, Binding.entry, unsettled, ih]
      · next settled => simp [Frame.slot, found, Slot.isSettled, Binding.entry, settled]

theorem watch_markReadAll (tidy : w.Tidy x) (key : String) : (w.markReadAll key).watch x =
      if x = key then { w.watch x with stack := Slot.mark true (w.watch x).stack } else w.watch x := by
  unfold markReadAll
  split
  · next parameter =>
    have differs : x ≠ key := by
      rintro rfl
      simp [OrderedMap.contains, tidy.unbound] at parameter
    rw [if_neg differs]
    rfl
  · split
    · next same =>
      subst same
      simp [watch, slots_markRead]
    · next differs => simp [watch, slots_markRead_of_ne differs]

theorem readName_watch_of_ne {frame : Frame} {called : Bool} (tidy : w.Tidy x)
    (differs : name.key ≠ x) : (w.readName frame name called parent).2.watch x = w.watch x := by
  have marked : ∀ known : Option Binding,
      ((w.markReadAll name.key).checkCase known name).watch x = w.watch x := fun known => by
    rw [watch_checkCase, watch_markReadAll tidy, if_neg (Ne.symm differs)]
  have silent : ∀ (w : Walk) issue,
      issue = .iteratorOutsideLoop name.text ∨ issue = .unassignedPath name.text →
      (w.report issue name.range).watch x = w.watch x := by
    rintro w issue (rfl | rfl) <;> exact watch_report w (if_neg differs) rfl
  unfold readName
  dsimp only
  split
  · rfl
  · split
    · have notCounted : FreeUse.of? x ⟨name.text, name.range, called⟩ = none := if_neg differs
      simp [watch, notCounted]
    · split
      · exact marked _
      · split
        · exact (silent _ _ (.inl rfl)).trans (marked _)
        · split
          · exact marked _
          · exact (silent _ _ (.inr rfl)).trans (marked _)

/-- A name that no condition compares with `invalid` is not narrowed. -/
theorem narrow_of_untested {frame : Frame} (named : lower b.name = x)
    (clear : ∀ n ∈ frame.narrowings, lower n.text ≠ x)
    (untested : frame.site.isIf → (comparedValidity? parent).join.isSome = false) :
    narrow b parent frame = (false, frame) := by
  unfold narrow
  split
  · rfl
  · next branching =>
    split
    · have unknown : (frame.narrowings.any fun n => lower n.text = lower b.name) = false := by
        simpa [named] using clear
      rw [unknown]
    · rfl
    · next compared =>
      have noTest := untested (by simpa using branching)
      rw [compared] at noTest
      cases noTest

theorem watch_alarm {v : Watch} {issue : Issue} (before : w.watch name.key = v)
    (alarm : issue = .iteratorOutsideLoop name.text ∨ issue = .unassignedPath name.text) :
    (w.report issue name.range).watch name.key = { v with alarms := v.alarms ++ [name] } := by
  subst before
  have raised : Finding.alarm? name.key ⟨issue, name.range⟩ = some name ∧
      Finding.unused? name.key ⟨issue, name.range⟩ = none := by
    rcases alarm with rfl | rfl <;> exact ⟨if_pos rfl, rfl⟩
  simp [watch, report, raised]

theorem readName_watch_self {frame : Frame} {called : Bool} (tidy : w.Tidy name.key)
    (clear : ∀ n ∈ frame.narrowings, lower n.text ≠ name.key)
    (untested : frame.site.isIf → (comparedValidity? parent).join.isSome = false) :
    (w.readName frame name called parent).2.watch name.key = (w.watch name.key).readName name := by
  have resolved : w.resolve name.key = resolveIn name.key w.stack := by simp [resolve, tidy.unbound]
  have bound := resolveIn_fst (x := name.key) w.stack
  have settled := resolveIn_snd (x := name.key) w.stack
  rw [← resolved] at bound settled
  unfold readName
  dsimp only
  rw [if_neg (show ¬ lower name.text = "m" from tidy.ordinary)]
  split
  · next nothing =>
    have free : (w.watch name.key).stack.all Option.isNone := bound.1 (congrArg Prod.fst nothing)
    rw [Watch.readName, if_pos free]
    simp [watch, FreeUse.of?, Ident.key]
  · next b safe found =>
    have notFree : ¬ (w.watch name.key).stack.all Option.isNone = true := fun free => by
      have nothing := bound.2 free
      rw [show (w.resolve name.key).1 = some b from congrArg Prod.fst found] at nothing
      cases nothing
    have safety : safe.isSome = (w.watch name.key).stack.any Slot.isSettled := by
      rw [← show (w.resolve name.key).2 = safe from congrArg Prod.snd found]
      exact settled
    have marked : ((w.markReadAll name.key).checkCase (some b) name).watch name.key =
        { w.watch name.key with stack := Slot.mark true (w.watch name.key).stack } := by
      rw [watch_checkCase, watch_markReadAll tidy, if_pos rfl]
    obtain ⟨given, -, isTidy⟩ := tidy.isTidy
    obtain ⟨own, stored⟩ := isTidy.stored_of_resolve tidy.unbound (congrArg Prod.fst found)
    have kept : narrow b parent frame = (false, frame) :=
      narrow_of_untested stored.named clear untested
    rw [Watch.readName, if_neg notFree, ← safety]
    split
    · exact marked
    · rw [kept]
      split
      · exact watch_alarm marked (.inl rfl)
      · exact watch_alarm marked (.inr rfl)

theorem readNode_watch (node : Expr × Option Expr) (tidy : state.2.Tidy x)
    (clear : ∀ n ∈ state.1.narrowings, lower n.text ≠ x)
    (untested : state.1.site.isIf → testsValidity x node = false) :
    (readNode state node).2.watch x = (state.2.watch x).read x (nodeReads node).toList := by
  obtain ⟨e, parent⟩ := node
  cases e with
  | var name called =>
    by_cases same : name.key = x
    · subst same
      have read : (readNode state (.var name called, parent)).2.watch name.key =
          (state.2.watch name.key).readName name :=
        readName_watch_self tidy clear fun branching => by
          simpa [testsValidity] using untested branching
      simpa [Watch.read, nodeReads] using read
    · have read : (readNode state (.var name called, parent)).2.watch x = state.2.watch x :=
        readName_watch_of_ne tidy same
      simpa [Watch.read, nodeReads, same] using read
  | _ => rfl

theorem readNodes_watch (nodes : List (Expr × Option Expr)) (tidy : state.2.Tidy x)
    (clear : ∀ n ∈ state.1.narrowings, lower n.text ≠ x)
    (untested : state.1.site.isIf → nodes.any (testsValidity x) = false) :
    (nodes.foldl readNode state).2.watch x =
      (state.2.watch x).read x (nodes.filterMap nodeReads) := by
  induction nodes generalizing state with
  | nil => rfl
  | cons node rest ih =>
    have effect := readNode_effect state node
    obtain ⟨added, sameFrame⟩ := effect.frame
    have sameSite : (readNode state node).1.site = state.1.site := by rw [sameFrame]
    simp only [any_cons, Bool.or_eq_false_iff] at untested
    have stillClear : ∀ n ∈ (readNode state node).1.narrowings, lower n.text ≠ x := by
      obtain ⟨given, -, isTidy⟩ := tidy.isTidy
      rintro n noted rfl
      rcases readNodes_narrowings [node] isTidy noted with old | ⟨branching, -, -, about⟩
      · exact clear n old rfl
      · obtain ⟨name, called, parent, member, compared, named⟩ := about
        obtain rfl := mem_singleton.1 member
        simpa [testsValidity, named, compared] using (untested branching).1
    have names : (node :: rest).filterMap nodeReads =
        (nodeReads node).toList ++ rest.filterMap nodeReads := by
      cases named : nodeReads node <;> simp [named]
    rw [foldl_cons, ih (tidy.step fun _ isTidy => isTidy.read effect) stillClear
      fun branching => (untested (sameSite ▸ branching)).2, names,
      readNode_watch node tidy clear fun branching => (untested branching).1]
    simp [Watch.read]

/-- Reading expressions. Only the condition of an `if` can test the validity of the name. -/
theorem readExprs_watch (es : List Expr) (tidy : state.2.Tidy x)
    (clear : ∀ n ∈ state.1.narrowings, lower n.text ≠ x)
    (untested : state.1.site.isIf → es.any (Expr.testsValidity x) = false) :
    (es.foldl readExpr state).2.watch x = (state.2.watch x).read x (readsOf es) := by
  have nodes : es.foldl readExpr state =
      (es.flatMap (·.preorder none)).foldl readNode state := foldl_flatMap.symm
  have names : (es.flatMap (·.preorder none)).filterMap nodeReads = readsOf es :=
    filterMap_flatMap
  rw [nodes, ← names]
  exact readNodes_watch _ tidy clear fun branching => any_flatMap.trans (untested branching)

/-! ## Bindings -/

theorem slot_insert (frame : Frame) (key : String) (b : Binding) :
    { frame with locals := frame.locals.insert key b }.slot x =
      if key = x then some b.entry else frame.slot x := by
  rw [Frame.slot, OrderedMap.find?_insert, apply_ite (Option.map _)]
  simp only [eq_comm]
  rfl

theorem bind_watch (block : Frame) (unbound : w.params.find? x = none) (name : Ident) (role : Role)
    (narrowed : Option Narrowing) (untested : name.key = x → narrowed = none) :
    (w.bind block name role narrowed).2.watch x = w.watch x ∧
      (w.bind block name role narrowed).1.slot x =
        if name.key = x then some (.fresh name role) else block.slot x := by
  unfold bind
  dsimp only
  split
  · next param parameter =>
    have differs : name.key ≠ x := by
      rintro rfl
      cases unbound.symm.trans parameter
    rw [watch_checkCase, if_neg differs]
    exact ⟨rfl, rfl⟩
  · rw [watch_checkCase, slot_insert]
    refine ⟨rfl, ?_⟩
    split
    · next same =>
      obtain rfl := untested same
      exact (if_pos same).symm
    · next differs => exact (if_neg differs).symm

theorem bindNarrowings_watch (parent : Frame) (first : Bool) {ns : List Narrowing}
    (unbound : state.2.params.find? x = none) (clear : ∀ n ∈ ns, lower n.text ≠ x) :
    (ns.foldl (bindNarrowing parent first) state).2.watch x = state.2.watch x ∧
      (ns.foldl (bindNarrowing parent first) state).1.slot x = state.1.slot x := by
  induction ns generalizing state with
  | nil => exact ⟨rfl, rfl⟩
  | cons n rest ih =>
    obtain ⟨differs, clear⟩ := forall_mem_cons.1 clear
    obtain ⟨watch, slot⟩ := bind_watch state.1 unbound ⟨n.text, n.range⟩ .plain
      (some (if first && n.owner = parent.index then n else n.opposite))
      fun same => absurd same differs
    have params := (bind_effect state.2 state.1 ⟨n.text, n.range⟩ .plain
      (some (if first && n.owner = parent.index then n else n.opposite))).params
    obtain ⟨others, others'⟩ := ih (params.symm ▸ unbound) clear
    exact ⟨others.trans watch, others'.trans (slot.trans (if_neg differs))⟩

/-- A frame opens with the binding that its statement makes. -/
theorem prepare_watch {frame : Frame} (tidy : w.Tidy x) (unbound : frame.slot x = none)
    (first : Bool) : (w.prepare frame first).2.watch x = w.watch x ∧
      (w.prepare frame first).1.slot x = Slot.opening x frame.site := by
  have bound := fun name role =>
    unbound ▸ bind_watch frame tidy.unbound name role none fun _ => rfl
  unfold prepare
  split
  · next item target body range site =>
    rw [site]
    exact bound item .iterator
  · next handler site =>
    obtain ⟨caught, body, range⟩ := handler
    rw [site]
    cases caught with
    | none => exact ⟨rfl, unbound⟩
    | some name => exact bound name .caughtError
  · next notEach notHandler =>
    have nothing : Slot.opening x frame.site = none := by
      unfold Slot.opening
      split
      · next site => exact absurd site (notEach _ _ _ _)
      · next site => exact absurd site (notHandler _)
      · rfl
    rw [nothing, ← unbound]
    split
    · exact ⟨rfl, rfl⟩
    · next parent rest stack =>
      split
      · exact ⟨rfl, rfl⟩
      · obtain ⟨given, -, clear⟩ := tidy.frame (stack ▸ mem_cons_self : parent ∈ w.stack)
        exact bindNarrowings_watch parent first tidy.unbound clear

theorem openFrame_watch (frame : Frame) (tidy : w.Tidy x) (unbound : frame.slot x = none)
    (first : Bool) :
    (w.openFrame frame first).watch x = (w.watch x).push (Slot.opening x frame.site) := by
  obtain ⟨watch, slot⟩ := prepare_watch tidy unbound first
  calc (w.openFrame frame first).watch x
      = ((w.prepare frame first).2.watch x).push ((w.prepare frame first).1.slot x) := rfl
    _ = (w.watch x).push (Slot.opening x frame.site) := by rw [watch, slot]

theorem bindTop_watch (tidy : w.Tidy x) (opened : w.stack ≠ []) (name : Ident) (role : Role) :
    (w.bindTop name role).watch x = (w.watch x).bind x name role := by
  unfold bindTop
  split
  · next empty => exact absurd empty opened
  · next top rest stack =>
    obtain ⟨same, slot⟩ := bind_watch top tidy.unbound name role none fun _ => rfl
    have slots : (w.watch x).stack = top.slot x :: rest.map (Frame.slot x) := by simp [watch, stack]
    calc _ = { (w.bind top name role none).2.watch x with
          stack := (w.bind top name role none).1.slot x :: rest.map (Frame.slot x) } := rfl
      _ = { w.watch x with
          stack := (if name.key = x then some (.fresh name role) else top.slot x) ::
            rest.map (Frame.slot x) } := by rw [same, slot]
      _ = (w.watch x).bind x name role := by
        unfold Watch.bind
        split
        · simp [slots]
        · rw [← slots]

/-! ## Closing -/

theorem entry_moveOut (b : Binding) (outer : Option Binding) (branches usedBefore : Bool)
    (owner : Nat) : (b.moveOut outer branches usedBefore owner).entry =
      b.entry.moveOut (outer.map Binding.entry) branches usedBefore := by
  cases outer <;> rfl

theorem moveEntries_find? (w : Walk) (closed : Frame) {entries : List (String × Binding)}
    (distinct : (entries.map (·.1)).Nodup) (parent : Frame) :
    (entries.foldl (w.moveEntry closed) parent).locals.find? x =
      match entries.lookup x with
      | none => parent.locals.find? x
      | some b => some (b.moveOut (parent.locals.find? x) (parent.site.isIf || parent.site.isTry)
          (closed.site.isLoop && (((w.resolve x).1).map (·.used)).getD false) parent.index) := by
  induction entries generalizing parent with
  | nil => rfl
  | cons entry rest ih =>
    obtain ⟨key, b⟩ := entry
    simp only [map_cons, nodup_cons] at distinct
    rw [foldl_cons, ih distinct.2]
    by_cases same : key = x
    · subst same
      have gone : rest.lookup key = none :=
        (OrderedMap.find?_eq_none_iff ⟨rest⟩ key).2 distinct.1
      rw [gone]
      simp [moveEntry]
    · have skipped : (x == key) = false := by simpa using Ne.symm same
      simp only [lookup_cons, skipped]
      simp [moveEntry, OrderedMap.find?_insert_of_ne _ (Ne.symm same)]

theorem unusedFindings_alarm? (bindings : List Binding) :
    (unusedFindings bindings).filterMap (Finding.alarm? x) = [] := by
  simp [unusedFindings, Finding.alarm?]

theorem unusedFindings_unused? (filed : Filed (.untested x given) own locals) :
    (unusedFindings locals.values).filterMap (Finding.unused? x) =
      Slot.unusedIn ((locals.find? x).map Binding.entry) := by
  obtain ⟨distinct, stored⟩ := filed
  obtain ⟨entries⟩ := locals
  unfold OrderedMap.values OrderedMap.find?
  unfold OrderedMap.keys at distinct
  dsimp only at distinct stored ⊢
  induction entries with
  | nil => rfl
  | cons entry rest ih =>
    obtain ⟨key, b⟩ := entry
    simp only [map_cons, nodup_cons] at distinct
    obtain ⟨⟨-, namedFirst, -⟩, storedRest⟩ := forall_mem_cons.1 stored
    have split : unusedFindings (((key, b) :: rest).map (·.2)) =
        unusedFindings [b] ++ unusedFindings (rest.map (·.2)) := by
      simp only [unusedFindings, map_cons, filter_cons, filter_nil]
      split <;> rfl
    rw [split, filterMap_append, ih distinct.2 storedRest]
    by_cases same : key = x
    · subst same
      have gone : rest.lookup key = none :=
        (OrderedMap.find?_eq_none_iff ⟨rest⟩ key).2 distinct.1
      have blamed : Finding.unused? key ⟨.unusedVariable b.name, b.range⟩ =
          some ⟨b.name, b.range⟩ := if_pos namedFirst
      simp only [gone, lookup_cons, beq_self_eq_true, Option.map_none]
      cases used : b.used <;> by_cases plain : b.role = .plain <;>
        simp [unusedFindings, Slot.unusedIn, Binding.entry, Option.filter, used, plain, blamed]
    · have skipped : (x == key) = false := by simpa using Ne.symm same
      have other : Finding.unused? x ⟨.unusedVariable b.name, b.range⟩ = none :=
        if_neg fun named => same (namedFirst.symm.trans named)
      simp only [lookup_cons, skipped]
      cases used : b.used <;> by_cases plain : b.role = .plain <;>
        simp [unusedFindings, used, plain, other]

theorem outlives_of_plain {returns : Bool} (plain : b.narrowed = none) :
    outlives returns b = !returns := by
  cases returns <;> simp [outlives, plain]

theorem owns_iff_around (site : Site) : site.ownsPaths = decide (site.around ≠ .plain) := by
  unfold Site.ownsPaths Site.around
  cases site.isIf <;> cases site.isTry <;> cases site.isHandler <;> rfl

theorem branches_iff_around (site : Site) :
    (site.isIf || site.isTry) = decide (site.around = .branches) := by
  unfold Site.around
  cases site.isIf <;> cases site.isTry <;> cases site.isHandler <;> rfl

theorem leaving_snd (closed parent : Frame) : (leaving closed parent).2 =
      if Slot.isDropped closed.shape parent.site.around then
        (closed.locals.filter fun _ b => !outlives closed.returns b).values
      else [] := by
  unfold leaving Slot.isDropped
  rw [owns_iff_around]
  by_cases branching : 1 < closed.paths <;> by_cases owns : parent.site.around = .plain <;>
    simp [branching, owns, Frame.shape]

section

variable (filed : Filed (.untested x given) closed.site.caught? closed.locals) (parent : Frame)

include filed

theorem outliving_slot : ((outliving closed parent).find? x).map Binding.entry =
      Slot.outliving closed.shape parent.site.around (closed.slot x) := by
  unfold outliving Slot.outliving Slot.isDropped Frame.slot Frame.shape
  rw [owns_iff_around]
  split
  · simp only [OrderedMap.find?_map, Option.map_map]
    rfl
  · next single =>
    by_cases alone : parent.site.around = .plain
    · simp [alone]
    · have filtered : (closed.locals.find? x).filter (fun b => outlives closed.returns b) =
          if closed.returns then none else closed.locals.find? x := by
        cases found : closed.locals.find? x with
        | none => simp
        | some b =>
          rw [Option.filter_some, outlives_of_plain (narrowed_of_find? filed found)]
          cases closed.returns <;> rfl
      simp only [ne_eq, alone, not_false_eq_true, decide_true, if_true,
        OrderedMap.find?_filter filed.distinct, filtered]
      cases closed.returns <;> simp [single]

theorem leaving_slot : ((leaving closed parent).1.find? x).map Binding.entry =
      Slot.leaving closed.shape parent.site.around (closed.slot x) := by
  rw [leaving_fst]
  unfold Slot.leaving
  rw [← outliving_slot filed parent, show closed.shape.site = closed.site from rfl]
  split
  · rw [OrderedMap.find?_filter (leaving_filed filed parent).1.distinct]
    cases (outliving closed parent).find? x with
    | none => rfl
    | some b =>
      simp only [Option.filter_some, Option.map_some, Binding.entry]
      split <;> rfl
  · rfl

theorem leaving_unused : (unusedFindings (leaving closed parent).2).filterMap (Finding.unused? x) =
      if Slot.isDropped closed.shape parent.site.around then Slot.unusedIn (closed.slot x) else [] := by
  rw [leaving_snd]
  split
  · next drop =>
    have returns : closed.returns = true := by
      simp only [Slot.isDropped, Frame.shape, Bool.and_eq_true] at drop
      exact drop.2
    rw [unusedFindings_unused? (filed.filter _), OrderedMap.find?_filter filed.distinct]
    unfold Frame.slot
    cases found : closed.locals.find? x with
    | none => rfl
    | some b =>
      rw [Option.filter_some, outlives_of_plain (narrowed_of_find? filed found), returns]
      rfl
  · rfl

end

theorem visiblyUsed_eq (unbound : w.params.find? x = none) :
    (((w.resolve x).1).map (·.used)).getD false = Slot.visiblyUsed (w.watch x).stack := by
  have inFrames : ∀ stack : List Frame, ((resolveIn x stack).1).map Binding.entry =
      (stack.map (Frame.slot x)).findSome? id := by
    intro stack
    induction stack with
    | nil => rfl
    | cons frame rest ih =>
      unfold resolveIn
      split
      · next nothing => simpa [Frame.slot, nothing] using ih
      · next b found => split <;> simp [Frame.slot, found]
  unfold Slot.visiblyUsed resolve
  rw [unbound]
  show _ = (((w.stack.map (Frame.slot x)).findSome? id).map Entry.used).getD false
  rw [← inFrames, Option.map_map]
  rfl

theorem settlePaths_same (closed parent : Frame) : (settlePaths closed parent).site = parent.site ∧
      (settlePaths closed parent).locals = parent.locals := by
  unfold settlePaths
  split
  · split <;> exact ⟨rfl, rfl⟩
  · split <;> exact ⟨rfl, rfl⟩

/-- The slot of the frame around a closed one, after the bindings have moved. -/
theorem moveEntries_slot (closed : Frame) {parent : Frame} {rest : List Frame}
    (unbound : w.params.find? x = none) (stack : w.stack = parent :: rest)
    (distinct : locals.keys.Nodup) : (locals.entries.foldl (w.moveEntry closed) parent).slot x =
      Slot.receive (parent.slot x) (parent.site.around = .branches)
        (closed.site.isLoop && Slot.visiblyUsed (parent.slot x :: rest.map (Frame.slot x)))
        ((locals.find? x).map Binding.entry) := by
  have visible : (((w.resolve x).1).map (·.used)).getD false =
      Slot.visiblyUsed (parent.slot x :: rest.map (Frame.slot x)) := by
    rw [visiblyUsed_eq unbound, watch, stack]
    rfl
  unfold Frame.slot at visible ⊢
  rw [moveEntries_find? w closed distinct, visible, branches_iff_around,
    show locals.find? x = locals.entries.lookup x from rfl]
  cases locals.entries.lookup x with
  | none => rfl
  | some b => simp only [Option.map_some, entry_moveOut, Slot.receive]

theorem close_watch {closed parent : Frame} {rest : List Frame} (tidy : w.Tidy x)
    (stack : w.stack = closed :: parent :: rest) :
    w.close.watch x = (w.watch x).close closed.shape parent.site.around ∧ w.close.Tidy x := by
  refine ⟨?_, tidy.step fun _ isTidy => isTidy.close⟩
  obtain ⟨site, locals⟩ := settlePaths_same closed parent
  obtain ⟨given, filed, -⟩ := tidy.frame (stack ▸ mem_cons_self : closed ∈ w.stack)
  unfold close closeVariables modifyTop
  rw [stack]
  dsimp only
  have moved := moveEntries_slot closed
    (w := { w with
      stack := settlePaths closed parent :: rest
      findings := w.findings ++ unusedFindings (leaving closed (settlePaths closed parent)).2 })
    tidy.unbound rfl (leaving_filed filed (settlePaths closed parent)).2.distinct
  have slot : (settlePaths closed parent).slot x = parent.slot x := by
    rw [Frame.slot, locals]
    rfl
  have dropped := leaving_unused filed (settlePaths closed parent)
  rw [leaving_slot filed, site, slot] at moved
  rw [site] at dropped
  unfold watch Watch.close
  rw [stack]
  simp only [map_cons, filterMap_append, unusedFindings_alarm?, dropped, moved, append_nil]
  rfl

/-! ## Whole steps -/

theorem markReturning_watch (w : Walk) : w.markReturning.watch x = w.watch x := by
  unfold markReturning modifyTop
  split
  · rfl
  · next top rest stack =>
    unfold watch
    rw [stack]
    dsimp only
    split <;> rfl

theorem noteReturn_watch (w : Walk) (site : Site) : (w.noteReturn site).watch x = w.watch x := by
  unfold noteReturn
  split
  · exact watch_report w rfl rfl
  · split
    · exact markReturning_watch _
    · exact markReturning_watch _
    · rfl

theorem visitSite_watch (tidy : w.Tidy x) (loopsBranch : Bool) {site : Site}
    (staying : site.isGoto = false) :
    (w.visitSite loopsBranch site).2.watch x = w.watch x ∧ (w.visitSite loopsBranch site).2.Tidy x := by
  refine ⟨?_, tidy.step fun _ isTidy => ⟨_, (isTidy.opening loopsBranch site).walk⟩⟩
  have noted := noteReturn_watch (x := x) (w.visit site (site.paths loopsBranch)).2 site
  unfold visitSite noteJump
  dsimp only
  split
  · exact noted
  · cases staying
  · exact noted

theorem readMore_watch (tidy : w.Tidy x) {top : Frame} {rest : List Frame}
    (stack : w.stack = top :: rest) (es : List Expr) (passing : top.site.isIf = false) :
    (w.readMore es).watch x = (w.watch x).read x (readsOf es) ∧ (w.readMore es).Tidy x := by
  refine ⟨?_, tidy.step fun _ isTidy => isTidy.readMore es⟩
  obtain ⟨given, -, clear⟩ := tidy.frame (stack ▸ mem_cons_self : top ∈ w.stack)
  unfold readMore
  simp only [stack]
  exact readExprs_watch es tidy clear fun branching => by simp [passing] at branching

theorem roleAt_congr {w' : Walk} (same : w'.shapes = w.shapes) (site : Site) :
    w'.roleAt site = w.roleAt site := by
  have heads := congrArg (fun shapes => shapes.head?.map (·.site.isFor)) same
  simp only [shapes, head?_map, Option.map_map] at heads
  unfold roleAt
  rw [show w'.stack.head?.map (·.site.isFor) = _ from heads]
  rfl

theorem roleAt_of_shapes (shapes : w.shapes = top :: rest) (a : Assign) :
    w.roleAt (.stmt (.assign a)) = if top.site.isFor then .iterator else .plain := by
  obtain ⟨frame, frames, stack, rfl, -⟩ := map_eq_cons_iff.1 shapes
  unfold roleAt
  rw [stack]
  rfl

theorem arrive_watch (tidy : w.Tidy x) (loopsBranch : Bool) (shapes : w.shapes = top :: rest)
    (site : Site) (watchable : site.watchable x) (first : Bool) :
    (w.arrive loopsBranch site first).watch x = (w.watch x).arrive x site (w.roleAt site) ∧
      (w.arrive loopsBranch site first).Tidy x := by
  simp only [Site.watchable, Bool.and_eq_true, Bool.not_eq_true'] at watchable
  obtain ⟨staying, untested⟩ := watchable
  refine ⟨?_, tidy.step fun _ isTidy => isTidy.arrive loopsBranch first (fun _ _ => trivial) ?_⟩
  · obtain ⟨visited, tidyVisited⟩ := visitSite_watch tidy loopsBranch staying
    have effect := readExprs_effect site.front (w.visitSite loopsBranch site)
    obtain ⟨added, frame⟩ := effect.frame
    have tidyRead := tidyVisited.step fun _ isTidy => isTidy.read effect
    have read : (site.front.foldl readExpr (w.visitSite loopsBranch site)).2.watch x =
        (w.watch x).read x (readsOf site.front) := by
      rw [readExprs_watch site.front tidyVisited (forall_mem_nil _) fun branching => ?_, visited]
      exact site.front_untested branching untested
    unfold Walk.arrive Walk.settle Watch.arrive
    cases binds : site.binds? with
    | some name =>
      have passing : site.endsPath = false := by
        rcases site with b | s | c
        · cases binds
        · cases s <;> first | rfl | cases binds
        · cases binds
      have sameShapes : Walk.shapes _ = w.shapes := effect.shapes.trans
        ((visitSite_shapes loopsBranch w site).trans (noteReturn_shapes_of_passing _ passing))
      have opened : (site.front.foldl readExpr (w.visitSite loopsBranch site)).2.stack ≠ [] := by
        intro empty
        rw [shapes, Walk.shapes, empty] at sameShapes
        cases sameShapes
      dsimp only
      rw [bindTop_watch tidyRead opened name, read, roleAt_congr sameShapes]
    | none =>
      dsimp only
      split
      · exact read
      · rw [openFrame_watch _ tidyRead (by rw [frame]; rfl) first, read, frame]
        rfl
  · rintro i rfl
    exact Expr.not_compared untested

theorem close_watch_of_shapes (tidy : w.Tidy x) {closed parent : FrameShape}
    (shapes : w.shapes = closed :: parent :: rest) :
    w.close.watch x = (w.watch x).close closed parent.site.around ∧ w.close.Tidy x := by
  obtain ⟨closedFrame, inner, stack, rfl, tail⟩ := map_eq_cons_iff.1 shapes
  obtain ⟨parentFrame, outer, rfl, rfl, -⟩ := map_eq_cons_iff.1 tail
  exact close_watch tidy stack

/-- A block closes the same way whatever became of its paths, as long as they are not more than
one. -/
theorem watch_close_congr (b : Block) {paths : Int} (few : paths ≤ 1) (returns : Bool)
    (around : Around) (v : Watch) :
    v.close ⟨.block b, paths, returns⟩ around = v.close ⟨.block b, 1, returns⟩ around := by
  have notMore : ¬ 1 < paths := by omega
  simp [Watch.close, Slot.leaving, Slot.outliving, Slot.isDropped, notMore, Site.isLoop,
    Site.isHandler]

end Walk

end ChannelLint
