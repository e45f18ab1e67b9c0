import ChannelLint.Proofs.Ending

/-!
# What every walk keeps in order

A binding stands under its own name in lower case, once, and never under that of a parameter,
because `bind` leaves a parameter alone. What an `if` notes about the validity of a variable comes
from a comparison in its own condition, or was noted by an `if` that was visited before. A caught
error stays in its handler. What is bound, and about which names validity is noted, can be read off
the statements: a `Vocabulary` says which names a walk may meet.
-/
namespace ChannelLint

open List

variable {key : String} {b : Binding} {frame : Frame} {name : Ident}

/-- The variables that an expression compares with `invalid` in such a way that they have the given
validity where the comparison holds. -/
def Expr.compared (validity : Validity) (e : Expr) : List String :=
  (e.preorder none).filterMap fun
    | (.var name _, parent) =>
      if Walk.comparedValidity? parent = some (some validity) then some name.key else none
    | _ => none

/-- What an `if` has noted itself stems from a comparison in its condition. -/
def Frame.IsHonest (frame : Frame) : Prop :=
  ∀ i, frame.site = .stmt (.ifThen i) → ∀ n ∈ frame.narrowings, n.owner = frame.index →
    Text.lower n.text ∈ i.condition.compared n.validity

/-- The names that a walk deals with: its parameters by their keys, what may be bound, and what may
be compared with `invalid`. -/
structure Vocabulary where
  given : OrderedMap Ident
  Bound : Ident → Prop
  Tested : String → Prop

def Site.caught? : Site → Option Ident
  | .handler c => c.caught
  | _ => none

variable {V : Vocabulary} {visited : Nat} {own : Option Ident}

/-- A binding under its own name, which is not one of those that are given. Only `own` is an error
that was caught. -/
structure Stored (V : Vocabulary) (own : Option Ident) (entry : String × Binding) : Prop where
  free : V.given.find? entry.1 = none
  named : entry.2.ident.key = entry.1
  bound : V.Bound entry.2.ident
  tested : entry.2.narrowed ≠ none → V.Tested entry.1
  caught : entry.2.role = .caughtError → own = some entry.2.ident

structure Filed (V : Vocabulary) (own : Option Ident) (locals : OrderedMap Binding) : Prop where
  distinct : locals.keys.Nodup
  stored : ∀ entry ∈ locals.entries, Stored V own entry

namespace Filed

variable {locals : OrderedMap Binding}

theorem empty : Filed V own ∅ :=
  ⟨nodup_nil, forall_mem_nil _⟩

theorem found (filed : Filed V own locals)
    (found : locals.find? key = some b) : Stored V own (key, b) :=
  filed.stored _ (OrderedMap.mem_of_find? found)

theorem insert (filed : Filed V own locals) (stored : Stored V own (key, b)) :
    Filed V own (locals.insert key b) := by
  refine ⟨OrderedMap.keys_insert_nodup filed.distinct key b, fun entry member => ?_⟩
  rcases OrderedMap.mem_insertEntry member with rfl | old
  · exact stored
  · exact filed.stored entry old

theorem map (filed : Filed V own locals) {f : Binding → Binding}
    (same : ∀ b, (f b).ident = b.ident ∧ (f b).narrowed = b.narrowed ∧ (f b).role = b.role) :
    Filed V own (locals.map f) := by
  refine ⟨by simpa using filed.distinct, fun entry member => ?_⟩
  obtain ⟨⟨key, b⟩, original, rfl⟩ := mem_map.1 member
  obtain ⟨free, named, bound, tested, caught⟩ := filed.stored _ original
  obtain ⟨ident, narrowed, role⟩ := same b
  exact ⟨free, ident.symm ▸ named, ident.symm ▸ bound, narrowed.symm ▸ tested,
    role.symm ▸ ident.symm ▸ caught⟩

theorem filter (filed : Filed V own locals) (p : String → Binding → Bool) :
    Filed V own (locals.filter p) :=
  ⟨OrderedMap.keys_filter_nodup filed.distinct p, fun entry member =>
    filed.stored entry (mem_filter.1 member).1⟩

end Filed

/-- What holds of a frame while `visited` statements have been visited. -/
structure Frame.InOrder (V : Vocabulary) (visited : Nat) (frame : Frame) : Prop where
  filed : Filed V frame.site.caught? frame.locals
  noted : ∀ n ∈ frame.narrowings, V.Bound n.ident ∧ V.Tested n.ident.key ∧ n.owner < visited
  honest : frame.IsHonest

theorem Frame.InOrder.mono {more : Nat} (inOrder : frame.InOrder V visited)
    (le : visited ≤ more) : frame.InOrder V more := by
  refine ⟨inOrder.filed, fun n member => ?_, inOrder.honest⟩
  obtain ⟨bound, tested, older⟩ := inOrder.noted n member
  exact ⟨bound, tested, Nat.lt_of_lt_of_le older le⟩

/-- Marks of use do not matter. -/
theorem Frame.InOrder.of_core {original : Frame} (inOrder : original.InOrder V visited)
    (same : original.core = frame.core) : frame.InOrder V visited := by
  have marked : original.core.InOrder V visited :=
    ⟨inOrder.filed.map fun _ => ⟨rfl, rfl, rfl⟩, inOrder.noted, inOrder.honest⟩
  rw [same] at marked
  refine ⟨⟨?_, fun entry member => ?_⟩, marked.noted, marked.honest⟩
  · simpa [Frame.core] using marked.filed.distinct
  · obtain ⟨free, named, bound, tested, caught⟩ :=
      marked.filed.stored (entry.1, entry.2.core) (mem_map.2 ⟨entry, member, rfl⟩)
    exact ⟨free, named, bound, tested, caught⟩

namespace Walk

/-- What holds of a walk in which `visited` statements or more have been visited. -/
structure InOrder (V : Vocabulary) (visited : Nat) (w : Walk) : Prop where
  params : w.params.map Binding.ident = V.given
  counted : visited ≤ w.visits.length
  frames : ∀ frame ∈ w.stack, frame.InOrder V visited
  closed : ∀ c ∈ w.closings, c.closed.InOrder V visited

/-- A walk that is in order, however far it has got. -/
def IsTidy (V : Vocabulary) (w : Walk) : Prop :=
  ∃ visited, w.InOrder V visited

variable {w : Walk}

variable {before after state : Frame × Walk} {n : Narrowing}

theorem InOrder.mono {more : Nat} (inOrder : w.InOrder V visited) (le : visited ≤ more)
    (counted : more ≤ w.visits.length) : w.InOrder V more :=
  ⟨inOrder.params, counted, fun frame isOpen => (inOrder.frames frame isOpen).mono le,
    fun c listed => (inOrder.closed c listed).mono le⟩

/-- Only the frames may differ. -/
theorem InOrder.of_frames {after : Walk} (inOrder : w.InOrder V visited)
    (params : after.params.map Binding.ident = w.params.map Binding.ident)
    (visits : after.visits = w.visits) (closings : after.closings = w.closings)
    (frames : ∀ frame ∈ after.stack, frame.InOrder V visited) : after.InOrder V visited :=
  ⟨params.trans inOrder.params, visits ▸ inOrder.counted, frames, closings ▸ inOrder.closed⟩

theorem IsTidy.given_find? (tidy : w.IsTidy V) (key : String) :
    V.given.find? key = (w.params.find? key).map Binding.ident := by
  obtain ⟨visited, inOrder⟩ := tidy
  rw [← inOrder.params, OrderedMap.find?_map]

/-- More names may be bound. -/
theorem IsTidy.loosen (tidy : w.IsTidy V) {Bound : Ident → Prop} (more : ∀ i, V.Bound i → Bound i) :
    w.IsTidy { V with Bound } := by
  obtain ⟨visited, inOrder⟩ := tidy
  have loose (frame : Frame) (ordered : frame.InOrder V visited) :
      frame.InOrder { V with Bound } visited := by
    obtain ⟨⟨distinct, stored⟩, noted, honest⟩ := ordered
    refine ⟨⟨distinct, fun entry member => ?_⟩, fun n member => ?_, honest⟩
    · obtain ⟨free, named, bound, tested, caught⟩ := stored entry member
      exact ⟨free, named, more _ bound, tested, caught⟩
    · obtain ⟨bound, noted⟩ := noted n member
      exact ⟨more _ bound, noted⟩
  exact ⟨visited, inOrder.params, inOrder.counted, fun frame isOpen =>
    loose frame (inOrder.frames frame isOpen), fun c listed => loose _ (inOrder.closed c listed)⟩

/-! ## Reads -/

theorem InOrder.read (inOrder : before.2.InOrder V visited) (effect : ReadEffect before after) :
    after.2.InOrder V visited := by
  refine inOrder.of_frames effect.params effect.visits effect.closings fun frame isOpen => ?_
  have core : frame.core ∈ before.2.cores := effect.cores ▸ mem_map_of_mem isOpen
  obtain ⟨original, wasOpen, same⟩ := mem_map.1 core
  exact (inOrder.frames original wasOpen).of_core same

theorem IsTidy.read (tidy : before.2.IsTidy V) (effect : ReadEffect before after) :
    after.2.IsTidy V :=
  tidy.imp fun _ inOrder => inOrder.read effect

/-- A binding that was found among those of the open frames. -/
theorem IsTidy.stored_of_resolve (tidy : w.IsTidy V)
    (unbound : w.params.find? key = none) (found : (w.resolve key).1 = some b) :
    ∃ own, Stored V own (key, b) := by
  obtain ⟨visited, inOrder⟩ := tidy
  have frames := inOrder.frames
  simp only [resolve, unbound] at found
  generalize w.stack = stack at frames found
  induction stack with
  | nil => cases found
  | cons frame rest ih =>
    obtain ⟨own, others⟩ := forall_mem_cons.1 frames
    unfold resolveIn at found
    split at found
    · exact ih others found
    · next known located =>
      have same : known = b := by split at found <;> simpa using found
      exact ⟨_, same ▸ own.filed.found located⟩

/-- What the read of a name notes is about this name. -/
theorem readName_narrowings (tidy : w.IsTidy V) {called : Bool}
    {parent : Option Expr} (noted : n ∈ (w.readName frame name called parent).1.narrowings) :
    n ∈ frame.narrowings ∨ frame.site.isIf ∧ n.owner = frame.index ∧ V.Bound n.ident ∧
      comparedValidity? parent = some (some n.validity) ∧ Text.lower n.text = name.key := by
  unfold readName at noted
  dsimp only at noted
  split at noted
  · exact .inl noted
  · split at noted
    · exact .inl noted
    · next b safe found =>
      split at noted
      · exact .inl noted
      · next notSafe =>
        have unbound : w.params.find? name.key = none := by
          cases parameter : w.params.find? name.key with
          | none => rfl
          | some p =>
            have both : w.resolve name.key = (some p, some p) := by simp [resolve, parameter]
            cases found.symm.trans both
            exact absurd rfl notSafe
        obtain ⟨own, stored⟩ := tidy.stored_of_resolve unbound (congrArg Prod.fst found)
        split at noted
        · exact .inl noted
        · have inNarrowed : n ∈ (narrow b parent frame).2.narrowings := by
            split at noted <;> next equation => exact equation ▸ noted
          unfold narrow at inNarrowed
          split at inNarrowed
          · exact .inl inNarrowed
          · next branching =>
            split at inNarrowed
            · exact .inl inNarrowed
            · exact .inl inNarrowed
            · next validity compared =>
              refine (mem_append.1 inNarrowed).imp_right fun new => ?_
              obtain rfl := mem_singleton.1 new
              exact ⟨by simpa using branching, rfl, stored.bound, compared, stored.named⟩

/-- What a reading frame notes stems from the expressions that are read. -/
theorem readNodes_narrowings (nodes : List (Expr × Option Expr)) (tidy : state.2.IsTidy V)
    (noted : n ∈ (nodes.foldl readNode state).1.narrowings) :
    n ∈ state.1.narrowings ∨ state.1.site.isIf ∧ n.owner = state.1.index ∧ V.Bound n.ident ∧
      ∃ name called parent, (Expr.var name called, parent) ∈ nodes ∧
        comparedValidity? parent = some (some n.validity) ∧ Text.lower n.text = name.key := by
  induction nodes generalizing state with
  | nil => exact .inl noted
  | cons node rest ih =>
    have effect := readNode_effect state node
    obtain ⟨added, frame⟩ := effect.frame
    rcases ih (tidy.read effect) noted with
      here | ⟨branching, owner, bound, name, called, parent, member, about⟩
    · obtain ⟨e, parent⟩ := node
      cases e with
      | var name called =>
        refine (readName_narrowings tidy here).imp_right fun ⟨branching, owner, bound, about⟩ => ?_
        exact ⟨branching, owner, bound, name, called, parent, mem_cons_self, about⟩
      | _ => exact .inl here
    · rw [frame] at owner branching
      exact .inr ⟨branching, owner, bound, name, called, parent, mem_cons_of_mem _ member, about⟩

theorem readExprs_narrowings (es : List Expr) (frame : Frame) (tidy : w.IsTidy V)
    (noted : n ∈ (es.foldl readExpr (frame, w)).1.narrowings) :
    n ∈ frame.narrowings ∨ frame.site.isIf ∧ n.owner = frame.index ∧ V.Bound n.ident ∧
      ∃ e ∈ es, Text.lower n.text ∈ e.compared n.validity := by
  have nodes : es.foldl readExpr (frame, w) =
      (es.flatMap (·.preorder none)).foldl readNode (frame, w) := foldl_flatMap.symm
  rw [nodes] at noted
  refine (readNodes_narrowings _ tidy noted).imp_right fun ⟨branching, owner, bound, about⟩ =>
    ⟨branching, owner, bound, ?_⟩
  obtain ⟨name, called, parent, member, compared, named⟩ := about
  obtain ⟨e, read, inside⟩ := mem_flatMap.1 member
  exact ⟨e, read, mem_filterMap.2 ⟨_, inside, by simp [compared, named]⟩⟩

/-- What the condition of an `if` compares is in the vocabulary. -/
def Permits (V : Vocabulary) (site : Site) : Prop :=
  ∀ i, site = .stmt (.ifThen i) → ∀ validity, ∀ x ∈ i.condition.compared validity, V.Tested x

/-- A frame that reads the condition of its statement stays in order. -/
theorem IsTidy.readAt (tidy : w.IsTidy V)
    (ordered : frame.InOrder V (frame.index + 1)) (permits : Permits V frame.site) :
    (frame.site.front.foldl readExpr (frame, w)).1.InOrder V (frame.index + 1) := by
  have about := fun n => readExprs_narrowings frame.site.front frame tidy (n := n)
  obtain ⟨added, same⟩ := (readExprs_effect frame.site.front (frame, w)).frame
  rw [same] at about ⊢
  have compared : ∀ i, frame.site = .stmt (.ifThen i) → ∀ n : Narrowing,
      (∃ e ∈ frame.site.front, Text.lower n.text ∈ e.compared n.validity) →
      Text.lower n.text ∈ i.condition.compared n.validity := by
    rintro i site n ⟨e, read, compared⟩
    rw [site] at read
    exact mem_singleton.1 read ▸ compared
  refine ⟨ordered.filed, fun n member => ?_, fun i site n member own => ?_⟩
  · rcases about n member with old | ⟨branching, owner, bound, read⟩
    · exact ordered.noted n old
    · obtain ⟨i, site⟩ : ∃ i, frame.site = .stmt (.ifThen i) := by
        unfold Site.isIf at branching
        split at branching
        · next i site => exact ⟨i, site⟩
        · cases branching
      exact ⟨bound, permits i site _ _ (compared i site n read),
        Nat.lt_succ_of_le (Nat.le_of_eq owner)⟩
  · rcases about n member with old | ⟨-, -, -, read⟩
    · exact ordered.honest i site n old own
    · exact compared i site n read

/-! ## Bindings -/

/-- A walk with a frame that is not open yet. -/
def Prepared (V : Vocabulary) (visited : Nat) (state : Frame × Walk) : Prop :=
  state.1.InOrder V visited ∧ state.2.InOrder V visited

theorem Prepared.bind {block : Frame} (prepared : Prepared V visited (block, w))
    (bound : V.Bound name) {role : Role} {narrowed : Option Narrowing}
    (tested : narrowed ≠ none → V.Tested name.key)
    (caught : role = .caughtError → block.site.caught? = some name) :
    Prepared V visited (w.bind block name role narrowed) := by
  obtain ⟨frame, inOrder⟩ := prepared
  have effect := bind_effect w block name role narrowed
  refine ⟨?_, inOrder.of_frames (congrArg _ effect.params) effect.visits effect.closings
    (effect.stack ▸ inOrder.frames)⟩
  unfold Walk.bind
  dsimp only
  split
  · exact frame
  · next missing =>
    have free : V.given.find? name.key = none := by
      rw [IsTidy.given_find? ⟨_, inOrder⟩, Ident.key, missing, Option.map_none]
    exact ⟨frame.filed.insert ⟨free, rfl, bound, tested, caught⟩, frame.noted, frame.honest⟩

theorem Prepared.bindNarrowing (prepared : Prepared V visited state) (parent : Frame) (first : Bool)
    (bound : V.Bound n.ident) (tested : V.Tested n.ident.key) :
    Prepared V visited (bindNarrowing parent first state n) :=
  prepared.bind bound (fun _ => tested) nofun

theorem Prepared.bindNarrowings (parent : Frame) (first : Bool) {ns : List Narrowing}
    (noted : ∀ n ∈ ns, V.Bound n.ident ∧ V.Tested n.ident.key)
    (prepared : Prepared V visited state) :
    Prepared V visited (ns.foldl (Walk.bindNarrowing parent first) state) := by
  induction ns generalizing state with
  | nil => exact prepared
  | cons n others ih =>
    obtain ⟨own, noted⟩ := forall_mem_cons.1 noted
    exact ih noted (prepared.bindNarrowing parent first own.1 own.2)

/-- A walk with a frame that is about to be opened: nothing in the walk is as young as the frame. -/
structure Opening (V : Vocabulary) (state : Frame × Walk) : Prop where
  walk : state.2.InOrder V state.1.index
  counted : state.1.index < state.2.visits.length
  frame : state.1.InOrder V (state.1.index + 1)

namespace Opening

theorem prepared (opening : Opening V (frame, w)) : Prepared V (frame.index + 1) (frame, w) :=
  ⟨opening.frame, opening.walk.mono (Nat.le_succ _) opening.counted⟩

theorem read (opening : Opening V (frame, w)) (permits : Permits V frame.site) :
    Opening V (frame.site.front.foldl readExpr (frame, w)) := by
  have effect := readExprs_effect frame.site.front (frame, w)
  have index : (frame.site.front.foldl readExpr (frame, w)).1.index = frame.index := by
    obtain ⟨added, same⟩ := effect.frame
    rw [same]
  refine ⟨index ▸ opening.walk.read effect, ?_, index ▸ IsTidy.readAt ⟨_, opening.walk⟩
    opening.frame permits⟩
  rw [index, effect.visits]
  exact opening.counted

theorem openFrame (opening : Opening V (frame, w))
    (bound : ∀ name role, .bind name role ∈ frame.site.opens → V.Bound name) (first : Bool) :
    (w.openFrame frame first).IsTidy V := by
  have start := opening.prepared
  have prepared : Prepared V (frame.index + 1) (w.prepare frame first) := by
    unfold prepare
    split
    · next site => exact start.bind (bound _ .iterator (by simp [site, Site.opens])) nofun nofun
    · next site =>
      split
      · next caught =>
        exact start.bind (bound _ .caughtError (by simp [site, caught, Site.opens])) nofun
          fun _ => site ▸ caught
      · exact start
    · split
      · exact start
      · next parent rest stack =>
        have noted := (opening.walk.frames parent (by simp [stack])).noted
        split
        · -- what the `if` around has noted is older than this frame
          refine ⟨⟨opening.frame.filed, ?_, fun i site n member own => ?_⟩, start.2⟩
          · refine forall_mem_append.2 ⟨fun n member => ?_, opening.frame.noted⟩
            obtain ⟨bound, tested, older⟩ := noted n member
            exact ⟨bound, tested, Nat.lt_succ_of_lt older⟩
          · rcases mem_append.1 member with outer | own'
            · exact absurd own (Nat.ne_of_lt (noted n outer).2.2)
            · exact opening.frame.honest i site n own' own
        · exact start.bindNarrowings _ _ fun n member => ⟨(noted n member).1, (noted n member).2.1⟩
  exact ⟨_, { prepared.2 with frames := forall_mem_cons.2 ⟨prepared.1, prepared.2.frames⟩ }⟩

end Opening

theorem IsTidy.bindTop (tidy : w.IsTidy V) (bound : V.Bound name) (site : Site) :
    (w.bindTop name (w.roleAt site)).IsTidy V := by
  have uncaught : w.roleAt site ≠ .caughtError := by
    unfold roleAt
    split
    · split <;> nofun
    · nofun
  obtain ⟨visited, inOrder⟩ := tidy
  refine ⟨visited, ?_⟩
  unfold Walk.bindTop
  split
  · exact inOrder
  · next top rest stack =>
    obtain ⟨ofTop, others⟩ := forall_mem_cons.1 (stack ▸ inOrder.frames)
    have changed := Prepared.bind ⟨ofTop, inOrder⟩ bound nofun (absurd · uncaught)
    exact { changed.2 with frames := forall_mem_cons.2 ⟨changed.1, others⟩ }

/-! ## Visits and closings -/

theorem InOrder.noteReturn (inOrder : w.InOrder V visited) (site : Site) :
    (w.noteReturn site).InOrder V visited := by
  have marked : ∀ w : Walk, w.InOrder V visited → w.markReturning.InOrder V visited := by
    intro w inOrder
    unfold markReturning modifyTop
    split
    · exact inOrder
    · next top rest stack =>
      obtain ⟨ofTop, others⟩ := forall_mem_cons.1 (stack ▸ inOrder.frames)
      refine inOrder.of_frames rfl rfl rfl (forall_mem_cons.2 ⟨?_, others⟩)
      dsimp only
      split
      · exact ⟨ofTop.filed, ofTop.noted, ofTop.honest⟩
      · exact ofTop
  have counted : ∀ returns throws, { w with returns, throws }.InOrder V visited := fun _ _ =>
    inOrder.of_frames rfl rfl rfl inOrder.frames
  unfold Walk.noteReturn
  split
  · exact inOrder.of_frames rfl rfl rfl inOrder.frames
  · split
    · exact marked _ (counted _ _)
    · exact marked _ (counted _ _)
    · exact inOrder

theorem InOrder.jump (inOrder : w.InOrder V visited) (label : Ident) :
    (w.jump label).InOrder V visited := by
  unfold Walk.jump
  split
  · exact inOrder
  · refine inOrder.of_frames rfl rfl rfl fun frame member => ?_
    obtain ⟨original, isOpen, rfl⟩ := mem_map.1 member
    have ordered := inOrder.frames original isOpen
    refine ⟨?_, ordered.noted, ordered.honest⟩
    dsimp only
    refine ordered.filed.map fun b => ?_
    split <;> exact ⟨rfl, rfl, rfl⟩

/-- A visit opens a frame of its own. -/
theorem IsTidy.opening (tidy : w.IsTidy V) (loopsBranch : Bool) (site : Site) :
    Opening V (w.visitSite loopsBranch site) := by
  obtain ⟨visited, inOrder⟩ := tidy
  have seen (n : Nat) (le : visited ≤ n) (counted : n ≤ w.visits.length + 1) :
      (w.visitSite loopsBranch site).2.InOrder V n := by
    have visit : (w.visit site (site.paths loopsBranch)).2.InOrder V n :=
      ⟨inOrder.params, by simpa [Walk.visit] using counted,
        fun frame isOpen => (inOrder.frames frame isOpen).mono le,
        fun c listed => (inOrder.closed c listed).mono le⟩
    have noted := visit.noteReturn site
    unfold visitSite noteJump
    dsimp only
    split
    · exact noted.of_frames rfl rfl rfl noted.frames
    · exact noted.jump _
    · exact noted
  refine ⟨seen _ inOrder.counted (Nat.le_succ _),
    (seen _ (Nat.le_succ_of_le inOrder.counted) (Nat.le_refl _)).counted, ?_⟩
  exact ⟨.empty, forall_mem_nil _, fun _ _ => forall_mem_nil _⟩

/-- A caught error does not leave its handler. -/
theorem leaving_filed {closed : Frame} (filed : Filed V closed.site.caught? closed.locals)
    (parent : Frame) : Filed V closed.site.caught? (outliving closed parent) ∧
      Filed V none (leaving closed parent).1 := by
  have kept : Filed V closed.site.caught? (outliving closed parent) := by
    unfold outliving
    split
    · exact filed.map fun _ => ⟨rfl, rfl, rfl⟩
    · split
      · exact filed.filter _
      · exact filed
  refine ⟨kept, ?_⟩
  rw [leaving_fst]
  split
  · refine ⟨(kept.filter _).distinct, fun entry member => ?_⟩
    obtain ⟨listed, uncaught⟩ := mem_filter.1 member
    obtain ⟨free, named, bound, tested, -⟩ := kept.stored entry listed
    exact ⟨free, named, bound, tested, fun caught => absurd caught (by simpa using uncaught)⟩
  · next elsewhere =>
    have nowhere : closed.site.caught? = none := by
      unfold Site.caught?
      split
      · next site => simp [site, Site.isHandler] at elsewhere
      · rfl
    exact nowhere ▸ kept

theorem moveEntries_inOrder {parent : Frame} (into : parent.InOrder V visited) (w : Walk)
    (closed : Frame) {entries : List (String × Binding)}
    (stored : ∀ entry ∈ entries, Stored V none entry) :
    (entries.foldl (w.moveEntry closed) parent).InOrder V visited := by
  induction entries generalizing parent with
  | nil => exact into
  | cons entry others ih =>
    obtain ⟨⟨free, named, bound, tested, caught⟩, storedOthers⟩ := forall_mem_cons.1 stored
    refine ih ⟨into.filed.insert ⟨free, named, bound, tested, fun role => ?_⟩, into.noted,
      into.honest⟩ storedOthers
    simp only [Binding.moveOut] at role
    split at role
    · cases caught role
    · split at role <;> first | cases role | cases caught role

theorem settlePaths_inOrder {parent : Frame} (closed : Frame) (inOrder : parent.InOrder V visited) :
    (settlePaths closed parent).InOrder V visited := by
  have same : ∀ returns paths, { parent with returns, paths }.InOrder V visited := fun _ _ =>
    ⟨inOrder.filed, inOrder.noted, inOrder.honest⟩
  unfold settlePaths
  split
  · split
    · exact same _ _
    · exact inOrder
  · split
    · exact same _ _
    · exact inOrder

theorem IsTidy.close (tidy : w.IsTidy V) : w.close.IsTidy V := by
  obtain ⟨visited, inOrder⟩ := tidy
  refine ⟨visited, ?_⟩
  unfold Walk.close
  split
  · next closed parent rest stack =>
    obtain ⟨ofClosed, others⟩ := forall_mem_cons.1 (stack ▸ inOrder.frames)
    obtain ⟨ofParent, outer⟩ := forall_mem_cons.1 others
    refine ⟨inOrder.params, inOrder.counted, forall_mem_cons.2 ⟨?_, outer⟩, ?_⟩
    · dsimp only
      exact moveEntries_inOrder (settlePaths_inOrder closed ofParent) _ closed
        (leaving_filed ofClosed.filed _).2.stored
    · exact forall_mem_append.2 ⟨inOrder.closed, forall_mem_singleton.2 ofClosed⟩
  · exact inOrder

/-! ## Whole steps -/

theorem IsTidy.arrive (tidy : w.IsTidy V) (loopsBranch : Bool) {site : Site} (first : Bool)
    (bound : ∀ name, site.binds? = some name ∨ (∃ role, .bind name role ∈ site.opens) →
      V.Bound name) (permits : Permits V site) : (w.arrive loopsBranch site first).IsTidy V := by
  have opening : Opening V (site.front.foldl readExpr (w.visitSite loopsBranch site)) :=
    (tidy.opening loopsBranch site).read permits
  obtain ⟨added, frame⟩ := (readExprs_effect site.front (w.visitSite loopsBranch site)).frame
  unfold Walk.arrive settle
  split
  · next binds => exact IsTidy.bindTop ⟨_, opening.walk⟩ (bound _ (.inl binds)) _
  · split
    · exact ⟨_, opening.walk⟩
    · refine opening.openFrame (fun name role member => ?_) first
      rw [frame] at member
      exact bound name (.inr ⟨role, member⟩)

theorem IsTidy.readMore (tidy : w.IsTidy V) (exprs : List Expr) : (w.readMore exprs).IsTidy V := by
  unfold Walk.readMore
  split
  · exact tidy
  · exact IsTidy.read tidy (readExprs_effect exprs (_, w))

end Walk

/-- The parameters of a function and the names that it has anyway, by their keys. -/
def Func.given (f : Func) : OrderedMap Ident :=
  (Walk.paramBindings f).map Binding.ident

/-- The function has the name from the start: it is a parameter or `m`, or `super` in a method. -/
def Func.Gives (f : Func) (key : String) : Prop :=
  key = "m" ∨ (f.isMethod ∧ key = "super") ∨ ∃ p ∈ f.params, p.name.key = key

theorem Func.contains_paramBindings (f : Func) (key : String) :
    (Walk.paramBindings f).contains key ↔ f.Gives key := by
  have inserted (m : OrderedMap Binding) (name : String) (b : Binding) :
      (m.insert name b).contains key ↔ key = name ∨ m.contains key := by
    rw [OrderedMap.contains, OrderedMap.find?_insert]
    split <;> simp [OrderedMap.contains, *]
  have added (ps : List Param) (m : OrderedMap Binding) :
      (ps.foldl Walk.addParam m).contains key ↔ (∃ p ∈ ps, p.name.key = key) ∨ m.contains key := by
    induction ps generalizing m with
    | nil => simp
    | cons p rest ih =>
      rw [foldl_cons, ih, Walk.addParam, inserted]
      grind [Ident.key]
  have nothing : (∅ : OrderedMap Binding).contains key = false := rfl
  unfold Walk.paramBindings Func.Gives
  cases f.isMethod <;> grind

/-- What a walk may deal with if nothing is known about the function but its parameters. -/
def Vocabulary.all (given : OrderedMap Ident) : Vocabulary :=
  ⟨given, fun _ => True, fun _ => True⟩

/-- Every move keeps a walk in order. -/
theorem Walk.IsTidy.run {w : Walk} {given : OrderedMap Ident} (tidy : w.IsTidy (.all given))
    (loopsBranch : Bool) (m : Move) : (m.run loopsBranch w).IsTidy (.all given) := by
  cases m with
  | arrive site first =>
    exact tidy.arrive loopsBranch first (fun _ _ => trivial) fun _ _ _ _ _ => trivial
  | readMore exprs => exact tidy.readMore exprs
  | close => exact tidy.close

theorem Func.body_opening (f : Func) (given : V.given = f.given) :
    Walk.Opening V ((Walk.ofFunc f).visit (.block f.body) 1) :=
  ⟨⟨given.symm, Nat.zero_le _, forall_mem_nil _, forall_mem_nil _⟩, Nat.zero_lt_one,
    .empty, forall_mem_nil _, fun _ _ => forall_mem_nil _⟩

theorem Func.openBody_isTidy (f : Func) (given : V.given = f.given) : f.openBody.IsTidy V :=
  (f.body_opening given).openFrame (fun _ _ member => (not_mem_nil member).elim) false

theorem Func.Reaches.isTidy {f : Func} {loopsBranch : Bool} {w : Walk}
    (reaches : f.Reaches loopsBranch w) : w.IsTidy (.all f.given) := by
  obtain ⟨made, ahead, moves⟩ := reaches
  exact moves.keeps (fun _ m tidy => tidy.run loopsBranch m) (f.openBody_isTidy rfl)

theorem Func.bodyWalk_isTidy (f : Func) (loopsBranch : Bool) :
    (f.bodyWalk loopsBranch).IsTidy (.all f.given) :=
  (f.reaches_bodyWalk loopsBranch).isTidy

end ChannelLint
