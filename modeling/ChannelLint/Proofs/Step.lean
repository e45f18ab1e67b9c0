import ChannelLint.Flow.Analysis
import ChannelLint.Proofs.OrderedMap

/-!
# What each step of a walk changes

A read marks bindings as used and reports; it changes nothing else, so what later steps do does not
depend on it. The core of a frame leaves those marks out. The other steps are described by what they
do to the cores of the open frames, innermost first.
-/
namespace ChannelLint

variable {a b c before after : Frame × Walk} {rest : List Frame}

/-- A `return` or a `throw`. -/
def Site.endsPath : Site → Bool
  | .stmt (.ret ..) | .stmt (.throw ..) => true
  | _ => false

def Binding.ident (b : Binding) : Ident :=
  ⟨b.name, b.range⟩

def Narrowing.ident (n : Narrowing) : Ident :=
  ⟨n.text, n.range⟩

/-- A binding without the mark of its use. -/
def Binding.core (b : Binding) : Binding :=
  { b with used := false }

/-- A frame without the marks of use. -/
def Frame.core (frame : Frame) : Frame :=
  { frame with locals := frame.locals.map Binding.core }

namespace Walk

def cores (w : Walk) : List Frame :=
  w.stack.map Frame.core

/-- How many returns and throws were counted. -/
def tally (w : Walk) : Nat :=
  w.returns.length + w.throws

/-- What a walk reports on its way. A path that does not return is left to the end of the function;
whether a file is used is no matter of walks. -/
def Midway (issue : Issue) : Prop :=
  issue ≠ .missingReturnPath ∧ issue.code.rule ≠ .unusedCode

/-- What is reported about names. -/
def AboutNames (issue : Issue) : Prop :=
  Midway issue ∧ issue ≠ .unreachableCode

/-- The walk itself adds findings of some kind. -/
def Extends (P : Issue → Prop) (before after : List Finding) : Prop :=
  ∃ new, after = before ++ new ∧ ∀ finding ∈ new, P finding.issue

section

variable {P Q : Issue → Prop}

theorem Extends.refl (findings : List Finding) : Extends P findings findings :=
  ⟨[], by simp⟩

theorem Extends.trans {a b c : List Finding} (first : Extends P a b) (second : Extends P b c) :
    Extends P a c := by
  obtain ⟨new, rfl, newIssues⟩ := first
  obtain ⟨more, rfl, moreIssues⟩ := second
  refine ⟨new ++ more, by simp, fun finding member => ?_⟩
  exact (List.mem_append.1 member).elim (newIssues finding) (moreIssues finding)

theorem Extends.mono {a b : List Finding} (extension : Extends P a b) (weaker : ∀ i, P i → Q i) :
    Extends Q a b := by
  obtain ⟨new, rfl, issues⟩ := extension
  exact ⟨new, rfl, fun finding member => weaker _ (issues finding member)⟩

theorem Extends.report (w : Walk) {issue : Issue} (range : Range) (holds : P issue) :
    Extends P w.findings (w.report issue range).findings :=
  ⟨[⟨issue, range⟩], rfl, by simpa using holds⟩

end

/-! ## Reads -/

/-- What a read may change: marks of use, what is reported, and the narrowings of the frame that
reads. -/
structure ReadEffect (before after : Frame × Walk) : Prop where
  frame : ∃ added, after.1 = { before.1 with narrowings := before.1.narrowings ++ added }
  cores : after.2.cores = before.2.cores
  params : after.2.params.map Binding.ident = before.2.params.map Binding.ident
  visits : after.2.visits = before.2.visits
  closings : after.2.closings = before.2.closings
  returns : after.2.returns = before.2.returns
  throws : after.2.throws = before.2.throws
  findings : Extends AboutNames before.2.findings after.2.findings

theorem ReadEffect.refl (state : Frame × Walk) : ReadEffect state state :=
  ⟨⟨[], by simp⟩, rfl, rfl, rfl, rfl, rfl, rfl, Extends.refl _⟩

theorem ReadEffect.trans (first : ReadEffect a b) (second : ReadEffect b c) : ReadEffect a c := by
  obtain ⟨added, firstFrame⟩ := first.frame
  obtain ⟨more, secondFrame⟩ := second.frame
  refine ⟨⟨added ++ more, ?_⟩, second.cores.trans first.cores, second.params.trans first.params,
    second.visits.trans first.visits, second.closings.trans first.closings,
    second.returns.trans first.returns, second.throws.trans first.throws,
    first.findings.trans second.findings⟩
  rw [secondFrame, firstFrame]
  simp

theorem core_markUsed (key : String) (frame : Frame) : (markUsed key frame).core = frame.core := by
  have same : (markUsed key frame).locals.map Binding.core = frame.locals.map Binding.core :=
    OrderedMap.map_modify frame.locals key fun _ => rfl
  unfold Frame.core
  rw [same]
  rfl

theorem core_markRead (key : String) (specific : Bool) (stack : List Frame) :
    (markRead key specific stack).map Frame.core = stack.map Frame.core := by
  induction stack generalizing specific with
  | nil => rfl
  | cons frame rest ih =>
    unfold markRead
    split
    · simp [ih]
    · split
      · simp [core_markUsed]
      · cases specific <;> simp [ih, core_markUsed]

theorem cores_markReadAll (w : Walk) (key : String) : (w.markReadAll key).cores = w.cores := by
  unfold markReadAll
  split
  · rfl
  · exact core_markRead key true w.stack

theorem params_markReadAll (w : Walk) (key : String) :
    (w.markReadAll key).params.map Binding.ident = w.params.map Binding.ident := by
  unfold markReadAll
  split
  · exact OrderedMap.map_modify _ _ fun _ => rfl
  · rfl

theorem checkCase_eq (w : Walk) (known : Option Binding) (name : Ident) :
    ∃ findings, w.checkCase known name = { w with findings := findings } ∧
      Extends AboutNames w.findings findings := by
  unfold checkCase
  split
  · split
    · exact ⟨w.findings, rfl, Extends.refl _⟩
    · exact ⟨_, rfl, Extends.report w _ ⟨⟨nofun, nofun⟩, nofun⟩⟩
  · exact ⟨w.findings, rfl, Extends.refl _⟩

theorem markReadAll_report (w : Walk) (key : String) :
    (w.markReadAll key).findings = w.findings ∧ (w.markReadAll key).visits = w.visits ∧
      (w.markReadAll key).closings = w.closings ∧ (w.markReadAll key).returns = w.returns ∧
      (w.markReadAll key).throws = w.throws := by
  unfold markReadAll
  split <;> exact ⟨rfl, rfl, rfl, rfl, rfl⟩

theorem narrow_frame (b : Binding) (parent : Option Expr) (frame : Frame) :
    ∃ added, (narrow b parent frame).2 =
      { frame with narrowings := frame.narrowings ++ added } := by
  unfold narrow
  split
  · exact ⟨[], by simp⟩
  · split
    · exact ⟨[], by simp⟩
    · exact ⟨[], by simp⟩
    · exact ⟨_, rfl⟩

theorem modifyTop_report (w : Walk) (f : Frame → Frame) :
    (w.modifyTop f).findings = w.findings ∧ (w.modifyTop f).freeUses = w.freeUses := by
  unfold modifyTop
  split <;> exact ⟨rfl, rfl⟩

theorem freeUses_markReadAll (w : Walk) (key : String) :
    (w.markReadAll key).freeUses = w.freeUses := by
  unfold markReadAll
  split <;> rfl

/-- The walk after a name was found: its binding is marked, its spelling compared, and something may
be reported. -/
theorem readEffect_found (frame frame' : Frame) (w after : Walk) (key : String)
    (known : Option Binding) (name : Ident)
    (narrowed : ∃ added, frame' = { frame with narrowings := frame.narrowings ++ added })
    (reported : ∃ findings, after =
        { (w.markReadAll key).checkCase known name with findings := findings } ∧
      Extends AboutNames ((w.markReadAll key).checkCase known name).findings findings) :
    ReadEffect (frame, w) (frame', after) := by
  obtain ⟨findings, rfl, extension⟩ := reported
  obtain ⟨spelling, checked, compared⟩ := checkCase_eq (w.markReadAll key) known name
  obtain ⟨sameFindings, visits, closings, returns, throws⟩ := markReadAll_report w key
  rw [checked] at extension ⊢
  rw [sameFindings] at compared
  exact ⟨narrowed, cores_markReadAll w key, params_markReadAll w key, visits, closings, returns,
    throws, compared.trans extension⟩

theorem readName_effect (w : Walk) (frame : Frame) (name : Ident) (called : Bool)
    (parent : Option Expr) : ReadEffect (frame, w) (w.readName frame name called parent) := by
  unfold readName
  dsimp only
  split
  · exact ReadEffect.refl _
  · split
    · exact ⟨⟨[], by simp⟩, rfl, rfl, rfl, rfl, rfl, rfl, Extends.refl _⟩
    · next b safe _ =>
      have narrowed := narrow_frame b parent frame
      split
      · exact readEffect_found _ _ w _ _ (some b) name ⟨[], by simp⟩ ⟨_, rfl, Extends.refl _⟩
      · split
        · exact readEffect_found _ _ w _ _ _ name ⟨[], by simp⟩
            ⟨_, rfl, Extends.report _ _ ⟨⟨nofun, nofun⟩, nofun⟩⟩
        · split
          · next frame' equation =>
            rw [equation] at narrowed
            exact readEffect_found _ _ w _ _ (some b) name narrowed ⟨_, rfl, Extends.refl _⟩
          · next frame' equation =>
            rw [equation] at narrowed
            exact readEffect_found _ _ w _ _ _ name narrowed
              ⟨_, rfl, Extends.report _ _ ⟨⟨nofun, nofun⟩, nofun⟩⟩

theorem readNode_effect (state : Frame × Walk) (node : Expr × Option Expr) :
    ReadEffect state (readNode state node) := by
  unfold readNode
  split
  · exact readName_effect _ _ _ _ _
  · exact ReadEffect.refl _

theorem readNodes_effect (nodes : List (Expr × Option Expr)) (state : Frame × Walk) :
    ReadEffect state (nodes.foldl readNode state) := by
  induction nodes generalizing state with
  | nil => exact ReadEffect.refl _
  | cons node rest ih => exact (readNode_effect state node).trans (ih _)

theorem readExpr_effect (state : Frame × Walk) (e : Expr) : ReadEffect state (readExpr state e) :=
  readNodes_effect _ _

theorem readExprs_effect (es : List Expr) (state : Frame × Walk) :
    ReadEffect state (es.foldl readExpr state) := by
  induction es generalizing state with
  | nil => exact ReadEffect.refl _
  | cons e rest ih => exact (readExpr_effect state e).trans (ih _)

/-! ## Returns -/

/-- Whether the innermost open frame has already returned. -/
def isBehindReturn (w : Walk) : Bool :=
  (w.stack.head?.map (·.returns)).getD false

/-- Visiting something that is neither a `return` nor a `throw` at most reports that it cannot be
reached. -/
theorem noteReturn_of_passing (w : Walk) {site : Site} (passing : site.endsPath = false) :
    w.noteReturn site =
      if w.isBehindReturn then w.report .unreachableCode site.range else w := by
  unfold noteReturn isBehindReturn
  split
  · rfl
  · split
    · cases passing
    · cases passing
    · rfl

/-- A `return` or `throw` that can be reached ends the innermost frame and is counted. -/
theorem noteReturn_of_ending {w : Walk} {site : Site} {top : Frame}
    (ending : site.endsPath) (stack : w.stack = top :: rest) (reached : top.returns = false) :
    (w.noteReturn site).stack =
        (if top.paths = 1 then { top with returns := true } else top) :: rest ∧
      (w.noteReturn site).tally = w.tally + 1 := by
  have notBehind : (w.stack.head?.map (·.returns)).getD false = false := by simp [stack, reached]
  unfold noteReturn
  rw [if_neg (by simp [notBehind])]
  cases site with
  | block b => cases ending
  | handler c => cases ending
  | stmt s =>
    cases s with
    | ret value range => simp [markReturning, modifyTop, stack, tally]; omega
    | throw value range => simp [markReturning, modifyTop, stack, tally]; omega
    | _ => cases ending

/-! ## Bindings -/

/-- What binding a name in a frame changes: the locals of that frame, and the count. -/
structure BindEffect (before after : Frame × Walk) : Prop where
  frame : ∃ locals, after.1 = { before.1 with locals := locals }
  stack : after.2.stack = before.2.stack
  params : after.2.params = before.2.params
  visits : after.2.visits = before.2.visits
  closings : after.2.closings = before.2.closings
  returns : after.2.returns = before.2.returns
  throws : after.2.throws = before.2.throws
  findings : Extends AboutNames before.2.findings after.2.findings

theorem BindEffect.refl (state : Frame × Walk) : BindEffect state state :=
  ⟨⟨state.1.locals, rfl⟩, rfl, rfl, rfl, rfl, rfl, rfl, Extends.refl _⟩

theorem BindEffect.trans (first : BindEffect a b) (second : BindEffect b c) : BindEffect a c := by
  obtain ⟨_, firstFrame⟩ := first.frame
  obtain ⟨locals, secondFrame⟩ := second.frame
  refine ⟨⟨locals, ?_⟩, second.stack.trans first.stack, second.params.trans first.params,
    second.visits.trans first.visits, second.closings.trans first.closings,
    second.returns.trans first.returns, second.throws.trans first.throws,
    first.findings.trans second.findings⟩
  rw [secondFrame, firstFrame]

theorem bind_effect (w : Walk) (block : Frame) (name : Ident) (role : Role)
    (narrowed : Option Narrowing) : BindEffect (block, w) (w.bind block name role narrowed) := by
  unfold bind
  dsimp only
  split
  · next param _ =>
    obtain ⟨findings, checked, extension⟩ :=
      checkCase_eq { w with order := w.order + 1 } (some param) name
    rw [checked]
    exact ⟨⟨block.locals, rfl⟩, rfl, rfl, rfl, rfl, rfl, rfl, extension⟩
  · obtain ⟨findings, checked, extension⟩ := checkCase_eq { w with order := w.order + 1 }
      ({ w with order := w.order + 1 }.visible? (Text.lower name.text) block) name
    rw [checked]
    exact ⟨⟨_, rfl⟩, rfl, rfl, rfl, rfl, rfl, rfl, extension⟩

theorem bindNarrowings_effect (parent : Frame) (first : Bool) (ns : List Narrowing)
    (state : Frame × Walk) : BindEffect state (ns.foldl (bindNarrowing parent first) state) := by
  induction ns generalizing state with
  | nil => exact BindEffect.refl _
  | cons n rest ih => exact (bind_effect state.2 state.1 _ _ _).trans (ih _)

/-- Preparing a frame changes its locals or its narrowings. -/
theorem prepare_effect (w : Walk) (frame : Frame) (first : Bool) :
    ∃ narrowings, BindEffect ({ frame with narrowings := narrowings }, w) (w.prepare frame first) := by
  unfold prepare
  split
  · exact ⟨frame.narrowings, bind_effect _ _ _ _ _⟩
  · split
    · exact ⟨frame.narrowings, bind_effect _ _ _ _ _⟩
    · exact ⟨frame.narrowings, BindEffect.refl _⟩
  · split
    · exact ⟨frame.narrowings, BindEffect.refl _⟩
    · split
      · exact ⟨_, BindEffect.refl _⟩
      · exact ⟨frame.narrowings, bindNarrowings_effect _ _ _ _⟩

/-! ## Closing -/

/-- The bindings that outlive a frame, before the variable of a `catch` is removed. -/
def outliving (closed parent : Frame) : OrderedMap Binding :=
  if 1 < closed.paths then closed.locals.map (countBranches closed.paths)
  else if parent.site.ownsPaths then closed.locals.filter fun _ b => outlives closed.returns b
  else closed.locals

theorem leaving_fst (closed parent : Frame) : (leaving closed parent).1 =
      if closed.site.isHandler then
        (outliving closed parent).filter fun _ b => b.role ≠ .caughtError
      else outliving closed parent := by
  unfold leaving outliving
  by_cases branching : 1 < closed.paths <;> by_cases owns : parent.site.ownsPaths <;>
    simp [branching, owns]

/-- Moving bindings into a frame changes nothing but its locals. -/
theorem moveEntries_frame (w : Walk) (closed : Frame) (entries : List (String × Binding))
    (parent : Frame) :
    ∃ locals, entries.foldl (w.moveEntry closed) parent = { parent with locals := locals } := by
  induction entries generalizing parent with
  | nil => exact ⟨parent.locals, rfl⟩
  | cons entry rest ih =>
    obtain ⟨locals, moved⟩ := ih (w.moveEntry closed parent entry)
    exact ⟨locals, moved⟩

/-- The walk after the frame `closed` was closed into `parent`. -/
theorem close_eq {w : Walk} {closed parent : Frame} (stack : w.stack = closed :: parent :: rest) :
    ∃ locals, w.close.stack = { settlePaths closed parent with locals := locals } :: rest ∧
      w.close.findings =
        w.findings ++ unusedFindings (leaving closed (settlePaths closed parent)).2 ∧
      w.close.returns = w.returns ∧ w.close.throws = w.throws := by
  unfold close closeVariables modifyTop
  rw [stack]
  dsimp only
  obtain ⟨locals, moved⟩ := moveEntries_frame
    { w with
      stack := settlePaths closed parent :: rest
      findings := w.findings ++ unusedFindings (leaving closed (settlePaths closed parent)).2 }
    closed (leaving closed (settlePaths closed parent)).1.entries (settlePaths closed parent)
  rw [moved]
  exact ⟨locals, rfl, rfl, rfl, rfl⟩

/-! ## What never shrinks -/

/-- From one moment of a walk to a later one, returns are counted and findings of some kind added. -/
structure Advances (P : Issue → Prop) (before after : Walk) : Prop where
  tally : before.tally ≤ after.tally
  findings : Extends P before.findings after.findings

section

variable {P Q : Issue → Prop} {a b c : Walk}

theorem Advances.refl (w : Walk) : Advances P w w :=
  ⟨Nat.le_refl _, Extends.refl _⟩

theorem Advances.trans (first : Advances P a b) (second : Advances P b c) : Advances P a c :=
  ⟨Nat.le_trans first.tally second.tally, first.findings.trans second.findings⟩

theorem Advances.midway (advance : Advances AboutNames a b) : Advances Midway a b :=
  ⟨advance.tally, advance.findings.mono fun _ => And.left⟩

/-- Only what is counted and reported matters. -/
theorem Advances.of_reports (advance : Advances P a b) (returns : c.returns = b.returns)
    (throws : c.throws = b.throws) (findings : c.findings = b.findings) : Advances P a c := by
  refine ⟨?_, findings ▸ advance.findings⟩
  have same : c.tally = b.tally := by rw [Walk.tally, returns, throws, Walk.tally]
  exact same ▸ advance.tally

end

theorem ReadEffect.advances (effect : ReadEffect before after) :
    Advances AboutNames before.2 after.2 :=
  ⟨by simp [Walk.tally, effect.returns, effect.throws], effect.findings⟩

theorem BindEffect.advances (effect : BindEffect before after) :
    Advances AboutNames before.2 after.2 :=
  ⟨by simp [Walk.tally, effect.returns, effect.throws], effect.findings⟩

theorem openFrame_advances (w : Walk) (frame : Frame) (first : Bool) :
    Advances AboutNames w (w.openFrame frame first) := by
  obtain ⟨narrowings, effect⟩ := prepare_effect w frame first
  exact effect.advances.of_reports rfl rfl rfl

theorem bindTop_advances (w : Walk) (name : Ident) (role : Role) :
    Advances AboutNames w (w.bindTop name role) := by
  unfold bindTop
  split
  · exact Advances.refl w
  · exact (bind_effect w _ name role none).advances.of_reports rfl rfl rfl

theorem unusedFindings_issue (bindings : List Binding) :
    ∀ finding ∈ unusedFindings bindings, ∃ name, finding.issue = .unusedVariable name := by
  intro finding member
  obtain ⟨b, _, rfl⟩ := List.mem_map.1 member
  exact ⟨b.name, rfl⟩

theorem close_advances (w : Walk) : Advances AboutNames w w.close := by
  cases inner : w.stack with
  | nil => simpa [close, inner] using Advances.refl w
  | cons closed outer =>
    cases outer with
    | nil => simpa [close, inner] using Advances.refl w
    | cons parent rest =>
      obtain ⟨_, _, findings, returns, throws⟩ := close_eq inner
      refine ⟨by simp [tally, returns, throws], ⟨_, findings, fun finding member => ?_⟩⟩
      obtain ⟨name, issue⟩ := unusedFindings_issue _ finding member
      rw [issue]
      exact ⟨⟨nofun, nofun⟩, nofun⟩

theorem markReturning_advances (w : Walk) : Advances Midway w w.markReturning := by
  unfold markReturning modifyTop
  split
  · exact Advances.refl w
  · exact (Advances.refl w).of_reports rfl rfl rfl

/-- Visiting a site and noting its return is the start of every step. -/
theorem visit_advances (w : Walk) (site : Site) (paths : Int) :
    Advances Midway w ((w.visit site paths).2.noteReturn site) := by
  refine Advances.trans (b := (w.visit site paths).2) ⟨Nat.le_refl _, Extends.refl _⟩ ?_
  unfold noteReturn
  split
  · exact ⟨Nat.le_refl _, Extends.report _ _ ⟨nofun, nofun⟩⟩
  · split
    · refine Advances.trans ?_ (markReturning_advances _)
      exact ⟨by simp [tally], Extends.refl _⟩
    · refine Advances.trans ?_ (markReturning_advances _)
      exact ⟨by simp [tally], Extends.refl _⟩
    · exact Advances.refl _

theorem readMore_advances (w : Walk) (exprs : List Expr) :
    Advances AboutNames w (w.readMore exprs) := by
  unfold readMore
  split
  · exact Advances.refl w
  · exact (readExprs_effect exprs (_, w)).advances

theorem jump_advances (w : Walk) (label : Ident) : Advances AboutNames w (w.jump label) := by
  unfold jump
  split
  · exact Advances.refl w
  · exact (Advances.refl w).of_reports rfl rfl rfl

end Walk

end ChannelLint
