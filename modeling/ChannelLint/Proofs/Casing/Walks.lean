import ChannelLint.Proofs.Casing.Respelling
import ChannelLint.Proofs.Moves
import ChannelLint.Proofs.Path

/-!
# Respelled states of a walk

A walk looks names up in lower case, so a respelling changes none of its steps: a step from a
respelled state leads to the respelled state. This module says so for the steps that report nothing.
-/
namespace ChannelLint

open List

def FreeUse.ident (u : FreeUse) : Ident :=
  ⟨u.name, u.range⟩

/-! ## Respelled states -/

section

variable (ρ : Respelling)

def Narrowing.respell (n : Narrowing) : Narrowing :=
  { n with text := (ρ.name n.ident).text }

def Binding.respell (b : Binding) : Binding :=
  { b with name := (ρ.name b.ident).text, narrowed := b.narrowed.map (·.respell ρ) }

def Site.respell : Site → Site
  | .block b => .block (b.respell ρ)
  | .stmt s => .stmt (s.respell ρ)
  | .handler c => .handler (c.respell ρ)

def Frame.respell (frame : Frame) : Frame :=
  { frame with
    site := frame.site.respell ρ
    locals := frame.locals.map (·.respell ρ)
    narrowings := frame.narrowings.map (·.respell ρ) }

def FreeUse.respell (u : FreeUse) : FreeUse :=
  { u with name := (ρ.name ⟨u.name, u.range⟩).text }

def Closing.respell (c : Closing) : Closing :=
  ⟨c.closed.respell ρ, c.parent.map (·.respell ρ)⟩

def Visit.respell (v : Visit) : Visit :=
  ⟨v.site.respell ρ, v.parent⟩

/-- Findings carry the name that stands at their range. -/
def Finding.respell (f : Finding) : Finding :=
  let spelled (name : String) : String := (ρ.name ⟨name, f.range⟩).text
  match f.issue with
  | .iteratorOutsideLoop name => { f with issue := .iteratorOutsideLoop (spelled name) }
  | .unassignedPath name => { f with issue := .unassignedPath (spelled name) }
  | .unusedVariable name => { f with issue := .unusedVariable (spelled name) }
  | _ => f

/-- A respelled walk that has reported the given findings. -/
def Walk.respell (w : Walk) (findings : List Finding) : Walk :=
  { w with
    params := w.params.map (·.respell ρ)
    stack := w.stack.map (·.respell ρ)
    visits := w.visits.map (·.respell ρ)
    findings
    freeUses := w.freeUses.map (·.respell ρ)
    closings := w.closings.map (·.respell ρ) }

@[simp] theorem Binding.ident_respell (b : Binding) : (b.respell ρ).ident = ρ.name b.ident := by
  show (⟨(ρ.name b.ident).text, b.ident.range⟩ : Ident) = _
  rw [← ρ.range_name]

@[simp] theorem Narrowing.ident_respell (n : Narrowing) : (n.respell ρ).ident = ρ.name n.ident := by
  show (⟨(ρ.name n.ident).text, n.ident.range⟩ : Ident) = _
  rw [← ρ.range_name]

@[simp] theorem Finding.range_respell (f : Finding) : (f.respell ρ).range = f.range := by
  unfold Finding.respell
  split <;> rfl

@[simp] theorem Finding.code_respell (f : Finding) : (f.respell ρ).issue.code = f.issue.code := by
  unfold Finding.respell
  split <;> simp [*, Issue.code]

@[simp] theorem Finding.tags_respell (f : Finding) : (f.respell ρ).issue.tags = f.issue.tags := by
  unfold Finding.respell
  split <;> simp [*, Issue.tags]

def Chunk.respell : Chunk → Chunk
  | .stmt s => .stmt (s.respell ρ)
  | .stmts statements => .stmts (Stmt.respellAll ρ statements)
  | .block around b => .block around (b.respell ρ)
  | .branch around i => .branch around (i.respell ρ)
  | .handler c => .handler (c.respell ρ)
  | .nothing => .nothing

theorem Else.chunk_respell (e : Else) : (e.respell ρ).chunk = e.chunk.respell ρ := by
  cases e <;> rfl

theorem Stmt.Loops.respell {s : Stmt} {body : Block} (loops : s.Loops body) :
    (s.respell ρ).Loops (body.respell ρ) := by
  cases loops <;> constructor

namespace Site

@[simp] theorem range_respell (s : Site) : (s.respell ρ).range = s.range := by
  cases s with
  | block b => cases b; rfl
  | stmt s => exact Stmt.range_respell ρ s
  | handler c => cases c; rfl

@[simp] theorem isIf_respell (s : Site) : (s.respell ρ).isIf = s.isIf := by
  rcases s with b | s | c
  · rfl
  · cases s <;> rfl
  · rfl

@[simp] theorem isTry_respell (s : Site) : (s.respell ρ).isTry = s.isTry := by
  rcases s with b | s | c
  · rfl
  · cases s <;> rfl
  · rfl

@[simp] theorem isFor_respell (s : Site) : (s.respell ρ).isFor = s.isFor := by
  rcases s with b | s | c
  · rfl
  · cases s <;> rfl
  · rfl

@[simp] theorem isLoop_respell (s : Site) : (s.respell ρ).isLoop = s.isLoop := by
  rcases s with b | s | c
  · rfl
  · cases s <;> rfl
  · rfl

theorem front_respell (s : Site) : (s.respell ρ).front = s.front.map (·.respell ρ) := by
  rcases s with b | s | c
  · rfl
  · have same := Stmt.exprs_respell ρ s
    cases s <;> first | exact same | rfl
  · rfl

theorem binds?_respell (s : Site) : (s.respell ρ).binds? = s.binds?.map ρ.name := by
  rcases s with b | s | c
  · rfl
  · cases s with
    | assign a => cases a; rfl
    | _ => rfl
  · rfl

theorem isLeaf_respell (s : Site) : (s.respell ρ).children.isEmpty = s.children.isEmpty := by
  rcases s with ⟨statements, range⟩ | s | c
  · cases statements <;> rfl
  · cases s <;> rfl
  · rfl

@[simp] theorem isHandler_respell (s : Site) : (s.respell ρ).isHandler = s.isHandler := by
  cases s <;> rfl

@[simp] theorem ownsPaths_respell (s : Site) : (s.respell ρ).ownsPaths = s.ownsPaths := by
  simp [ownsPaths]

@[simp] theorem paths_respell (loopsBranch : Bool) (s : Site) :
    (s.respell ρ).paths loopsBranch = s.paths loopsBranch := by
  simp [paths]

end Site

end

namespace Walk

variable (ρ : Respelling) (w : Walk) (fs : List Finding)

/-! ## Steps that report nothing -/

theorem head?_respell : (w.respell ρ fs).stack.head? = w.stack.head?.map (·.respell ρ) :=
  head?_map

theorem visit_respell (site : Site) (paths : Int) : (w.respell ρ fs).visit (site.respell ρ) paths =
      ((w.visit site paths).1.respell ρ, (w.visit site paths).2.respell ρ fs) := by
  unfold visit
  rw [head?_respell]
  simp only [respell, length_map, Option.map_map, map_append, map_cons, map_nil]
  rfl

theorem modifyTop_respell {f g : Frame → Frame}
    (turns : ∀ frame, g (frame.respell ρ) = (f frame).respell ρ) :
    (w.respell ρ fs).modifyTop g = (w.modifyTop f).respell ρ fs := by
  unfold modifyTop
  cases open' : w.stack with
  | nil => simp [respell, open']
  | cons top rest => simp [respell, open', turns]

theorem markReturning_respell : (w.respell ρ fs).markReturning = w.markReturning.respell ρ fs := by
  apply modifyTop_respell
  intro frame
  show (if frame.paths = 1 then _ else _) = _
  split <;> rfl

theorem noteLabel_respell (name : Ident) :
    (w.respell ρ fs).noteLabel (ρ.label name) = (w.noteLabel name).respell ρ fs := by
  unfold noteLabel
  simp only [Respelling.label, ρ.lower_text]
  rfl

theorem jump_respell (label : Ident) :
    (w.respell ρ fs).jump (ρ.label label) = (w.jump label).respell ρ fs := by
  have sameLast : (w.respell ρ fs).lastLabel = w.lastLabel := rfl
  cases seen : w.lastLabel with
  | none => simp only [jump, sameLast, seen]
  | some last =>
    simp only [jump, sameLast, seen, Respelling.label, ρ.lower_text]
    simp only [respell, map_map, mk.injEq, and_true, true_and]
    apply map_congr_left
    intro frame _
    simp only [Function.comp_def, Frame.respell, OrderedMap.map_map, Frame.mk.injEq, and_true,
      true_and]
    congr 1
    funext b
    rw [apply_ite (Binding.respell ρ)]
    rfl

theorem find?_respell (frame : Frame) (key : String) :
    (frame.respell ρ).locals.find? key = (frame.locals.find? key).map (·.respell ρ) :=
  OrderedMap.find?_map _ _ _

theorem visible?_respell (key : String) (block : Frame) :
    (w.respell ρ fs).visible? key (block.respell ρ) =
      (w.visible? key block).map (·.respell ρ) := by
  have found (stack : List Frame) : (stack.map (·.respell ρ)).findSome? (·.locals.find? key) =
      (stack.findSome? (·.locals.find? key)).map (·.respell ρ) := by
    induction stack with
    | nil => rfl
    | cons frame rest ih =>
      simp only [map_cons, findSome?_cons, find?_respell, ih]
      cases frame.locals.find? key <;> rfl
  exact found (block :: w.stack)

theorem resolveIn_respell (key : String) (stack : List Frame) :
    resolveIn key (stack.map (·.respell ρ)) =
      ((resolveIn key stack).1.map (·.respell ρ), (resolveIn key stack).2.map (·.respell ρ)) := by
  induction stack with
  | nil => rfl
  | cons frame rest ih =>
    simp only [map_cons, resolveIn, find?_respell]
    cases frame.locals.find? key with
    | none => exact ih
    | some b =>
      simp only [Option.map_some]
      show (if b.unsettled then _ else _) = _
      split
      · simp [ih]
      · simp

theorem resolve_respell (key : String) : (w.respell ρ fs).resolve key =
      ((w.resolve key).1.map (·.respell ρ), (w.resolve key).2.map (·.respell ρ)) := by
  unfold resolve
  simp only [respell, OrderedMap.find?_map]
  cases w.params.find? key with
  | none => exact resolveIn_respell ρ key w.stack
  | some b => rfl

theorem markUsed_respell (key : String) (frame : Frame) :
    markUsed key (frame.respell ρ) = (markUsed key frame).respell ρ := by
  unfold markUsed Frame.respell
  simp only [Frame.mk.injEq, and_true, true_and]
  exact OrderedMap.modify_map _ _ fun _ => rfl

theorem markRead_respell (key : String) (specific : Bool) (stack : List Frame) :
    markRead key specific (stack.map (·.respell ρ)) =
      (markRead key specific stack).map (·.respell ρ) := by
  induction stack generalizing specific with
  | nil => rfl
  | cons frame rest ih =>
    simp only [map_cons, markRead, find?_respell]
    cases frame.locals.find? key with
    | none => simp [ih]
    | some b =>
      simp only [Option.map_some]
      show (if !b.unsettled then _ else _) = _
      split
      · simp [markUsed_respell]
      · cases specific <;> simp [ih, markUsed_respell]

theorem markReadAll_respell (key : String) :
    (w.respell ρ fs).markReadAll key = (w.markReadAll key).respell ρ fs := by
  unfold markReadAll
  simp only [respell, OrderedMap.contains_map]
  split
  · simp only [mk.injEq, and_true]
    exact OrderedMap.modify_map _ _ fun _ => rfl
  · simp only [markRead_respell]

theorem isInvalid_respell (e : Expr) : isInvalid (e.respell ρ) = isInvalid e := by
  cases e with
  | literal kind => cases kind <;> rfl
  | _ => rfl

theorem comparedValidity?_respell (parent : Option Expr) :
    comparedValidity? (parent.map (·.respell ρ)) = comparedValidity? parent := by
  cases parent with
  | none => rfl
  | some e =>
    cases e with
    | binary left op right range =>
      simp only [Option.map_some, Expr.respell, comparedValidity?, isInvalid_respell]
    | _ => rfl

theorem narrow_respell (b : Binding) (parent : Option Expr) (frame : Frame) :
    narrow (b.respell ρ) (parent.map (·.respell ρ)) (frame.respell ρ) =
      ((narrow b parent frame).1, (narrow b parent frame).2.respell ρ) := by
  unfold narrow
  simp only [comparedValidity?_respell]
  show (if !(frame.site.respell ρ).isIf then _ else _) = _
  rw [Site.isIf_respell]
  split
  · rfl
  · split
    · have same : ∀ n : Narrowing, Text.lower (n.respell ρ).text = Text.lower n.text :=
        fun n => ρ.lower_name n.ident
      have sameName : Text.lower (b.respell ρ).name = Text.lower b.name := ρ.lower_name b.ident
      simp [Frame.respell, any_map, Function.comp_def, same, sameName]
    · rfl
    · simp [Frame.respell, Binding.respell, Narrowing.respell, Narrowing.ident, Binding.ident]

/-! ## Closing a frame -/

theorem settlePaths_respell (closed parent : Frame) :
    settlePaths (closed.respell ρ) (parent.respell ρ) = (settlePaths closed parent).respell ρ := by
  have owns (frame : Frame) : (frame.respell ρ).site.ownsPaths = frame.site.ownsPaths :=
    Site.ownsPaths_respell ρ frame.site
  unfold settlePaths
  rw [owns, owns, apply_ite (Frame.respell ρ), apply_ite (Frame.respell ρ),
    apply_ite (Frame.respell ρ)]
  rfl

theorem outlives_respell (returns : Bool) (b : Binding) :
    outlives returns (b.respell ρ) = outlives returns b := by
  simp only [outlives, Binding.respell]
  cases b.narrowed <;> rfl

theorem leaving_respell (closed parent : Frame) : leaving (closed.respell ρ) (parent.respell ρ) =
      ((leaving closed parent).1.map (·.respell ρ),
        (leaving closed parent).2.map (·.respell ρ)) := by
  have counted : (closed.locals.map (·.respell ρ)).map (countBranches closed.paths) =
      (closed.locals.map (countBranches closed.paths)).map (·.respell ρ) := by
    rw [OrderedMap.map_map, OrderedMap.map_map]
    rfl
  have outliving : (closed.locals.map (·.respell ρ)).filter (fun _ b => outlives closed.returns b) =
      (closed.locals.filter fun _ b => outlives closed.returns b).map (·.respell ρ) :=
    OrderedMap.filter_map _ fun _ b => outlives_respell ρ closed.returns b
  have ending : (closed.locals.map (·.respell ρ)).filter (fun _ b => !outlives closed.returns b) =
      (closed.locals.filter fun _ b => !outlives closed.returns b).map (·.respell ρ) :=
    OrderedMap.filter_map _ fun _ b => by rw [outlives_respell]
  have handled (m : OrderedMap Binding) :
      (m.map (·.respell ρ)).filter (fun _ b => b.role ≠ .caughtError) =
        (m.filter fun _ b => b.role ≠ .caughtError).map (·.respell ρ) :=
    OrderedMap.filter_map _ fun _ _ => rfl
  unfold leaving
  simp only [Frame.respell, Site.ownsPaths_respell, Site.isHandler_respell, counted, outliving,
    ending]
  split_ifs <;> simp only [handled, OrderedMap.values_map, map_nil]

theorem moveOut_respell (b : Binding) (outer : Option Binding) (branches usedBefore : Bool)
    (owner : Nat) : (b.respell ρ).moveOut (outer.map (·.respell ρ)) branches usedBefore owner =
      (b.moveOut outer branches usedBefore owner).respell ρ := by
  cases outer <;> rfl

theorem moveEntry_respell (closed parent : Frame) (entry : String × Binding) :
    (w.respell ρ fs).moveEntry (closed.respell ρ) (parent.respell ρ) (entry.1, entry.2.respell ρ) =
      (w.moveEntry closed parent entry).respell ρ := by
  obtain ⟨key, b⟩ := entry
  unfold moveEntry
  dsimp only
  rw [resolve_respell]
  simp only [Frame.respell, Site.isIf_respell, Site.isTry_respell, Site.isLoop_respell,
    OrderedMap.find?_map, moveOut_respell, OrderedMap.map_insert, Option.map_map, Function.comp_def]
  rfl

theorem moveEntries_respell (closed : Frame) (entries : List (String × Binding)) (parent : Frame) :
    (entries.map fun (k, b) => (k, b.respell ρ)).foldl
        ((w.respell ρ fs).moveEntry (closed.respell ρ)) (parent.respell ρ) =
      (entries.foldl (w.moveEntry closed) parent).respell ρ := by
  induction entries generalizing parent with
  | nil => rfl
  | cons entry rest ih =>
    rw [map_cons, foldl_cons, moveEntry_respell, ih, foldl_cons]

theorem unusedFindings_respell (bindings : List Binding) :
    unusedFindings (bindings.map (·.respell ρ)) = (unusedFindings bindings).map (·.respell ρ) := by
  unfold unusedFindings
  rw [filter_map, map_map, map_map]
  rfl

end Walk

end ChannelLint
