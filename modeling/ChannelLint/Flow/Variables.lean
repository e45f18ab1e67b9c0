import ChannelLint.Flow.Frame

/-!
# Variables

An assignment binds a name in the innermost open frame. A read looks for the name among the
parameters, then in the open frames from the inside out. When a frame closes, its bindings move to
the frame around it, and those that were not made on every path become unsettled. A binding is a
value, not shared between frames: a read marks it in each frame where it counts (`markRead`).
-/
namespace ChannelLint

namespace Binding

/-- The binding of a name that moves out of a closed frame into the frame around it.
`outer` is the binding it replaces there, `branches` says whether the frame around it counts
branches, `usedBefore` whether an earlier run of a loop may read the name. -/
def moveOut (b : Binding) (outer : Option Binding) (branches usedBefore : Bool) (owner : Nat) :
    Binding :=
  let unsettled := b.unsettled || b.role = .iterator
  { b with
    unsettled := match outer with
      | none => unsettled
      | some o => if branches then o.unsettled || unsettled else o.unsettled && unsettled
    branchesMet := match outer with
      | none => b.branchesMet
      | some o => if branches then o.branchesMet + 1 else b.branchesMet
    role := match outer with
      | none => b.role
      | some o => if o.role = .iterator then .iterator else b.role
    used := b.used || usedBefore
    owner := some owner }

end Binding

namespace Walk

/-! ## Bindings -/

/-- The innermost binding of `key`, in `block` or in an open frame. -/
def visible? (w : Walk) (key : String) (block : Frame) : Option Binding :=
  (block :: w.stack).findSome? (·.locals.find? key)

/-- A name has to be written the way it was first written. -/
def checkCase (w : Walk) (known : Option Binding) (name : Ident) : Walk :=
  match known with
  | some b => if b.name = name.text then w else w.report (.caseMismatch name.text b.name) name.range
  | none => w

/-- Binds a name in `block`. A parameter keeps its binding. -/
def bind (w : Walk) (block : Frame) (name : Ident) (role : Role) (narrowed : Option Narrowing) :
    Frame × Walk :=
  let key := Text.lower name.text
  let order := w.order + 1
  let w := { w with order }
  match w.params.find? key with
  | some param => (block, w.checkCase (some param) name)
  | none =>
    let binding : Binding :=
      { name := name.text, range := name.range, role, used := narrowed.isSome, narrowed, order,
        owner := some block.index }
    ({ block with locals := block.locals.insert key binding },
      w.checkCase (w.visible? key block) name)

/-- Binds a name in the innermost open frame. -/
def bindTop (w : Walk) (name : Ident) (role : Role) : Walk :=
  match w.stack with
  | [] => w
  | top :: rest =>
    let (top, w) := w.bind top name role none
    { w with stack := top :: rest }

/-- The most specific binding of a name, and the first one that is not unsettled. -/
def resolveIn (key : String) : List Frame → Option Binding × Option Binding
  | [] => (none, none)
  | frame :: rest =>
    match frame.locals.find? key with
    | none => resolveIn key rest
    | some b => if b.unsettled then (some b, (resolveIn key rest).2) else (some b, some b)

def resolve (w : Walk) (key : String) : Option Binding × Option Binding :=
  match w.params.find? key with
  | some param => (some param, some param)
  | none => resolveIn key w.stack

/-! ## Reads -/

def markUsed (key : String) (frame : Frame) : Frame :=
  { frame with locals := frame.locals.modify key fun b => { b with used := true } }

/-- Marks the most specific binding of a name and the first one that is not unsettled. -/
def markRead (key : String) (specific : Bool) : List Frame → List Frame
  | [] => []
  | frame :: rest =>
    match frame.locals.find? key with
    | none => frame :: markRead key specific rest
    | some b =>
      if !b.unsettled then markUsed key frame :: rest
      else (if specific then markUsed key frame else frame) :: markRead key false rest

def markReadAll (w : Walk) (key : String) : Walk :=
  if w.params.contains key then
    { w with params := w.params.modify key fun b => { b with used := true } }
  else { w with stack := markRead key true w.stack }

def isInvalid : Expr → Bool
  | .literal .invalid _ _ => true
  | _ => false

/-- What the condition of an `if` says about a variable that stands directly in `parent`:
a comparison with `invalid` settles its validity. -/
def comparedValidity? : Option Expr → Option (Option Validity)
  | some (.binary left op right _) =>
    if isInvalid left || isInvalid right then
      some (match op with
        | .equal => some .invalid
        | .notEqual => some .valid
        | _ => none)
    else none
  | _ => none

/-- Whether the read of an unsettled variable in the condition of `frame` is a test of its
validity, or follows one; a test is added to the narrowings of the frame. -/
def narrow (b : Binding) (parent : Option Expr) (frame : Frame) : Bool × Frame :=
  if !frame.site.isIf then (false, frame)
  else match comparedValidity? parent with
    | none =>
      (frame.narrowings.any (fun n => Text.lower n.text = Text.lower b.name), frame)
    | some none => (false, frame)
    | some (some validity) =>
      (true, { frame with
        narrowings := frame.narrowings ++ [⟨b.name, b.range, validity, frame.index⟩] })

/-- Reads a name in a statement whose frame is `frame`. -/
def readName (w : Walk) (frame : Frame) (name : Ident) (called : Bool) (parent : Option Expr) :
    Frame × Walk :=
  let key := Text.lower name.text
  if key = "m" then (frame, w)
  else match w.resolve key with
    | (none, _) =>
      (frame, { w with freeUses := w.freeUses ++ [⟨name.text, name.range, called⟩] })
    | (some b, safe) =>
      let w := (w.markReadAll key).checkCase (some b) name
      if safe.isSome then (frame, w)
      else if b.role = .iterator then (frame, w.report (.iteratorOutsideLoop name.text) name.range)
      else match narrow b parent frame with
        | (true, frame) => (frame, w)
        | (false, frame) => (frame, w.report (.unassignedPath name.text) name.range)

/-- Visits one expression. -/
def readNode (state : Frame × Walk) (node : Expr × Option Expr) : Frame × Walk :=
  match node.1 with
  | .var name called => state.2.readName state.1 name called node.2
  | _ => state

/-- Visits an expression and everything inside it. -/
def readExpr (state : Frame × Walk) (e : Expr) : Frame × Walk :=
  (e.preorder none).foldl readNode state

/-! ## Labels and jumps -/

def noteLabel (w : Walk) (name : Ident) : Walk :=
  let order := w.order + 1
  { w with order, labels := w.labels.insert (Text.lower name.text) order, lastLabel := some order }

/-- A jump settles every binding made since its label; an unknown label counts as the last one.
Before the first label a jump has no effect. -/
def jump (w : Walk) (label : Ident) : Walk :=
  match w.lastLabel with
  | none => w
  | some last =>
    let target := (w.labels.find? (Text.lower label.text)).getD last
    let settle (b : Binding) : Binding :=
      if b.unsettled && target ≤ b.order then { b with unsettled := false, used := true } else b
    { w with stack := w.stack.map fun frame => { frame with locals := frame.locals.map settle } }

/-! ## Opening and closing -/

/-- Binds what the frame around says about validity. `first` is set for the first branch. -/
def bindNarrowing (parent : Frame) (first : Bool) (state : Frame × Walk) (n : Narrowing) :
    Frame × Walk :=
  let narrowed := if first && n.owner = parent.index then n else n.opposite
  state.2.bind state.1 ⟨n.text, n.range⟩ .plain (some narrowed)

/-- Prepares a frame that is about to open. `first` is set for the first branch of an `if`. -/
def prepare (w : Walk) (frame : Frame) (first : Bool) : Frame × Walk :=
  match frame.site with
  | .stmt (.forEach item ..) => w.bind frame item .iterator none
  | .handler handler =>
    match handler.caught with
    | some name => w.bind frame name .caughtError none
    | none => (frame, w)
  | _ =>
    match w.stack with
    | [] => (frame, w)
    | parent :: _ =>
      if frame.site.isIf && parent.site.isIf then
        ({ frame with narrowings := parent.narrowings ++ frame.narrowings }, w)
      else parent.narrowings.foldl (bindNarrowing parent first) (frame, w)

def openFrame (w : Walk) (frame : Frame) (first : Bool) : Walk :=
  let (frame, w) := w.prepare frame first
  { w with stack := frame :: w.stack }

/-- Findings for bindings that were never read. -/
def unusedFindings (bindings : List Binding) : List Finding :=
  (bindings.filter fun b => !b.used && b.role = .plain).map fun b =>
    ⟨.unusedVariable b.name, b.range⟩

/-- Bindings that were not met on every branch become unsettled. -/
def countBranches (paths : Int) (b : Binding) : Binding :=
  { b with unsettled := b.unsettled || (b.branchesMet : Int) < paths, branchesMet := 1 }

/-- Whether a binding outlives a branch. Behind a branch that returns only the knowledge that a
variable is invalid does; behind any other branch all but such knowledge. -/
def outlives (returns : Bool) (b : Binding) : Bool :=
  if returns then
    match b.narrowed with
    | some n => n.validity = .invalid
    | none => false
  else b.narrowed.isNone

/-- The bindings that leave a closed frame, and those that end with it. -/
def leaving (closed parent : Frame) : OrderedMap Binding × List Binding :=
  let (kept, dropped) :=
    if 1 < closed.paths then (closed.locals.map (countBranches closed.paths), [])
    else if parent.site.ownsPaths then
      (closed.locals.filter fun _ b => outlives closed.returns b,
        if closed.returns then
          (closed.locals.filter fun _ b => !outlives closed.returns b).values
        else [])
    else (closed.locals, [])
  (if closed.site.isHandler then kept.filter fun _ b => b.role ≠ .caughtError else kept, dropped)

/-- Moves one binding into the frame around. -/
def moveEntry (w : Walk) (closed : Frame) (parent : Frame) (entry : String × Binding) : Frame :=
  let (key, b) := entry
  let branches := parent.site.isIf || parent.site.isTry
  let usedBefore := closed.site.isLoop &&
    (((w.resolve key).1).map (·.used)).getD false
  { parent with
    locals := parent.locals.insert key
      (b.moveOut (parent.locals.find? key) branches usedBefore parent.index) }

/-- Closes the variables of a frame inside `parent`, which is the innermost frame of `w`. -/
def closeVariables (w : Walk) (closed parent : Frame) : Walk :=
  let (kept, dropped) := leaving closed parent
  let w := { w with findings := w.findings ++ unusedFindings dropped }
  w.modifyTop fun parent => kept.entries.foldl (w.moveEntry closed) parent

end Walk

end ChannelLint
