import ChannelLint.Diagnostic
import ChannelLint.Script.Walk

/-!
# What is known while a function is followed

A walk over a function body visits each statement once. A statement that holds other statements is
open while those are visited; the open ones form a stack of frames, innermost first. A frame holds
the names bound directly in its statement, and how many of its paths may still fall through. The
records of all statements are not kept: a walk keeps its visits, and each frame as it was closed.
-/
namespace ChannelLint

/-- Where a name got its binding from. -/
inductive Role where
  | plain
  /-- The counter of a loop, or the item of a loop over a collection. -/
  | iterator
  /-- The variable of a `catch`. -/
  | caughtError
  deriving DecidableEq, Repr

inductive Validity where
  | valid | invalid
  deriving DecidableEq, Repr

def Validity.opposite : Validity → Validity
  | valid => invalid
  | invalid => valid

def Validity.text : Validity → String
  | valid => "valid"
  | invalid => "invalid"

/-- A condition compares the variable `text` with `invalid`. The variable has the given validity in
the first branch of the `if` that was visited as number `owner`, and the opposite one elsewhere. -/
structure Narrowing where
  text : String
  range : Range
  validity : Validity
  owner : Nat
  deriving DecidableEq, Repr

def Narrowing.opposite (n : Narrowing) : Narrowing :=
  { n with validity := n.validity.opposite }

structure Binding where
  /-- The name as it was written. -/
  name : String
  range : Range
  role : Role := .plain
  /-- Some path that leads here does not bind the name. -/
  unsettled : Bool := false
  used : Bool := false
  /-- On how many branches of the open statement the name is bound. -/
  branchesMet : Nat := 1
  narrowed : Option Narrowing := none
  /-- When the binding was made, counted together with the labels. -/
  order : Nat := 0
  /-- The number of the statement that holds the binding. -/
  owner : Option Nat := none
  deriving DecidableEq, Repr

/-- What a walk visits: a block, a statement, or the handler of a `try`. -/
inductive Site where
  | block (block : Block)
  | stmt (stmt : Stmt)
  | handler (handler : Catch)

namespace Site

def range : Site → Range
  | block b => b.range
  | stmt s => s.range
  | handler c => c.range

def isIf : Site → Bool
  | stmt (.ifThen _) => true
  | _ => false

def isTry : Site → Bool
  | stmt (.tryCatch ..) => true
  | _ => false

def isHandler : Site → Bool
  | handler _ => true
  | _ => false

def isFor : Site → Bool
  | stmt (.forTo ..) => true
  | _ => false

def isLoop : Site → Bool
  | stmt (.forTo ..) | stmt (.forEach ..) | stmt (.whileDo ..) => true
  | _ => false

/-- The parts of these statements are paths that exclude each other. -/
def ownsPaths (s : Site) : Bool :=
  s.isIf || s.isTry || s.isHandler

/-- How many paths a statement splits into. -/
def paths (loopsBranch : Bool) (s : Site) : Int :=
  if s.isIf || s.isTry || (s.isLoop && loopsBranch) then 2 else 1

end Site

structure Frame where
  site : Site
  /-- The number of the statement, in the order of the visits. -/
  index : Nat
  /-- The number of the innermost statement that was open when this one was visited. -/
  parent : Option Nat
  /-- Paths that are not known to end with a return. Code that cannot be reached may count below
  zero. -/
  paths : Int
  returns : Bool := false
  locals : OrderedMap Binding := ∅
  narrowings : List Narrowing := []

/-- A name that is read without a binding; what it means depends on the scope. -/
structure FreeUse where
  name : String
  range : Range
  called : Bool
  deriving DecidableEq, Repr

structure ReturnSeen where
  range : Range
  hasValue : Bool
  deriving DecidableEq, Repr

/-- A frame as it was when it closed, and the frame around it right after. -/
structure Closing where
  closed : Frame
  parent : Option Frame

structure Visit where
  site : Site
  parent : Option Nat

/-- The state of a walk. Lists of what was seen are in the order of the walk. -/
structure Walk where
  params : OrderedMap Binding
  stack : List Frame := []
  visits : List Visit := []
  order : Nat := 0
  labels : OrderedMap Nat := ∅
  lastLabel : Option Nat := none
  returns : List ReturnSeen := []
  throws : Nat := 0
  findings : List Finding := []
  freeUses : List FreeUse := []
  closings : List Closing := []

namespace Walk

def report (w : Walk) (issue : Issue) (range : Range) : Walk :=
  { w with findings := w.findings ++ [⟨issue, range⟩] }

/-- A new frame for a visited statement. It is not open yet. -/
def visit (w : Walk) (site : Site) (paths : Int) : Frame × Walk :=
  let parent := w.stack.head?.map (·.index)
  ({ site, index := w.visits.length, parent, paths },
    { w with visits := w.visits ++ [⟨site, parent⟩] })

/-- Changes the innermost open frame. -/
def modifyTop (w : Walk) (f : Frame → Frame) : Walk :=
  match w.stack with
  | [] => w
  | top :: rest => { w with stack := f top :: rest }

end Walk

end ChannelLint
