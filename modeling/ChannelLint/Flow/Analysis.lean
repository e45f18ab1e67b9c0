import ChannelLint.Flow.Returns
import ChannelLint.Flow.Variables

/-!
# Following a function

`Func.flow` walks the body of a function once. For each statement the returns are noted first, then
labels and jumps; its expressions are read, and it opens when its first inner statement comes. The
value of an assignment is read before its name is bound. A statement that was opened closes behind
its last part. Functions inside the body are not entered. Each kind of statement has its parts
written out (`followStmt`, `followIf`, `followCatch`) in place of one loop over mixed children.
-/
namespace ChannelLint

namespace Walk

/-- Closes the innermost frame into the one around it. -/
def close (w : Walk) : Walk :=
  match w.stack with
  | closed :: parent :: rest =>
    let parent := settlePaths closed parent
    let w := closeVariables { w with stack := parent :: rest } closed parent
    { w with closings := w.closings ++ [⟨closed, w.stack.head?⟩] }
  | _ => w

/-- Closes the outermost frame of a function. -/
def closeFunction (w : Walk) (f : Func) : Walk :=
  match w.stack with
  | [last] =>
    { w with
      stack := []
      findings := w.findings ++ returnFindings f last w.returns w.throws ++
        unusedFindings last.locals.values
      closings := w.closings ++ [⟨last, none⟩] }
  | _ => w

/-- Visits a statement without inner statements. -/
def simple (w : Walk) (s : Stmt) : Walk :=
  let (frame, w) := w.visit (.stmt s) 1
  let w := w.noteReturn (.stmt s)
  let w := match s with
    | .label name _ => w.noteLabel name
    | .goto label _ => w.jump label
    | _ => w
  (s.exprs.foldl readExpr (frame, w)).2

/-- Visits an assignment: its value is read, then its name is bound. The counter of a loop is an
iterator. -/
def assign (w : Walk) (a : Assign) : Walk :=
  let (frame, w) := w.visit (.stmt (.assign a)) 1
  let w := w.noteReturn (.stmt (.assign a))
  let w := (readExpr (frame, w) a.value).2
  let counts := (w.stack.head?.map (·.site.isFor)).getD false
  w.bindTop a.name (if counts then .iterator else .plain)

/-- Visits the declaration of an array: its sizes are read, then its name is bound. -/
def dim (w : Walk) (name : Ident) (sizes : List Expr) (range : Range) : Walk :=
  let site := Site.stmt (.dim name sizes range)
  let (frame, w) := w.visit site 1
  let w := w.noteReturn site
  (sizes.foldl readExpr (frame, w)).2.bindTop name .plain

/-- Visits a statement that will open, and reads the expressions in front of its first part. -/
def enter (w : Walk) (loopsBranch : Bool) (site : Site) (exprs : List Expr) : Walk :=
  let (frame, w) := w.visit site (site.paths loopsBranch)
  let (frame, w) := exprs.foldl readExpr (frame, w.noteReturn site)
  w.openFrame frame false

/-- Reads expressions of the statement that opened last. -/
def readMore (w : Walk) (exprs : List Expr) : Walk :=
  match w.stack with
  | [] => w
  | top :: _ => (exprs.foldl readExpr (top, w)).2

/-- Visits a block. A block without statements does not open. `first` is set for the first branch
of an `if`. -/
def enterBlock (w : Walk) (b : Block) (first : Bool) : Walk :=
  let (frame, w) := w.visit (.block b) 1
  let w := w.noteReturn (.block b)
  if b.statements.isEmpty then w else w.openFrame frame first

def leaveBlock (w : Walk) (b : Block) : Walk :=
  if b.statements.isEmpty then w else w.close

mutual

/-- Visits a statement. -/
def followStmt (loopsBranch : Bool) (w : Walk) : Stmt → Walk
  | .assign a => w.assign a
  | .dim name sizes range => w.dim name sizes range
  | .ifThen branch => followIf loopsBranch w branch
  | .forTo counter limit step body range =>
    let w := w.enter loopsBranch (.stmt (.forTo counter limit step body range)) []
    let w := (w.assign counter).readMore (limit :: step.toList)
    (followBlock loopsBranch w false body).close
  | .forEach item target body range =>
    let w := w.enter loopsBranch (.stmt (.forEach item target body range)) [target]
    (followBlock loopsBranch w false body).close
  | .whileDo condition body range =>
    let w := w.enter loopsBranch (.stmt (.whileDo condition body range)) [condition]
    (followBlock loopsBranch w false body).close
  | .tryCatch body handler range =>
    let w := w.enter loopsBranch (.stmt (.tryCatch body handler range)) []
    (followCatch loopsBranch (followBlock loopsBranch w false body) handler).close
  | .setField object name value range => w.simple (.setField object name value range)
  | .setItem object key value range => w.simple (.setItem object key value range)
  | .step target op range => w.simple (.step target op range)
  | .perform call range => w.simple (.perform call range)
  | .print values range => w.simple (.print values range)
  | .exit loop range => w.simple (.exit loop range)
  | .ret value range => w.simple (.ret value range)
  | .throw value range => w.simple (.throw value range)
  | .label name range => w.simple (.label name range)
  | .goto label range => w.simple (.goto label range)
  | .end range => w.simple (.end range)
  | .stop range => w.simple (.stop range)

def followStmts (loopsBranch : Bool) (w : Walk) : List Stmt → Walk
  | [] => w
  | s :: rest => followStmts loopsBranch (followStmt loopsBranch w s) rest

def followBlock (loopsBranch : Bool) (w : Walk) (first : Bool) : Block → Walk
  | ⟨statements, range⟩ =>
    let w := w.enterBlock ⟨statements, range⟩ first
    (followStmts loopsBranch w statements).leaveBlock ⟨statements, range⟩

def followIf (loopsBranch : Bool) (w : Walk) : If → Walk
  | ⟨condition, onTrue, onFalse, range, inline⟩ =>
    let site := Site.stmt (.ifThen ⟨condition, onTrue, onFalse, range, inline⟩)
    let w := w.enter loopsBranch site [condition]
    (followElse loopsBranch (followBlock loopsBranch w true onTrue) onFalse).close

def followElse (loopsBranch : Bool) (w : Walk) : Else → Walk
  | .absent => w
  | .block body => followBlock loopsBranch w false body
  | .elseIf branch => followIf loopsBranch w branch

def followCatch (loopsBranch : Bool) (w : Walk) : Catch → Walk
  | ⟨caught, body, range⟩ =>
    let w := w.enter loopsBranch (.handler ⟨caught, body, range⟩) []
    (followBlock loopsBranch w false body).close

end

/-- A name that every function has. -/
def givenBinding (name : String) : Binding :=
  { name, range := .empty, used := true }

def addParam (params : OrderedMap Binding) (p : Param) : OrderedMap Binding :=
  params.insert (Text.lower p.name.text) { name := p.name.text, range := p.name.range }

/-- `m`, the parameters, and inside a method `super`. -/
def paramBindings (f : Func) : OrderedMap Binding :=
  let own := f.params.foldl addParam ((∅ : OrderedMap Binding).insert "m" (givenBinding "m"))
  if f.isMethod then own.insert "super" (givenBinding "super") else own

def ofFunc (f : Func) : Walk :=
  { params := paramBindings f }

end Walk

/-- The walk over the body of a function, after its outermost frame has closed. -/
def Func.flow (f : Func) (loopsBranch : Bool) : Walk :=
  let (frame, w) := (Walk.ofFunc f).visit (.block f.body) 1
  let w := Walk.followStmts loopsBranch (w.openFrame frame false) f.body.statements
  w.closeFunction f

end ChannelLint
