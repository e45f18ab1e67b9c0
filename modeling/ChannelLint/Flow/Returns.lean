import ChannelLint.Flow.Frame

/-!
# Returns

A block ends with a return once a `return` or `throw` was visited in it, or once every path of a
branching statement in it ended that way. What is visited behind that point is unreachable. When
the function closes, its returns are compared with its declaration. A finding is noted whatever its
level is; the levels are applied behind the walk.
-/
namespace ChannelLint.Walk

/-- Only a frame with a single path is ended by a return. -/
def markReturning (w : Walk) : Walk :=
  w.modifyTop fun top => if top.paths = 1 then { top with returns := true } else top

/-- Notes a visited statement. -/
def noteReturn (w : Walk) (site : Site) : Walk :=
  if (w.stack.head?.map (·.returns)).getD false then w.report .unreachableCode site.range
  else match site with
    | .stmt (.ret value range) =>
      markReturning { w with returns := w.returns ++ [⟨range, value.isSome⟩] }
    | .stmt (.throw ..) => markReturning { w with throws := w.throws + 1 }
    | _ => w

/-- What a closed frame means for the paths of the frame around it. -/
def settlePaths (closed parent : Frame) : Frame :=
  if closed.site.ownsPaths then
    if closed.paths = 0 then { parent with returns := true, paths := parent.paths - 1 } else parent
  else if closed.returns && parent.site.ownsPaths then { parent with paths := parent.paths - 1 }
  else parent

end Walk

def Func.kind (f : Func) : FunctionKind :=
  if f.keyword = "sub" then .sub else .function

/-- Whether a function is declared to return nothing. -/
def Func.isVoid (f : Func) : Bool :=
  f.returnType == some "void" || (f.kind == .sub && f.returnType.isNone)

namespace Walk

/-- Whether every return of a function has to carry a value. -/
def requiresValue (f : Func) (returns : List ReturnSeen) : Bool :=
  f.returnType.isSome || returns.any (·.hasValue) || (f.kind == .function && !returns.isEmpty)

/-- Findings about the returns of a function whose outermost frame is `last`. -/
def returnFindings (f : Func) (last : Frame) (returns : List ReturnSeen) (throws : Nat) :
    List Finding :=
  if f.isVoid then
    (returns.filter (·.hasValue)).map fun r => ⟨.unexpectedReturnValue f.kind, r.range⟩
  else if requiresValue f returns then
    let missingPath := !last.returns || returns.length + throws = 0
    (if missingPath then [⟨.missingReturnPath, f.signature⟩] else []) ++
      (if returns.all (·.hasValue) then []
      else (returns.filter (!·.hasValue)).map fun r => ⟨.missingReturnValue f.kind, r.range⟩)
  else []

end ChannelLint.Walk
