import ChannelLint.Script.Parser.Rules

/-!
# Grammar rules for statements

A statement that begins with an operand is told apart by what stands behind the operand: an
assignment operator, an increment, or nothing if the operand ends with a call. What is assigned to
by a compound assignment stands in the tree twice: as the target, and as an operand of the value.
-/
namespace ChannelLint.Parser

/-- The operation of a compound assignment: its text without the equals sign. -/
def compoundOp? (text : String) : AssignOp :=
  symbolOps.find? (fun op => op.symbol ++ "=" == text)

/-- An assignment operator, if one comes next. -/
def assignOp? : Parser (Option AssignOp) := do
  match ← look with
  | some .equals =>
    let _ ← take
    return some none
  | some .assignOp => return some (compoundOp? (← take).text)
  | _ => return none

/-- The value that is stored: a compound assignment applies its operation to the old value. -/
def storedValue (op : AssignOp) (old value : Expr) (range : Range) : Expr :=
  match op with
  | none => value
  | some op => .binary old op value range

/-- An assignment behind its name and operator. -/
def assignTail (rules : Rules) (name : Ident) (op : AssignOp) : Parser Assign := do
  let value ← rules.expr
  let range ← since name.range.start
  return ⟨name, storedValue op (.var name false) value range, range, op⟩

def assignment (rules : Rules) : Parser Assign := do
  let name ← expect .name
  match ← assignOp? with
  | some op => assignTail rules (ident name) op
  | none => refuse

/-- The assignment to the last field or item of an operand. -/
def storeTail (rules : Rules) (object : Expr) (last : Suffix) (op : AssignOp) : Parser Stmt := do
  let value ← rules.expr
  let range ← since object.range.start
  match last with
  | .field _ name =>
    let old := .dot object name (.cover object.range name.range)
    return .setField object name (storedValue op old value range) range
  | .item key _ =>
    let old := .index object key (.cover object.range key.range)
    return .setItem object key (storedValue op old value range) range
  | .call .. => refuse

/-- An operand without suffixes: the target of an assignment or of an increment. -/
def bareTail (rules : Rules) (first : Expr) : Parser Stmt := do
  match first with
  | .var name _ =>
    match ← assignOp? with
    | some op => return .assign (← assignTail rules name op)
    | none => refuse
  | _ => refuse

/-- What stands behind an operand that ends with `last`, unless it is an increment. -/
def suffixTail (rules : Rules) (object : Expr) (last : Suffix) : Parser Stmt := do
  match last with
  | .call .. =>
    let call := last.apply object
    return .perform call call.range
  | .field false _ => refuse
  | _ =>
    match ← assignOp? with
    | some op => storeTail rules object last op
    | none => refuse

def stepOp (token : Token) : StepOp :=
  if token.text = "++" then .increment else .decrement

/-- A statement that begins with an operand. -/
def operandStatement (rules : Rules) : Parser Stmt := do
  let first ← atom rules
  let suffixes ← collect (suffix? rules)
  match ← accept? .incOp with
  | some token =>
    let target := suffixes.foldl Suffix.apply first
    return .step target (stepOp token) ⟨target.range.start, token.range.stop⟩
  | none =>
    match suffixes.getLast? with
    | none => bareTail rules first
    | some last => suffixTail rules (suffixes.dropLast.foldl Suffix.apply first) last

/-! ## Simple statements -/

/-- One more printed value behind semicolons or commas, which may also end the list. -/
def printItem? (rules : Rules) : Parser (Option (Option Expr)) := do
  match ← look with
  | some .semicolon | some .comma =>
    let _ ← take
    return some (← expr? rules)
  | _ => return none

def printStatement (rules : Rules) : Parser Stmt := do
  let start ← here
  let _ ← take
  match ← expr? rules with
  | none => return .print [] (← since start)
  | some first =>
    let more ← collect (printItem? rules)
    return .print (first :: more.filterMap id) (← since start)

def labelStatement : Parser Stmt := do
  let token ← take
  let stop : Position := ⟨token.range.stop.line, token.range.stop.column - 1⟩
  return .label ⟨String.ofList token.text.toList.dropLast, ⟨token.range.start, stop⟩⟩ token.range

def dimStatement (rules : Rules) : Parser Stmt := do
  let start ← here
  let _ ← take
  let name ← expect .name
  let _ ← expect .leftBracket
  let sizes ← commaList rules.expr
  let _ ← expect .rightBracket
  return .dim (ident name) sizes (← since start)

/-- The statements that may stand on the line of an `if`. -/
def simpleStatement (rules : Rules) : Parser Stmt := do
  let start ← here
  match ← look with
  | some .kwPrint | some .question => printStatement rules
  | some .exitFor =>
    let _ ← take
    return .exit .forLoop (← since start)
  | some .exitWhile =>
    let _ ← take
    return .exit .whileLoop (← since start)
  | some .kwReturn =>
    let _ ← take
    let value ← expr? rules
    return .ret value (← since start)
  | some .kwThrow =>
    let _ ← take
    let value ← rules.expr
    return .throw value (← since start)
  | some .kwGoto =>
    let _ ← take
    let label ← expect .name
    return .goto (ident label) (← since start)
  | some .kwEnd =>
    let _ ← take
    return .end (← since start)
  | some .kwStop =>
    let _ ← take
    return .stop (← since start)
  | some .kwDim => dimStatement rules
  | _ => operandStatement rules

/-! ## Branches -/

/-- A condition with what follows it, up to the next `else`. -/
structure Clause where
  start : Position
  condition : Expr
  body : Block

/-- The clauses of an `if` behind each other; each ends where the last one ends. -/
def nestClauses (inline : Bool) (stop : Position) (final : Else) : List Clause → Else
  | [] => final
  | clause :: rest =>
    .elseIf ⟨clause.condition, clause.body, nestClauses inline stop final rest,
      ⟨clause.start, stop⟩, inline⟩

/-- A condition, an optional `then`, and a block on lines of its own. -/
def blockClause (rules : Rules) (start : Position) : Parser Clause := do
  let condition ← rules.expr
  let _ ← accept? .kwThen
  separator
  return ⟨start, condition, ← rules.block⟩

def elseIfClause? (clause : Position → Parser Clause) : Parser (Option Clause) := do
  match ← accept? .elseIf with
  | some token => return some (← clause token.range.start)
  | none => return none

def elseClause? (body : Parser Block) : Parser Else := do
  match ← accept? .kwElse with
  | some _ => return .block (← body)
  | none => return .absent

/-- A block that holds one statement. -/
def lineBlock (rules : Rules) : Parser Block := do
  let statement ← simpleStatement rules
  return ⟨[statement], statement.range⟩

/-- A condition, `then`, and a statement on the same line. -/
def lineClause (rules : Rules) (start : Position) : Parser Clause := do
  let condition ← rules.expr
  let _ ← expect .kwThen
  return ⟨start, condition, ← lineBlock rules⟩

/-- The rest of an `if` whose branches are blocks, behind its first separator. -/
def blockIfTail (rules : Rules) (start : Position) (condition : Expr) : Parser Stmt := do
  let body ← rules.block
  let clauses ← collect (elseIfClause? (blockClause rules))
  let final ← elseClause? rules.block
  let stop := (← get).reached
  let _ ← expect .endIf
  return .ifThen ⟨condition, body, nestClauses false stop final clauses, ← since start, false⟩

/-- The rest of an `if` on one line, behind `then`. -/
def lineIfTail (rules : Rules) (start : Position) (condition : Expr) : Parser Stmt := do
  let body ← lineBlock rules
  let clauses ← collect (elseIfClause? (lineClause rules))
  let final ← elseClause? (lineBlock rules)
  let range ← since start
  return .ifThen ⟨condition, body, nestClauses true range.stop final clauses, range, true⟩

def startsSeparator : Option Terminal → Bool
  | some .newline | some .colon => true
  | _ => false

def ifStatement (rules : Rules) : Parser Stmt := do
  let start ← here
  let _ ← take
  let condition ← rules.expr
  match ← accept? .kwThen with
  | some _ =>
    if startsSeparator (← look) then
      separator
      blockIfTail rules start condition
    else lineIfTail rules start condition
  | none =>
    separator
    blockIfTail rules start condition

/-! ## Loops and handlers -/

def stepClause? (rules : Rules) : Parser (Option Expr) := do
  match ← accept? .kwStep with
  | some _ => return some (← rules.expr)
  | none => return none

def forStatement (rules : Rules) : Parser Stmt := do
  let start ← here
  let _ ← take
  let counter ← assignment rules
  let _ ← expect .kwTo
  let limit ← rules.expr
  let step ← stepClause? rules
  separator
  let body ← rules.block
  let _ ← expect .endFor
  return .forTo counter limit step body (← since start)

def forEachStatement (rules : Rules) : Parser Stmt := do
  let start ← here
  let _ ← take
  let item ← expect .name
  let _ ← expect .kwIn
  let target ← rules.expr
  separator
  let body ← rules.block
  let _ ← expect .endFor
  return .forEach (ident item) target body (← since start)

def whileStatement (rules : Rules) : Parser Stmt := do
  let start ← here
  let _ ← take
  let condition ← rules.expr
  separator
  let body ← rules.block
  let _ ← expect .endWhile
  return .whileDo condition body (← since start)

def catchClause (rules : Rules) : Parser Catch := do
  let keyword ← expect .kwCatch
  let caught ← accept? .name
  separator
  let body ← rules.block
  return ⟨caught.map ident, body, ← since keyword.range.start⟩

def tryStatement (rules : Rules) : Parser Stmt := do
  let start ← here
  let _ ← take
  separator
  let body ← rules.block
  let handler ← catchClause rules
  let _ ← expect .endTry
  return .tryCatch body handler (← since start)

/-! ## Blocks -/

def startsStatement : Terminal → Bool
  | .kwPrint | .question | .exitFor | .exitWhile | .kwReturn | .kwThrow | .kwGoto | .kwEnd
  | .kwStop | .kwDim | .kwIf | .kwFor | .forEach | .kwWhile | .kwTry | .label => true
  | t => startsAtom t

def statement (rules : Rules) : Parser Stmt := do
  match ← look with
  | some .kwIf => ifStatement rules
  | some .kwFor => forStatement rules
  | some .forEach => forEachStatement rules
  | some .kwWhile => whileStatement rules
  | some .kwTry => tryStatement rules
  | some .label => labelStatement
  | _ => simpleStatement rules

/-- A separator, or an item with the separator behind it; nothing if neither begins here. -/
def lineOf? {α : Type} (starts : Terminal → Bool) (item : Parser α) :
    Parser (Option (Option α)) := do
  match ← look with
  | some t =>
    if startsSeparator (some t) then
      separator
      return some none
    else if starts t then
      let a ← item
      separator
      return some (some a)
    else return none
  | none => return none

/-- Lines of items. -/
def linesOf {α : Type} (starts : Terminal → Bool) (item : Parser α) : Parser (List α) := do
  return (← collect (lineOf? starts item)).filterMap id

/-- Statements, each with a separator behind it. A block without any token has the empty range. -/
def blockLines (rules : Rules) : Parser Block := do
  let start ← here
  let before := (← get).rest.length
  let statements ← linesOf startsStatement (statement rules)
  if (← get).rest.length = before then return ⟨[], .empty⟩
  else return ⟨statements, ← since start⟩

/-! ## Closing the circle -/

/-- The rules, with at most `n` of them inside each other. -/
def rulesUpTo (embedded : Token → Option (List Expr)) : Nat → Rules
  | 0 => ⟨refuse, refuse, embedded⟩
  | n + 1 =>
    let inner := rulesUpTo embedded n
    ⟨conditional inner, blockLines inner, embedded⟩

end ChannelLint.Parser
