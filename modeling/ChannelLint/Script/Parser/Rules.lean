import ChannelLint.Script.Parser.Cursor
import ChannelLint.Script.Tree
import ChannelLint.Text.Case

/-!
# Grammar rules for expressions

The rules for expressions, blocks and functions refer to each other. `Rules` holds the readers that
a rule may call again; every other rule is a plain definition over them. The text embedded in a
template is read at its own position, not as a copy that blanks move there.
-/
namespace ChannelLint.Parser

structure Rules where
  expr : Parser Expr
  block : Parser Block
  /-- The expressions embedded in a template, unless one of them cannot be read. -/
  embedded : Token → Option (List Expr)

def ident (token : Token) : Ident :=
  ⟨token.text, token.range⟩

/-- A string without its quotes; a doubled quote inside stands for one. Other text stays. -/
def undouble : List Char → List Char
  | '"' :: '"' :: cs => '"' :: undouble cs
  | c :: cs => c :: undouble cs
  | [] => []

def unquote (text : String) : String :=
  match text.toList with
  | '"' :: inner =>
    if inner.getLast? = some '"' then String.ofList (undouble inner.dropLast) else text
  | _ => text

/-! ## Operators -/

def symbolOps : List BinaryOp :=
  [.notEqual, .lessEqual, .greaterEqual, .less, .greater, .shiftLeft, .shiftRight, .add, .subtract,
    .multiply, .divide, .integerDivide]

/-- The binary operator that a token stands for. -/
def binaryOp? (token : Token) : Option BinaryOp :=
  match token.terminal with
  | .coalesceOp => some .coalesce
  | .kwOr => some .or
  | .kwAnd => some .and
  | .equals => some .equal
  | .kwMod => some .modulo
  | .powOp => some .power
  | .compOp | .shiftOp | .addOp | .mulOp => symbolOps.find? (·.symbol == token.text)
  | _ => none

/-- Operators that bind looser than `not`, loosest first. -/
def looseLevels : List (List BinaryOp) :=
  [[.coalesce], [.or], [.and]]

/-- Operators that bind tighter than `not`, loosest first. -/
def tightLevels : List (List BinaryOp) :=
  [[.equal, .notEqual, .lessEqual, .greaterEqual, .less, .greater],
    [.shiftLeft, .shiftRight],
    [.add, .subtract],
    [.multiply, .divide, .integerDivide, .modulo],
    [.power]]

def joinBinary (left : Expr) (tail : BinaryOp × Expr) : Expr :=
  .binary left tail.1 tail.2 (.cover left.range tail.2.range)

/-- An operator of `ops` and its right operand, if one comes next. -/
def operatorTail? (ops : List BinaryOp) (operand : Parser Expr) :
    Parser (Option (BinaryOp × Expr)) := do
  match (← peek?).bind binaryOp? with
  | some op =>
    if op ∈ ops then
      let _ ← take
      return some (op, ← operand)
    else return none
  | none => return none

/-- Operands joined by operators of one level, grouped from the left. -/
def leftChain (ops : List BinaryOp) (operand : Parser Expr) : Parser Expr := do
  let first ← operand
  return (← collect (operatorTail? ops operand)).foldl joinBinary first

def levels (operand : Parser Expr) : List (List BinaryOp) → Parser Expr
  | [] => operand
  | ops :: tighter => leftChain ops (levels operand tighter)

def unaryOp (token : Token) : UnaryOp :=
  if token.terminal = .kwNot then .not else if token.text = "-" then .minus else .plus

def joinUnary (token : Token) (operand : Expr) : Expr :=
  .unary (unaryOp token) operand ⟨token.range.start, operand.range.stop⟩

/-- An operand behind any number of signs of kind `t`. -/
def prefixed (t : Terminal) (operand : Parser Expr) : Parser Expr := do
  let signs ← collect (accept? t)
  return signs.foldr joinUnary (← operand)

/-! ## Lists -/

/-- A comma with the line feeds behind it, or line feeds alone. -/
def listSeparator? : Parser Bool := do
  match ← look with
  | some .comma =>
    let _ ← take
    skipMany .newline
    return true
  | some .newline =>
    skipMany .newline
    return true
  | _ => return false

/-- One more item of a list that ends with `close`. -/
def listItem? {α : Type} (close : Terminal) (item : Parser α) : Parser (Option α) := do
  if (← look) = some close then return none
  else if ← listSeparator? then
    if (← look) = some close then return none else return some (← item)
  else refuse

/-- Items up to the bracket `close`, separated by commas or line feeds. -/
def listUpTo {α : Type} (close : Terminal) (item : Parser α) : Parser (List α) := do
  skipMany .newline
  if (← look) = some close then
    let _ ← take
    return []
  let first ← item
  let more ← collect (listItem? close item)
  let _ ← expect close
  return first :: more

/-- One more item behind a comma. -/
def commaItem? {α : Type} (item : Parser α) : Parser (Option α) := do
  match ← accept? .comma with
  | some _ => return some (← item)
  | none => return none

def commaList {α : Type} (item : Parser α) : Parser (List α) := do
  let first ← item
  return first :: (← collect (commaItem? item))

/-! ## Functions -/

def separator : Parser Unit := do
  match ← look with
  | some .newline | some .colon => let _ ← take
  | _ => refuse

/-- One more part of a dotted name. -/
def namePart? : Parser (Option Token) := do
  match ← accept? .dot with
  | some _ => return some (← expect .name)
  | none => return none

/-- Names joined by dots. -/
def dottedNames : Parser (List Token) := do
  let first ← expect .name
  return first :: (← collect namePart?)

def dottedText (names : List Token) : String :=
  ".".intercalate (names.map (·.text))

/-- A type name in lower case. -/
def typeName : Parser String := do
  match ← look with
  | some .kwFunction | some .kwSub => return Text.lower (← take).text
  | _ => return Text.lower (dottedText (← dottedNames))

/-- `as` and a type name, if they come next. -/
def typeClause? : Parser (Option String) := do
  match ← accept? .kwAs with
  | some _ => return some (← typeName)
  | none => return none

/-- `=` and an expression, if they come next. -/
def valueClause? (rules : Rules) : Parser (Option Expr) := do
  match ← accept? .equals with
  | some _ => return some (← rules.expr)
  | none => return none

def param (rules : Rules) : Parser Param := do
  let name ← expect .name
  let value ← valueClause? rules
  let type ← typeClause?
  return ⟨ident name, type, value⟩

def params (rules : Rules) : Parser (List Param) := do
  let _ ← expect .leftParen
  if (← look) = some .rightParen then
    let _ ← take
    return []
  let list ← commaList (param rules)
  let _ ← expect .rightParen
  return list

/-- A function behind its keyword and its name. Either closing word ends either kind. -/
def functionTail (rules : Rules) (start : Position) (keyword : Token) (name : Option Ident)
    (isMethod : Bool) : Parser Func := do
  let params ← params rules
  let returnType ← typeClause?
  let signature ← since keyword.range.start
  separator
  let body ← rules.block
  match ← look with
  | some .endSub | some .endFunction =>
    let _ ← take
    return { keyword := Text.lower keyword.text, params, body, range := ← since start, signature,
             returnType, name, isMethod, nspace := none }
  | _ => refuse

/-! ## Operands -/

/-- A name in front of arguments is called. -/
def markCalled : Expr → Expr
  | .var name _ => .var name true
  | e => e

/-- What may follow an operand. -/
inductive Suffix where
  /-- A field; `plain` if it is written with a dot alone. -/
  | field (plain : Bool) (name : Ident)
  | item (key : Expr) (stop : Position)
  | call (args : List Expr) (stop : Position)

def Suffix.apply (object : Expr) : Suffix → Expr
  | field _ name => .dot object name (.cover object.range name.range)
  | item key stop => .index object key ⟨object.range.start, stop⟩
  | call args stop => .call (markCalled object) args ⟨object.range.start, stop⟩

/-- One more argument behind a comma and line feeds. -/
def argument? (rules : Rules) : Parser (Option Expr) := do
  match ← accept? .comma with
  | some _ =>
    skipMany .newline
    return some (← rules.expr)
  | none => return none

/-- Arguments in parentheses; line feeds may stand behind the opening parenthesis and the commas,
and in front of the closing parenthesis. -/
def arguments (rules : Rules) : Parser (List Expr) := do
  let _ ← expect .leftParen
  skipMany .newline
  if (← look) = some .rightParen then
    let _ ← take
    return []
  let first ← rules.expr
  let more ← collect (argument? rules)
  skipMany .newline
  let _ ← expect .rightParen
  return first :: more

def suffix? (rules : Rules) : Parser (Option Suffix) := do
  match ← look with
  | some .dot =>
    let _ ← take
    return some (.field true (ident (← expect .name)))
  | some .optionalDot | some .at =>
    let _ ← take
    return some (.field false (ident (← expect .name)))
  | some .leftBracket =>
    let _ ← take
    let key ← rules.expr
    let close ← expect .rightBracket
    return some (.item key close.range.stop)
  | some .leftParen =>
    let args ← arguments rules
    return some (.call args (← get).reached)
  | _ => return none

def joinNamePart (object : Expr) (token : Token) : Expr :=
  .dot object (ident token) (.cover object.range token.range)

/-- `new`, a dotted name and arguments. Only an undotted name counts as called. -/
def newObject (rules : Rules) : Parser Expr := do
  let start ← here
  let _ ← expect .kwNew
  let first ← expect .name
  let more ← collect namePart?
  let args ← arguments rules
  let range ← since start
  let callee := more.foldl joinNamePart (.var (ident first) more.isEmpty)
  return .new callee args ⟨callee.range.start, range.stop⟩ range

def member (rules : Rules) : Parser Member := do
  match ← look with
  | some .name | some .string =>
    let key ← take
    let _ ← expect .colon
    return ⟨unquote key.text, ← rules.expr⟩
  | _ => refuse

def literal (kind : LiteralKind) : Parser Expr := do
  let token ← take
  let text := match kind with
    | .boolean => Text.lower token.text
    | .invalid => "invalid"
    | .string | .number => token.text
  return .literal kind text token.range

def template (rules : Rules) : Parser Expr := do
  let token ← take
  match rules.embedded token with
  | some parts => return .template token.text parts token.range
  | none =>
    modify fun cursor => { cursor with badTemplate := true }
    return .template token.text [] token.range

def group (rules : Rules) : Parser Expr := do
  let start ← here
  let _ ← expect .leftParen
  let inner ← rules.expr
  let _ ← expect .rightParen
  return .group inner (← since start)

def array (rules : Rules) : Parser Expr := do
  let start ← here
  let _ ← expect .leftBracket
  let items ← listUpTo .rightBracket rules.expr
  return .array items (← since start)

def table (rules : Rules) : Parser Expr := do
  let start ← here
  let _ ← expect .leftBrace
  let members ← listUpTo .rightBrace (member rules)
  return .table members (← since start)

def anonymousFunction (rules : Rules) : Parser Expr := do
  let keyword ← take
  return .function (← functionTail rules keyword.range.start keyword none false)

def atom (rules : Rules) : Parser Expr := do
  match ← look with
  | some .name => return .var (ident (← take)) false
  | some .string => literal .string
  | some .number => literal .number
  | some .kwTrue | some .kwFalse => literal .boolean
  | some .kwInvalid => literal .invalid
  | some .template => template rules
  | some .leftParen => group rules
  | some .leftBracket => array rules
  | some .leftBrace => table rules
  | some .kwSub | some .kwFunction => anonymousFunction rules
  | some .kwNew => newObject rules
  | _ => refuse

/-- An operand with everything that follows it. -/
def chain (rules : Rules) : Parser Expr := do
  let first ← atom rules
  return (← collect (suffix? rules)).foldl Suffix.apply first

/-! ## Expressions -/

/-- Whether an expression can begin with this terminal. -/
def startsAtom : Terminal → Bool
  | .name | .string | .number | .kwTrue | .kwFalse | .kwInvalid | .template | .leftParen
  | .leftBracket | .leftBrace | .kwSub | .kwFunction | .kwNew => true
  | _ => false

def startsExpr (t : Terminal) : Bool :=
  startsAtom t || t == .kwNot || t == .addOp

/-- Comparison and what binds tighter. -/
def comparison (rules : Rules) : Parser Expr :=
  levels (prefixed .addOp (chain rules)) tightLevels

def conditional (rules : Rules) : Parser Expr := do
  let test ← levels (prefixed .kwNot (comparison rules)) looseLevels
  match ← accept? .question with
  | none => return test
  | some _ =>
    let onTrue ← rules.expr
    let _ ← expect .colon
    let onFalse ← rules.expr
    return .ternary test onTrue onFalse (.cover test.range onFalse.range)

/-- An expression, if one can begin here. -/
def expr? (rules : Rules) : Parser (Option Expr) := do
  match ← look with
  | some t => if startsExpr t then return some (← rules.expr) else return none
  | none => return none

end ChannelLint.Parser
