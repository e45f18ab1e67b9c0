import ChannelLint.Text.Position

/-!
# The tree of a script

Expressions, statements and functions refer to each other: an expression may be a function, whose
body is a block of statements. Every node knows the range of text it was read from. A compound
assignment such as `a += b` is kept as the assignment of `a + b`, with its operator beside it.
-/
namespace ChannelLint

/-- A name as it was written. -/
structure Ident where
  text : String
  range : Range
  deriving DecidableEq, Repr, Inhabited

inductive LiteralKind where
  | string | number | boolean | invalid
  deriving DecidableEq, Repr

inductive BinaryOp where
  | coalesce | or | and | equal | notEqual | lessEqual | greaterEqual | less | greater
  | shiftLeft | shiftRight | add | subtract | multiply | divide | integerDivide | modulo | power
  deriving DecidableEq, Repr

def BinaryOp.symbol : BinaryOp → String
  | coalesce => "??"
  | or => "or"
  | and => "and"
  | equal => "="
  | notEqual => "<>"
  | lessEqual => "<="
  | greaterEqual => ">="
  | less => "<"
  | greater => ">"
  | shiftLeft => "<<"
  | shiftRight => ">>"
  | add => "+"
  | subtract => "-"
  | multiply => "*"
  | divide => "/"
  | integerDivide => "\\"
  | modulo => "mod"
  | power => "^"

inductive UnaryOp where
  | not | plus | minus
  deriving DecidableEq, Repr

def UnaryOp.symbol : UnaryOp → String
  | not => "not"
  | plus => "+"
  | minus => "-"

/-- `none` is the plain assignment; otherwise the operation that is applied first. -/
abbrev AssignOp := Option BinaryOp

def assignSymbol : AssignOp → String
  | none => "="
  | some op => op.symbol ++ "="

inductive StepOp where
  | increment | decrement
  deriving DecidableEq, Repr

def StepOp.symbol : StepOp → String
  | increment => "++"
  | decrement => "--"

inductive LoopKind where
  | forLoop | whileLoop
  deriving DecidableEq, Repr

mutual

inductive Expr where
  /-- A name that is read; `called` if it stands directly in front of its arguments. -/
  | var (name : Ident) (called : Bool)
  /-- A literal with its text; a string keeps its quotes. -/
  | literal (kind : LiteralKind) (text : String) (range : Range)
  | binary (left : Expr) (op : BinaryOp) (right : Expr) (range : Range)
  | unary (op : UnaryOp) (operand : Expr) (range : Range)
  | group (inner : Expr) (range : Range)
  | dot (object : Expr) (name : Ident) (range : Range)
  | index (object key : Expr) (range : Range)
  | call (callee : Expr) (args : List Expr) (range : Range)
  | ternary (test onTrue onFalse : Expr) (range : Range)
  /-- A template with its text, backquotes included, and the expressions embedded in it. -/
  | template (text : String) (parts : List Expr) (range : Range)
  | new (callee : Expr) (args : List Expr) (callRange range : Range)
  | array (items : List Expr) (range : Range)
  | table (members : List Member) (range : Range)
  | function (func : Func)

structure Member where
  key : String
  value : Expr

structure Param where
  name : Ident
  typeName : Option String
  defaultValue : Option Expr

/-- A function or sub, named or anonymous. `keyword` and the type and namespace names are in lower
case; `signature` runs from the keyword to the return type or the closing parenthesis. -/
structure Func where
  keyword : String
  params : List Param
  body : Block
  range : Range
  signature : Range
  returnType : Option String
  name : Option Ident
  isMethod : Bool
  nspace : Option String

structure Block where
  statements : List Stmt
  range : Range

inductive Stmt where
  | assign (assignment : Assign)
  | setField (object : Expr) (name : Ident) (value : Expr) (range : Range)
  | setItem (object key value : Expr) (range : Range)
  | step (target : Expr) (op : StepOp) (range : Range)
  | dim (name : Ident) (sizes : List Expr) (range : Range)
  | perform (call : Expr) (range : Range)
  | print (values : List Expr) (range : Range)
  | ifThen (branch : If)
  | forTo (counter : Assign) (limit : Expr) (step : Option Expr) (body : Block) (range : Range)
  | forEach (item : Ident) (target : Expr) (body : Block) (range : Range)
  | whileDo (condition : Expr) (body : Block) (range : Range)
  | exit (loop : LoopKind) (range : Range)
  | ret (value : Option Expr) (range : Range)
  | throw (value : Expr) (range : Range)
  | tryCatch (body : Block) (handler : Catch) (range : Range)
  | label (name : Ident) (range : Range)
  | goto (label : Ident) (range : Range)
  | end (range : Range)
  | stop (range : Range)

structure Assign where
  name : Ident
  value : Expr
  range : Range
  op : AssignOp

structure If where
  condition : Expr
  onTrue : Block
  onFalse : Else
  range : Range
  inline : Bool

inductive Else where
  | absent
  | block (body : Block)
  | elseIf (branch : If)

structure Catch where
  caught : Option Ident
  body : Block
  range : Range

end

/-- What a class is made of. -/
inductive ClassMember where
  | method (name : Ident) (func : Func)
  | field (name : Ident) (typeName : Option String) (value : Option Expr) (range : Range)

structure Class where
  name : Ident
  parent : Option String
  members : List ClassMember
  range : Range
  nspace : Option String

/-- What may stand at the top of a script or of a namespace. -/
inductive Decl where
  | function (name : Ident) (func : Func)
  | class (decl : Class)
  | nspace (name : String) (body : List Decl) (range : Range)
  | const (name : Ident) (value : Expr) (range : Range) (nspace : Option String)
  | enum (name : Ident) (members : List Ident) (range : Range) (nspace : Option String)
  | importFile (path : String) (range : Range)
  | library (path : String) (range : Range)

/-- A script that was read: where it came from, its text, and its declarations. -/
structure Script where
  path : String
  pkgPath : String
  source : String
  decls : List Decl

namespace Expr

def range : Expr → Range
  | var name _ => name.range
  | literal _ _ range | binary _ _ _ range | unary _ _ range | group _ range | dot _ _ range
  | index _ _ range | call _ _ range | ternary _ _ _ range | template _ _ range | new _ _ _ range
  | array _ range | table _ range => range
  | function func => func.range

end Expr

namespace Stmt

def range : Stmt → Range
  | assign a => a.range
  | ifThen branch => branch.range
  | setField _ _ _ range | setItem _ _ _ range | step _ _ range | dim _ _ range | perform _ range
  | print _ range | forTo _ _ _ _ range | forEach _ _ _ range | whileDo _ _ range | exit _ range
  | ret _ range | throw _ range | tryCatch _ _ range | label _ range | goto _ range | «end» range
  | stop range => range

end Stmt

end ChannelLint
