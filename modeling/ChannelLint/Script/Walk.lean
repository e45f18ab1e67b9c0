import ChannelLint.Script.Tree
import ChannelLint.Text.Case

/-!
# Walks over the tree of a script

Expressions are walked in order, a parent before its children. Statements are walked the same way:
the expressions of a statement come before the statements inside it. No walk over expressions or
statements enters a function; `Script.functions` lists every function, however deep.
-/
namespace ChannelLint

/-! ## Expressions -/

mutual

/-- An expression and everything inside it, each with its parent. -/
def Expr.preorder (parent : Option Expr) : Expr → List (Expr × Option Expr)
  | .var name called => [(.var name called, parent)]
  | .literal kind text range => [(.literal kind text range, parent)]
  | .binary left op right range =>
    let e := Expr.binary left op right range
    (e, parent) :: left.preorder (some e) ++ right.preorder (some e)
  | .unary op operand range =>
    let e := Expr.unary op operand range
    (e, parent) :: operand.preorder (some e)
  | .group inner range =>
    let e := Expr.group inner range
    (e, parent) :: inner.preorder (some e)
  | .dot object name range =>
    let e := Expr.dot object name range
    (e, parent) :: object.preorder (some e)
  | .index object key range =>
    let e := Expr.index object key range
    (e, parent) :: object.preorder (some e) ++ key.preorder (some e)
  | .call callee args range =>
    let e := Expr.call callee args range
    (e, parent) :: callee.preorder (some e) ++ Expr.preorderAll (some e) args
  | .ternary test onTrue onFalse range =>
    let e := Expr.ternary test onTrue onFalse range
    (e, parent) :: test.preorder (some e) ++ onTrue.preorder (some e) ++ onFalse.preorder (some e)
  | .template text parts range =>
    let e := Expr.template text parts range
    (e, parent) :: Expr.preorderAll (some e) parts
  | .new callee args callRange range =>
    let e := Expr.new callee args callRange range
    let call := Expr.call callee args callRange
    (e, parent) :: (call, some e) :: callee.preorder (some call) ++
      Expr.preorderAll (some call) args
  | .array items range =>
    let e := Expr.array items range
    (e, parent) :: Expr.preorderAll (some e) items
  | .table members range =>
    let e := Expr.table members range
    (e, parent) :: Member.preorderAll (some e) members
  | .function func => [(.function func, parent)]

def Expr.preorderAll (parent : Option Expr) : List Expr → List (Expr × Option Expr)
  | [] => []
  | e :: rest => e.preorder parent ++ Expr.preorderAll parent rest

def Member.preorderAll (parent : Option Expr) : List Member → List (Expr × Option Expr)
  | [] => []
  | ⟨_, value⟩ :: rest => value.preorder parent ++ Member.preorderAll parent rest

end

/-! ## Statements -/

/-- The expressions of a statement itself, without those of the statements inside it. -/
def Stmt.exprs : Stmt → List Expr
  | .assign a => [a.value]
  | .setField object _ value _ => [object, value]
  | .setItem object key value _ => [object, key, value]
  | .step target _ _ => [target]
  | .dim _ sizes _ => sizes
  | .perform call _ => [call]
  | .print values _ => values
  | .ifThen branch => [branch.condition]
  | .forTo _ limit stride _ _ => limit :: stride.toList
  | .forEach _ target _ _ => [target]
  | .whileDo condition _ _ => [condition]
  | .ret value _ => value.toList
  | .throw value _ => [value]
  | .exit .. | .tryCatch .. | .label .. | .goto .. | .end _ | .stop _ => []

mutual

/-- The expressions of a statement and of every statement inside it. -/
def Stmt.allExprs : Stmt → List Expr
  | .assign a => [a.value]
  | .setField object _ value _ => [object, value]
  | .setItem object key value _ => [object, key, value]
  | .step target _ _ => [target]
  | .dim _ sizes _ => sizes
  | .perform call _ => [call]
  | .print values _ => values
  | .ifThen branch => branch.allExprs
  | .forTo counter limit stride body _ =>
    limit :: stride.toList ++ counter.value :: body.allExprs
  | .forEach _ target body _ => target :: body.allExprs
  | .whileDo condition body _ => condition :: body.allExprs
  | .ret value _ => value.toList
  | .throw value _ => [value]
  | .tryCatch body handler _ => body.allExprs ++ handler.allExprs
  | .exit .. | .label .. | .goto .. | .end _ | .stop _ => []

def Block.allExprs : Block → List Expr
  | ⟨statements, _⟩ => Stmt.allExprsOf statements

def Stmt.allExprsOf : List Stmt → List Expr
  | [] => []
  | s :: rest => s.allExprs ++ Stmt.allExprsOf rest

def If.allExprs : If → List Expr
  | ⟨condition, onTrue, onFalse, _, _⟩ => condition :: onTrue.allExprs ++ onFalse.allExprs

def Else.allExprs : Else → List Expr
  | .absent => []
  | .block body => body.allExprs
  | .elseIf branch => branch.allExprs

def Catch.allExprs : Catch → List Expr
  | ⟨_, body, _⟩ => body.allExprs

end

/-- The default values of the parameters and the expressions of the body. -/
def Func.allExprs (f : Func) : List Expr :=
  f.params.filterMap (·.defaultValue) ++ f.body.allExprs

/-! ## Functions -/

mutual

/-- The functions inside an expression, each followed by those inside it. -/
def Expr.functions : Expr → List Func
  | .var .. | .literal .. => []
  | .binary left _ right _ => left.functions ++ right.functions
  | .unary _ operand _ => operand.functions
  | .group inner _ => inner.functions
  | .dot object _ _ => object.functions
  | .index object key _ => object.functions ++ key.functions
  | .call callee args _ => callee.functions ++ Expr.functionsOf args
  | .ternary test onTrue onFalse _ => test.functions ++ onTrue.functions ++ onFalse.functions
  | .template _ parts _ => Expr.functionsOf parts
  | .new callee args _ _ => callee.functions ++ Expr.functionsOf args
  | .array items _ => Expr.functionsOf items
  | .table members _ => Member.functionsOf members
  | .function func => func.functions

def Expr.functionsOf : List Expr → List Func
  | [] => []
  | e :: rest => e.functions ++ Expr.functionsOf rest

def Expr.functionsOf? : Option Expr → List Func
  | none => []
  | some e => e.functions

def Member.functionsOf : List Member → List Func
  | [] => []
  | ⟨_, value⟩ :: rest => value.functions ++ Member.functionsOf rest

def Param.functionsOf : List Param → List Func
  | [] => []
  | ⟨_, _, value⟩ :: rest => Expr.functionsOf? value ++ Param.functionsOf rest

/-- A function, then the functions in its default values, then those in its body. -/
def Func.functions : Func → List Func
  | ⟨keyword, params, body, range, signature, returnType, name, isMethod, nspace⟩ =>
    ⟨keyword, params, body, range, signature, returnType, name, isMethod, nspace⟩ ::
      Param.functionsOf params ++ body.functions

def Block.functions : Block → List Func
  | ⟨statements, _⟩ => Stmt.functionsOf statements

def Stmt.functionsOf : List Stmt → List Func
  | [] => []
  | s :: rest => s.functions ++ Stmt.functionsOf rest

def Stmt.functions : Stmt → List Func
  | .assign a => a.functions
  | .setField object _ value _ => object.functions ++ value.functions
  | .setItem object key value _ => object.functions ++ key.functions ++ value.functions
  | .step target _ _ => target.functions
  | .dim _ sizes _ => Expr.functionsOf sizes
  | .perform call _ => call.functions
  | .print values _ => Expr.functionsOf values
  | .ifThen branch => branch.functions
  | .forTo counter limit stride body _ =>
    limit.functions ++ Expr.functionsOf? stride ++ counter.functions ++ body.functions
  | .forEach _ target body _ => target.functions ++ body.functions
  | .whileDo condition body _ => condition.functions ++ body.functions
  | .ret value _ => Expr.functionsOf? value
  | .throw value _ => value.functions
  | .tryCatch body handler _ => body.functions ++ handler.functions
  | .exit .. | .label .. | .goto .. | .end _ | .stop _ => []

def Assign.functions : Assign → List Func
  | ⟨_, value, _, _⟩ => value.functions

def If.functions : If → List Func
  | ⟨condition, onTrue, onFalse, _, _⟩ =>
    condition.functions ++ onTrue.functions ++ onFalse.functions

def Else.functions : Else → List Func
  | .absent => []
  | .block body => body.functions
  | .elseIf branch => branch.functions

def Catch.functions : Catch → List Func
  | ⟨_, body, _⟩ => body.functions

end

/-! ## Declarations -/

mutual

/-- A declaration, and behind a namespace the declarations inside it. -/
def Decl.flatten : Decl → List Decl
  | .nspace name body range => .nspace name body range :: Decl.flattenAll body
  | .function name func => [.function name func]
  | .class decl => [.class decl]
  | .const name value range outer => [.const name value range outer]
  | .enum name members range outer => [.enum name members range outer]
  | .importFile path range => [.importFile path range]
  | .library path range => [.library path range]

def Decl.flattenAll : List Decl → List Decl
  | [] => []
  | d :: rest => d.flatten ++ Decl.flattenAll rest

end

def ClassMember.functions : ClassMember → List Func
  | .method _ func => func.functions
  | .field _ _ value _ => Expr.functionsOf? value

def Decl.functions : Decl → List Func
  | .function _ func => func.functions
  | .class decl => decl.members.flatMap (·.functions)
  | _ => []

def Class.methods (c : Class) : List Ident :=
  c.members.filterMap fun
    | .method name _ => some name
    | .field .. => none

namespace Script

/-- Every declaration, those inside namespaces included. -/
def allDecls (s : Script) : List Decl :=
  Decl.flattenAll s.decls

/-- Every function, those inside other functions included. -/
def functions (s : Script) : List Func :=
  s.allDecls.flatMap (·.functions)

/-- The string literals of every function, in lower case, without the empty string. -/
def stringLiterals (s : Script) : List (String × Range) :=
  s.functions.flatMap fun f =>
    (f.allExprs.flatMap (·.preorder none)).filterMap fun
      | (.literal .string text range, _) =>
        if text = "\"\"" then none else some (Text.lower text, range)
      | _ => none

/-- The paths that a script imports. -/
def imports (s : Script) : List String :=
  s.decls.filterMap fun
    | .importFile path _ => some path
    | _ => none

end Script

end ChannelLint
