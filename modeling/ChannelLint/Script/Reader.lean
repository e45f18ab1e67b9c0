import ChannelLint.Script.Lexer
import ChannelLint.Script.Namespace
import ChannelLint.Script.Parser.Declarations
import ChannelLint.Script.Template
import ChannelLint.Text.Quoted

/-!
# Reading a script

`Script.read` turns the text of a script into its tree. The first token that cannot continue a
script is the error; a character that begins no token is the error if every token before it fits.
Expressions embedded in templates are read at their place in the script, once the script itself is
known to be well formed.
-/
namespace ChannelLint

/-- Why a script cannot be read. -/
inductive ScriptFault where
  | unexpectedToken (text : String) (position : Position)
  | unexpectedCharacter (c : Char) (position : Position)
  | unexpectedEnd
  | badTemplate
  deriving DecidableEq, Repr

namespace ScriptFault

def message : ScriptFault → String
  | unexpectedToken text _ => "unexpected token " ++ Text.quoted text
  | unexpectedCharacter c _ => "unexpected character " ++ Text.quoted (String.singleton c)
  | unexpectedEnd => "unexpected token ''"
  | badTemplate => "cannot build syntax tree"

/-- Line and column, both counted from one. -/
def location? : ScriptFault → Option (Nat × Nat)
  | unexpectedToken _ p | unexpectedCharacter _ p => some (p.line + 1, p.column + 1)
  | unexpectedEnd | badTemplate => none

/-- The fault with the file it stands in and, if known, the line and column. -/
def describe (f : ScriptFault) (path : String) : String :=
  match f.location? with
  | some (line, column) => s!"{path}:{line}:{column}: " ++ f.message
  | none => path ++ ": " ++ f.message

end ScriptFault

namespace Parser

/-- The fault behind a parser that is stuck, or that has taken every token. -/
def faultAt (stuck : Stuck) (ending : Lexer.Ending) : Option ScriptFault :=
  match stuck, ending with
  | some token, _ => some (.unexpectedToken token.text token.range.start)
  | none, .badCharacter c p => some (.unexpectedCharacter c p)
  | none, .endOfText => none

/-- Runs a parser over a whole text that starts at position `p`. -/
def runAll {α : Type} (parser : Nat → Parser α) (p : Position) (cs : List Char) :
    Except ScriptFault α :=
  let lexed := Lexer.lexFrom p cs
  match (parser (lexed.tokens.length + 2)).run ⟨lexed.tokens, p, false⟩ with
  | .error stuck => .error ((faultAt stuck lexed.ending).getD .unexpectedEnd)
  | .ok (a, cursor) =>
    match faultAt cursor.rest.head? lexed.ending with
    | some fault => .error fault
    | none => if cursor.badTemplate then .error .badTemplate else .ok a

/-- An embedded expression may stand behind line feeds. -/
def embeddedExpr (rules : Rules) : Parser Expr := do
  skipMany .newline
  rules.expr

/-- The expressions embedded in a template, with at most `n` templates inside each other. -/
def embeddedUpTo : Nat → Token → Option (List Expr)
  | 0, _ => none
  | n + 1, token =>
    let cs := token.text.toList
    (Template.spans token.text).mapM fun (start, stop) =>
      let p := token.range.start.after (cs.take start)
      let parser := fun fuel => embeddedExpr (rulesUpTo (embeddedUpTo n) fuel)
      (runAll parser p ((cs.take stop).drop start)).toOption

def script (depth fuel : Nat) : Parser (List Decl) :=
  scriptLines (declarationUpTo (rulesUpTo (embeddedUpTo depth) fuel) fuel)

end Parser

/-- A byte order mark at the very beginning is not part of the script. -/
def dropByteOrderMark (cs : List Char) : List Char :=
  match cs with
  | '\ufeff' :: rest => rest
  | _ => cs

/-- The declarations of a script. -/
def readDeclarations (source : String) : Except ScriptFault (List Decl) := do
  let cs := dropByteOrderMark source.toList
  let decls ← Parser.runAll (Parser.script (cs.length + 1)) .zero cs
  return Decl.placeAll none decls

/-- A script with the path it was read from and its path in the package, which falls back to the
former. -/
def Script.read (source path pkgPath : String) : Except ScriptFault Script := do
  let decls ← readDeclarations source
  return ⟨path, if pkgPath.isEmpty then path else pkgPath, source, decls⟩

end ChannelLint
