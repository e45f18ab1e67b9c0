import ChannelLint.Script.Parser.Statements

/-!
# Grammar rules for declarations

What may stand at the top of a script. A namespace holds declarations again. The tree keeps only
what is looked at later: of a member of an enumeration its name, and not its value.
-/
namespace ChannelLint.Parser

def startsFunction : Option Terminal → Bool
  | some .kwSub | some .kwFunction => true
  | _ => false

def functionDeclaration (rules : Rules) : Parser Decl := do
  let keyword ← take
  let name := ident (← expect .name)
  return .function name (← functionTail rules keyword.range.start keyword (some name) false)

/-! ## Classes -/

/-- The name of a method, which may be `new`. -/
def methodName : Parser Ident := do
  match ← look with
  | some .name | some .kwNew => return ident (← take)
  | _ => refuse

def classMember (rules : Rules) : Parser ClassMember := do
  let start ← here
  skipMany .modifier
  if startsFunction (← look) then
    let keyword ← take
    let name ← methodName
    return .method name (← functionTail rules start keyword (some name) true)
  else
    let name ← expect .name
    let type ← typeClause?
    let value ← valueClause? rules
    return .field (ident name) type value (← since start)

def startsMember : Terminal → Bool
  | .modifier | .name | .kwSub | .kwFunction => true
  | _ => false

/-- `extends` and a dotted name, if they come next. -/
def parentClause? : Parser (Option String) := do
  match ← accept? .kwExtends with
  | some _ => return some (dottedText (← dottedNames))
  | none => return none

def classDeclaration (rules : Rules) : Parser Decl := do
  let start ← here
  let _ ← take
  let name ← expect .name
  let parent ← parentClause?
  separator
  let members ← linesOf startsMember (classMember rules)
  let _ ← expect .endClass
  return .class ⟨ident name, parent, members, ← since start, none⟩

/-! ## Constants, enumerations, imports -/

def constDeclaration (rules : Rules) : Parser Decl := do
  let start ← here
  let _ ← take
  let name ← expect .name
  let _ ← expect .equals
  let value ← rules.expr
  return .const (ident name) value (← since start) none

/-- Only the name of an enumeration member is kept. -/
def enumMember (rules : Rules) : Parser Ident := do
  let name ← expect .name
  let _ ← valueClause? rules
  return ident name

def enumDeclaration (rules : Rules) : Parser Decl := do
  let start ← here
  let _ ← take
  let name ← expect .name
  separator
  let members ← linesOf (· == .name) (enumMember rules)
  let _ ← expect .endEnum
  return .enum (ident name) members (← since start) none

/-- A keyword and a path between quotes. -/
def pathDeclaration (build : String → Range → Decl) : Parser Decl := do
  let start ← here
  let _ ← take
  let path ← expect .string
  return build (unquote path.text) (← since start)

/-! ## Declarations -/

def startsDeclaration : Terminal → Bool
  | .kwSub | .kwFunction | .kwClass | .kwNamespace | .kwConst | .kwEnum | .kwImport
  | .kwLibrary => true
  | _ => false

def namespaceDeclaration (inner : Parser Decl) : Parser Decl := do
  let start ← here
  let _ ← take
  let names ← dottedNames
  separator
  let body ← linesOf startsDeclaration inner
  let _ ← expect .endNamespace
  return .nspace (dottedText names) body (← since start)

/-- A declaration with at most `n` namespaces inside each other. -/
def declarationUpTo (rules : Rules) : Nat → Parser Decl
  | 0 => refuse
  | n + 1 => do
    match ← look with
    | some .kwSub | some .kwFunction => functionDeclaration rules
    | some .kwClass => classDeclaration rules
    | some .kwNamespace => namespaceDeclaration (declarationUpTo rules n)
    | some .kwConst => constDeclaration rules
    | some .kwEnum => enumDeclaration rules
    | some .kwImport => pathDeclaration .importFile
    | some .kwLibrary => pathDeclaration .library
    | _ => refuse

/-- A separator, or a declaration; a declaration ends with a separator or with the script. -/
def topLine? (declaration : Parser Decl) : Parser (Option (Option Decl)) := do
  match ← look with
  | none => return none
  | some t =>
    if startsSeparator (some t) then
      separator
      return some none
    else
      let decl ← declaration
      if (← look).isSome then separator
      return some (some decl)

/-- A whole script. -/
def scriptLines (declaration : Parser Decl) : Parser (List Decl) := do
  return (← collect (topLine? declaration)).filterMap id

end ChannelLint.Parser
