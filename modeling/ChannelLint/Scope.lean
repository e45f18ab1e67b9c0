import ChannelLint.Component
import ChannelLint.Script.Walk
import ChannelLint.Text.Case

/-!
# Scopes

A scope is a set of scripts that are loaded together. It knows the functions its scripts declare,
the functions of the runtime, and the namespaces, classes, enumerations and constants. All names
are in lower case.
-/
namespace ChannelLint

/-- Functions that every script may call. -/
def builtinFunctions : List String :=
  ["createobject", "type", "getglobalaa", "box", "run", "eval", "getlastruncompileerror",
    "getlastrunruntimeerror", "sleep", "wait", "getinterface", "findmemberfunction", "uptime",
    "rebootsystem", "listdir", "readasciifile", "writeasciifile", "copyfile", "movefile",
    "matchfiles", "deletefile", "deletedirectory", "createdirectory", "formatdrive", "strtoi",
    "rungarbagecollector", "parsejson", "formatjson", "tr", "asc", "chr", "instr", "lcase", "left",
    "len", "mid", "right", "str", "stri", "string", "stringi", "ucase", "val", "substitute", "abs",
    "atn", "cdbl", "cint", "cos", "csng", "exp", "fix", "int", "log", "rnd", "sgn", "sin", "sqr",
    "tan"]

/-- The names between the dots of a dotted name. -/
def dottedParts (name : String) : List String :=
  (name.toList.splitOn '.').map String.ofList

/-- The prefixes of a dotted name, shortest first. -/
def dottedPrefixes (parts : List String) : List String :=
  (List.range parts.length).map fun i => ".".intercalate (parts.take (i + 1))

/-- A name behind the namespace it stands in. -/
def inNamespace (nspace : Option String) (name : String) : String :=
  match nspace with
  | none => name
  | some outer => if outer.isEmpty then name else outer ++ "." ++ name

/-- The function a declaration declares. -/
def Decl.callable? : Decl → Option String
  | .function name func => some (inNamespace func.nspace (Text.lower name.text))
  | _ => none

/-- The names, other than functions, that a declaration declares. -/
def Decl.toplevel : Decl → List String
  | .nspace name _ _ => dottedPrefixes (dottedParts (Text.lower name))
  | .class decl => [inNamespace decl.nspace (Text.lower decl.name.text)]
  | .enum name _ _ outer => [inNamespace outer (Text.lower name.text)]
  | .const name _ _ outer => [inNamespace outer (Text.lower name.text)]
  | _ => []

def Script.callables (s : Script) : List String :=
  s.allDecls.filterMap (·.callable?)

def Script.toplevel (s : Script) : List String :=
  s.allDecls.flatMap (·.toplevel)

/-- Names without repetition, in the order in which they came. -/
def addNames (known names : List String) : List String :=
  names.foldl (fun known name => if known.contains name then known else known ++ [name]) known

structure Scope where
  name : String
  files : List Script := []
  callables : List String := []
  toplevel : List String := []
  /-- The component that the scripts are loaded for. -/
  component : Option Component := none

namespace Scope

def holds (s : Scope) (path : String) : Bool :=
  s.files.any (·.path == path)

/-- Adds a script, unless one with its path is there already. -/
def addFile (s : Scope) (file : Script) : Scope :=
  if s.holds file.path then s
  else
    { s with
      files := s.files ++ [file]
      callables := addNames s.callables file.callables
      toplevel := addNames s.toplevel file.toplevel }

/-- A scope in which only the functions of the runtime are known. -/
def withBuiltins (name : String) (component : Option Component := none) : Scope :=
  { name, callables := builtinFunctions, component }

end Scope

end ChannelLint
