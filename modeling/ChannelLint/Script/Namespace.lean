import ChannelLint.Script.Tree
import ChannelLint.Text.Case

/-!
# Namespaces of declarations

A declaration inside a namespace carries the full name of that namespace in lower case. The name of
a namespace inside another one begins with the full name of the outer one.
-/
namespace ChannelLint

/-- The full name of a namespace called `name` inside `outer`. -/
def qualifiedName (outer : Option String) (name : String) : String :=
  match outer with
  | none => name
  | some outer => if outer.isEmpty then name else outer ++ "." ++ name

def ClassMember.place (outer : Option String) : ClassMember → ClassMember
  | method name func => method name { func with nspace := outer }
  | field name type value range => field name type value range

mutual

/-- A declaration with the namespace that surrounds it. -/
def Decl.place (outer : Option String) : Decl → Decl
  | .function name func => .function name { func with nspace := outer }
  | .class decl => .class { decl with nspace := outer, members := decl.members.map (·.place outer) }
  | .nspace name body range =>
    let full := qualifiedName outer name
    .nspace full (Decl.placeAll (some (Text.lower full)) body) range
  | .const name value range _ => .const name value range outer
  | .enum name members range _ => .enum name members range outer
  | .importFile path range => .importFile path range
  | .library path range => .library path range

def Decl.placeAll (outer : Option String) : List Decl → List Decl
  | [] => []
  | decl :: rest => decl.place outer :: Decl.placeAll outer rest

end

end ChannelLint
