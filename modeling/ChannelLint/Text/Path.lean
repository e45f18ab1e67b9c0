import ChannelLint.Text.Blank
import ChannelLint.Text.Case

/-!
# Paths

Paths with forward slashes, joined and normalised as text.
-/
namespace ChannelLint.Path

/-- The names between the slashes of a path. -/
def parts (path : String) : List String :=
  (path.toList.splitOn '/').map String.ofList

/-- A path behind a folder. A path that begins with a slash stands for itself. -/
def join (folder path : String) : String :=
  if path.startsWith "/" then path
  else if folder.isEmpty || folder.endsWith "/" then folder ++ path
  else folder ++ "/" ++ path

/-- Everything in front of the last slash, without the slashes that end it. -/
def folder (path : String) : String :=
  let head := (path.toList.reverse.dropWhile (· != '/')).reverse
  if head.all (· == '/') then String.ofList head
  else String.ofList (head.reverse.dropWhile (· == '/')).reverse

/-- One more part of a path. `..` takes the part before it away, if there is one to take. -/
def addPart (rooted : Bool) (parts : List String) (part : String) : List String :=
  if part.isEmpty || part == "." then parts
  else if part != ".." then parts ++ [part]
  else match parts.getLast? with
    | none => if rooted then parts else parts ++ [part]
    | some last => if last == ".." then parts ++ [part] else parts.dropLast

/-- How many slashes a path keeps at its beginning: exactly two stay two. -/
def rootSlashes (path : String) : Nat :=
  let n := (path.toList.takeWhile (· == '/')).length
  if n = 0 then 0 else if n = 2 then 2 else 1

/-- A path without empty parts, `.` and `..` as far as possible. The empty path is `.`. -/
def normalize (path : String) : String :=
  let slashes := rootSlashes path
  let kept := (parts path).foldl (addPart (slashes != 0)) []
  let normal := String.ofList (List.replicate slashes '/') ++ "/".intercalate kept
  if normal.isEmpty then "." else normal

def forwardSlashes (path : String) : String :=
  String.ofList (path.toList.map fun c => if c == '\\' then '/' else c)

/-- The extension of a file name with its dot, in lower case. Leading dots belong to the name. -/
def extension (path : String) : String :=
  let name := path.toList.reverse.takeWhile (· != '/')
  let ext := name.takeWhile (· != '.')
  let stem := (name.drop (ext.length + 1)).reverse
  if ext.length < name.length && stem.any (· != '.') then
    Text.lower (String.ofList ('.' :: ext.reverse))
  else ""

/-- The package path that a script reference stands for. `pkg:/` leads to the root of the package;
any other reference starts from the folder of the file it stands in. -/
def resolveUri (uri base : String) : String :=
  let uri := forwardSlashes (Text.trim uri)
  if (Text.lower uri).startsWith "pkg:/" then
    normalize (String.ofList ((uri.toList.drop 5).dropWhile (· == '/')))
  else normalize (join (folder base) uri)

end ChannelLint.Path
