import ChannelLint.Text.Path
import ChannelLint.Text.Utf8

/-!
# Trees of files

Files and folders by the names that lead to them from the root of the tree. A path is followed name
by name, from the current folder on; what lies outside the tree does not exist. The tree has no
place in a larger one, so an absolute path is always missing, and a project has a relative root.
-/
namespace ChannelLint

structure FileTree where
  files : List (List String × ByteArray) := []
  folders : List (List String) := []
  /-- The folder that paths start from. -/
  current : List String := []

/-- Why a path does not lead to a file. -/
inductive PathFault where
  | missing | notFolder | isFolder
  deriving DecidableEq, Repr

def PathFault.text : PathFault → String
  | missing => "[Errno 2] No such file or directory"
  | notFolder => "[Errno 20] Not a directory"
  | isFolder => "[Errno 21] Is a directory"

/-- Why a text cannot be read. -/
inductive ReadFault where
  | path (fault : PathFault)
  | encoding (fault : Text.Utf8Fault)
  deriving DecidableEq, Repr

/-- The reason, for a file given by a path. -/
def ReadFault.message (file : String) : ReadFault → String
  | path fault => fault.text ++ ": " ++ Text.quoted file
  | encoding fault => fault.message

namespace FileTree

def file? (t : FileTree) (place : List String) : Option ByteArray :=
  t.files.lookup place

def hasFolder (t : FileTree) (place : List String) : Bool :=
  place.isEmpty || t.folders.contains place

/-- Follows the names of a path from a place. Every name has to stand in a folder. -/
def follow (t : FileTree) : List String → List String → Except PathFault (List String)
  | place, [] => .ok place
  | place, name :: rest =>
    if !t.hasFolder place then .error .notFolder
    else if name.isEmpty || name == "." then t.follow place rest
    else if name == ".." then
      if place.isEmpty then .error .missing else t.follow place.dropLast rest
    else
      let next := place ++ [name]
      if t.hasFolder next || (t.file? next).isSome then t.follow next rest else .error .missing

/-- The place that a path leads to. -/
def resolve (t : FileTree) (path : String) : Except PathFault (List String) :=
  if path.isEmpty || path.startsWith "/" then .error .missing
  else t.follow t.current (Path.parts path)

def isFolder (t : FileTree) (path : String) : Bool :=
  match t.resolve path with
  | .ok place => t.hasFolder place
  | .error _ => false

def isFile (t : FileTree) (path : String) : Bool :=
  match t.resolve path with
  | .ok place => !t.hasFolder place
  | .error _ => false

/-- Whether a path leads to a file or a folder. -/
def holds (t : FileTree) (path : String) : Bool :=
  (t.resolve path).isOk

def readBytes (t : FileTree) (path : String) : Except PathFault ByteArray := do
  let place ← t.resolve path
  if t.hasFolder place then throw .isFolder
  match t.file? place with
  | some bytes => return bytes
  | none => throw .missing

/-- The text of a file, with its line ends as they are. -/
def readRaw (t : FileTree) (path : String) : Except ReadFault String := do
  let bytes ← (t.readBytes path).mapError .path
  (Text.decode bytes).mapError .encoding

/-- The text of a file, with unified line ends. -/
def readText (t : FileTree) (path : String) : Except ReadFault String := do
  let bytes ← (t.readBytes path).mapError .path
  (Text.decodeLines bytes).mapError .encoding

/-- Puts bytes at a place, and makes the folders that lead there. -/
def insert (t : FileTree) (place : List String) (bytes : ByteArray) : FileTree :=
  let above := (List.range place.length).map place.take
  let files :=
    if (t.file? place).isSome then
      t.files.map fun (p, old) => if p == place then (p, bytes) else (p, old)
    else t.files ++ [(place, bytes)]
  { t with
    files
    folders := above.foldl (fun known f => if known.contains f then known else known ++ [f])
      t.folders }

/-- Takes a file away; its folder stays. -/
def erase (t : FileTree) (place : List String) : FileTree :=
  { t with files := t.files.filter (·.1 != place) }

/-- Replaces the text of a file. -/
def writeText (t : FileTree) (path text : String) : FileTree :=
  match t.resolve path with
  | .ok place => t.insert place (Text.encode text)
  | .error _ => t

/-! ## Source files -/

/-- Folders that no source file is looked for in. -/
def skippedFolders : List String :=
  [".git", "out", "dist", "build", "__pycache__", "node_modules", ".vscode", ".idea", "venv",
    ".roku-deploy-staging"]

def scriptExtensions : List String := [".brs", ".bs"]

def componentExtensions : List String := [".xml"]

/-- Whether the names below the root of a project lead to a script or a component. -/
def isSource (names : List String) : Bool :=
  let extension := Path.extension (names.getLast?.getD "")
  !names.dropLast.any skippedFolders.contains &&
    (scriptExtensions ++ componentExtensions).contains extension

/-- The package path of a file below the root of a project. -/
def pkgPath (names : List String) : String :=
  Path.forwardSlashes ("/".intercalate names)

/-- The package paths of all scripts and components below a folder, in order. -/
def sources (t : FileTree) (root : String) : List String :=
  match t.resolve root with
  | .error _ => []
  | .ok top =>
    let below := t.files.filterMap fun (place, _) =>
      if top.isPrefixOf place then some (place.drop top.length) else none
    ((below.filter isSource).map pkgPath).mergeSort (· ≤ ·)

end FileTree

end ChannelLint
