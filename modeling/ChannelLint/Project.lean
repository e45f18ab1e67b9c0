import ChannelLint.FileTree
import ChannelLint.Log
import ChannelLint.Scope
import ChannelLint.Script.Reader
import ChannelLint.UsageGraph
import ChannelLint.Worklist

/-!
# Projects

The scripts and components of a project, each read once, and the scopes that they form: one for the
scripts of the main program and one for each component with a name. A scope holds its scripts and
everything they import; a component also has the scripts of the components it extends. A file that
cannot be read or is malformed is skipped and belongs to no scope. The root of a project is a path
from the current folder of a tree of files, and an absolute one is refused as missing.
-/
namespace ChannelLint

/-- What reading a source file gives. -/
inductive Source where
  | script (s : Script)
  | component (c : Component)
  | malformed (reason : String)
  | unreadable (reason : String)

structure Skipped where
  path : String
  reason : String
  deriving DecidableEq, Repr

namespace Source

def skipped? (path : String) : Source → Option Skipped
  | malformed reason => some ⟨path, reason⟩
  | unreadable reason => some ⟨path, "cannot read file: " ++ reason⟩
  | script _ | component _ => none

def log (path : String) : Source → Log
  | script s =>
    [⟨.debug, .scripts, s!"Parsed {s.path}: {s.decls.length} top-level statement(s)"⟩]
  | component c =>
    if Text.lower c.root == "component" then []
    else [⟨.debug, .components,
      s!"{c.pkgPath} is not a SceneGraph component (root <{c.root}>)"⟩]
  | malformed reason => [⟨.warning, .index, s!"Skipping {path}: {reason}"⟩]
  | unreadable reason => [⟨.error, .index, s!"Cannot read {path}: {reason}"⟩]

/-- Reads the file with a package path. A component in an encoding that cannot be handled is the
only fault that is not confined to its file. -/
def read (t : FileTree) (root path : String) : Except Markup.Fault Source :=
  let full := Path.join root path
  match t.readText full with
  | .error fault => .ok (.unreadable (fault.message full))
  | .ok text =>
    if FileTree.componentExtensions.contains (Path.extension path) then
      match Component.read text full path with
      | .ok c => .ok (.component c)
      | .error (.located cause line column) =>
        .ok (.malformed (Markup.Fault.describe (.located cause line column) full))
      | .error fault => .error fault
    else
      match Script.read text full path with
      | .ok s => .ok (.script s)
      | .error fault => .ok (.malformed (fault.describe full))

/-- Reads files in order, up to the first fault that ends the reading. -/
def readAll (t : FileTree) (root : String) :
    List String → List (String × Source) × Option Markup.Fault
  | [] => ([], none)
  | path :: rest =>
    match read t root path with
    | .error fault => ([], some fault)
    | .ok source =>
      let (more, fault) := readAll t root rest
      ((path, source) :: more, fault)

end Source

/-- The files of a project by what they are. -/
structure SourceSet where
  /-- Scripts by their package path in lower case. -/
  scripts : OrderedMap Script := ∅
  /-- Components by their package path. -/
  components : OrderedMap Component := ∅
  skipped : List Skipped := []

namespace SourceSet

def add (s : SourceSet) (path : String) (source : Source) : SourceSet :=
  match source with
  | .script script => { s with scripts := s.scripts.insert (Text.lower path) script }
  | .component c => { s with components := s.components.insert path c }
  | .malformed _ | .unreadable _ =>
    { s with skipped := s.skipped ++ (source.skipped? path).toList }

def ofList (sources : List (String × Source)) : SourceSet :=
  sources.foldl (fun s (path, source) => s.add path source) {}

/-- The key of a script with a package path. -/
def scriptKey (pkgPath : String) : String :=
  Text.lower (Path.forwardSlashes pkgPath)

def script? (s : SourceSet) (pkgPath : String) : Option Script :=
  s.scripts.find? (scriptKey pkgPath)

/-- The first component with a name, in any letter case. -/
def component? (s : SourceSet) (name : String) : Option Component :=
  s.components.values.find? fun c =>
    match c.name with
    | some own => !own.isEmpty && Text.lower own == Text.lower name
    | none => false

/-! ## Imports -/

/-- The key of an imported script. -/
def importKey (script : Script) (path : String) : String :=
  scriptKey (Path.resolveUri path script.pkgPath)

/-- The scripts that each script imports, the last import first. -/
def imports (s : SourceSet) : OrderedMap (List String) :=
  s.scripts.map fun script =>
    ((script.imports.map (importKey script)).filter (s.scripts.contains ·)).reverse

/-- What the imports of a script log. -/
def importLog (s : SourceSet) (script : Script) : Log :=
  (script.imports.filter fun path => !s.scripts.contains (importKey script path)).map fun path =>
    ⟨.debug, .index, s!"{script.pkgPath}: import '{path}' not found"⟩

/-! ## Inheritance -/

/-- The component that each component extends. -/
def parents (s : SourceSet) : OrderedMap (List String) :=
  s.components.map fun c =>
    match c.parent with
    | some name => if name.isEmpty then [] else ((s.component? name).map (·.pkgPath)).toList
    | none => []

/-- The package paths of the scripts of a component: those of the components it extends come
first. -/
def componentScripts (s : SourceSet) (c : Component) : List String :=
  let lineage := (Worklist.visit s.parents [c.pkgPath] []).reverse
  (lineage.filterMap s.components.find?).flatMap fun c => c.scripts.map (·.pkgPath)

/-! ## Scopes -/

/-- A scope with the scripts that can be loaded from `roots`. -/
def scope (s : SourceSet) (name : String) (component : Option Component) (roots : List String) :
    Scope :=
  let keys := Worklist.visit s.imports roots []
  (keys.filterMap s.scripts.find?).foldl Scope.addFile (Scope.withBuiltins name component)

def sourceRoots (s : SourceSet) : List String :=
  (s.scripts.keys.mergeSort (· ≤ ·)).filter (·.startsWith (sourceScope ++ "/"))

/-- The keys of the scripts of a component that exist. -/
def componentRoots (s : SourceSet) (c : Component) : List String :=
  ((s.componentScripts c).map scriptKey).filter (s.scripts.contains ·)

/-- Components in the order of their package paths. -/
def sortedComponents (s : SourceSet) : List Component :=
  (s.components.keys.mergeSort (· ≤ ·)).filterMap s.components.find?

/-- Components that have a scope. -/
def namedComponents (s : SourceSet) : List Component :=
  s.sortedComponents.filter (·.name.isSome)

def scopes (s : SourceSet) : List Scope :=
  s.scope sourceScope none s.sourceRoots ::
    s.namedComponents.map fun c => s.scope c.pkgPath (some c) (s.componentRoots c)

/-- What loading scripts one after the other logs, when `seen` are loaded already. A script that
does not exist is reported by `missing`. -/
def loadLog (s : SourceSet) (missing : String → Log) : List String → List String → Log
  | [], _ => []
  | path :: rest, seen =>
    let key := scriptKey path
    if s.scripts.contains key then
      let new := Worklist.visit s.imports [key] seen
      (new.filterMap s.scripts.find?).flatMap s.importLog ++ loadLog s missing rest (seen ++ new)
    else missing path ++ loadLog s missing rest seen

def scopesLog (s : SourceSet) : Log :=
  s.loadLog (fun _ => []) s.sourceRoots [] ++ s.namedComponents.flatMap fun c =>
    s.loadLog (fun path => [⟨.debug, .index, s!"{c.pkgPath}: script '{path}' not found"⟩])
      (s.componentScripts c) []

end SourceSet

structure Project where
  root : String
  /-- The package paths of all source files, in order. -/
  files : List String
  sources : SourceSet
  scopes : List Scope

inductive ProjectFault where
  | noRoot (root : String)
  | encoding (fault : Markup.Fault)
  deriving DecidableEq, Repr

def ProjectFault.message : ProjectFault → String
  | noRoot root => s!"Project root not found: {root}"
  | encoding fault => fault.message

/-- A value or a fault, and what was logged on the way. -/
structure Logged (ε α : Type) where
  result : Except ε α
  log : Log

namespace Project

/-- A project from its files. -/
def ofSources (root : String) (files : List String) (sources : List (String × Source)) : Project :=
  let set := SourceSet.ofList sources
  ⟨root, files, set, set.scopes⟩

def builtLine (p : Project) : LogLine :=
  let scripts := p.sources.scripts.entries.length
  let components := p.sources.components.entries.length
  let scopes := p.scopes.length
  let skipped := p.sources.skipped.length
  ⟨.info, .index, s!"WorkspaceIndex built: {scripts} scripts, {components} components, " ++
    s!"{scopes} scopes, {skipped} skipped"⟩

/-- Reads the project in a folder. -/
def read (t : FileTree) (root : String) : Logged ProjectFault Project :=
  if !t.isFolder root then ⟨.error (.noRoot root), []⟩
  else
    let files := t.sources root
    let (sources, fault) := Source.readAll t root files
    let found : LogLine :=
      ⟨.info, .index, s!"WorkspaceIndex: found {files.length} files to index"⟩
    let log := found :: sources.flatMap fun (path, source) => source.log path
    match fault with
    | some fault => ⟨.error (.encoding fault), log⟩
    | none =>
      let p := Project.ofSources root files sources
      ⟨.ok p, log ++ p.sources.scopesLog ++ [p.builtLine]⟩

def scope? (p : Project) (name : String) : Option Scope :=
  p.scopes.find? (·.name == name)

end Project

end ChannelLint
