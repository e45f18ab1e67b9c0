import ChannelLint.Diagnostic
import ChannelLint.Log
import ChannelLint.Scope
import ChannelLint.Worklist

/-!
# The usage graph

Components and scripts are vertices; an edge says that one uses another. A component uses the
component it extends, the components of its child nodes and the scripts of its scope. A script uses
the components whose names it holds as string literals. What cannot be reached from the entry
script is reported as unused. The graph is an ordered map from vertices to edges, and what is
reached is found by a list of the vertices still to be looked at, not by a recursion along edges.
-/
namespace ChannelLint

/-- The vertex of a component: its name in lower case, in quotes, so that it is never a path. -/
def componentVertex (name : String) : String :=
  "\"" ++ Text.lower name ++ "\""

/-- The vertex of a script: its package path in lower case with forward slashes. -/
def scriptVertex (pkgPath : String) : String :=
  Text.lower (Path.forwardSlashes pkgPath)

/-- The scope of the main program, and its vertex. -/
def sourceScope : String := "source"

def entryPoints : List String := ["source/main.brs", "source/main.bs"]

/-- Components that the firmware provides. -/
def builtinComponents : List String := [
  "animation", "busyspinner", "buttongroup", "channelstore", "checklist", "colorfieldinterpolator",
  "contentnode", "dialog", "dynamiccustomkeyboard", "dynamickeyboard", "dynamickeygrid",
  "dynamicminikeyboard", "dynamicpinpad", "floatfieldinterpolator", "font", "group", "keyboard",
  "keyboarddialog", "label", "labellist", "layoutgroup", "markupgrid", "markuplist", "maskgroup",
  "minikeyboard", "node", "parallelanimation", "pindialog", "pinpad", "poster", "progressdialog",
  "radiobuttonlist", "rectangle", "rowlist", "scene", "scrollabletext", "scrollinglabel",
  "sequentialanimation", "simplelabel", "standarddialog", "standardkeyboarddialog",
  "standardmessagedialog", "standardpinpaddialog", "standardprogressdialog", "targetgroup",
  "targetlist", "targetset", "task", "texteditbox", "timegrid", "timer",
  "vector2dfieldinterpolator", "video", "voicetexteditbox", "zoomrowlist"]

def builtinVertices : List String :=
  builtinComponents.map componentVertex

structure Edge where
  target : String
  /-- Where the use stands; nothing for an edge that a scope implies. -/
  range : Option Range
  /-- The package path of the file that the edge comes from. -/
  file : String
  deriving DecidableEq, Repr

/-- The file that a vertex stands for. -/
inductive Owner where
  | component (pkgPath : String) (nameRange : Option Range)
  | script (pkgPath : String)
  deriving DecidableEq, Repr

def Owner.pkgPath : Owner → String
  | component path _ | script path => path

/-- The finding for a file that is not used. A component whose name was not found in its text has
no place to report it at. -/
def Owner.unused? : Owner → Option Finding
  | script path => some ⟨.unusedScript path, .create 0 0 1 0⟩
  | component path range => range.map fun r => ⟨.unusedComponent path, r⟩

structure Vertex where
  owner : Option Owner := none
  edges : List Edge := []
  deriving DecidableEq, Repr

structure UsageGraph where
  /-- Vertices by name, in the order in which they were created. -/
  vertices : OrderedMap Vertex := ∅
  /-- The vertex of the entry script. -/
  entry : Option String := none
  /-- Scripts that were registered. -/
  scripts : List String := []
  /-- String literals of the scripts registered since the last check. -/
  literals : OrderedMap (List (String × Range)) := ∅
  /-- What the last check reached, and the components of the firmware. -/
  walked : List String := []
  deriving DecidableEq, Repr

namespace UsageGraph

/-- Changes a vertex, which is created if need be. -/
def withVertex (g : UsageGraph) (name : String) (f : Vertex → Vertex) : UsageGraph :=
  { g with vertices := g.vertices.insert name (f ((g.vertices.find? name).getD {})) }

/-! ## Registration -/

/-- The components that a node uses. -/
def nodeEdges (pkgPath : String) (n : Node) : List Edge :=
  let own := [⟨componentVertex n.tag, n.range, pkgPath⟩]
  match n.attributes.find? "itemcomponentname" with
  | some item => if item.isEmpty then own else own ++ [⟨componentVertex item, n.range, pkgPath⟩]
  | none => own

/-- The components that a component uses. -/
def componentEdges (c : Component) : List Edge :=
  let parent := match c.parent with
    | some name => if name.isEmpty then [] else [⟨componentVertex name, c.parentRange, c.pkgPath⟩]
    | none => []
  parent ++ c.nodes.flatMap (nodeEdges c.pkgPath)

/-- Registers a component. One without a name cannot be used and is left out. -/
def addComponent (g : UsageGraph) (c : Component) : UsageGraph :=
  match c.name with
  | none => g
  | some name =>
    if name.isEmpty then g
    else g.withVertex (componentVertex name) fun v =>
      { v with
        owner := some (.component c.pkgPath c.nameRange)
        edges := v.edges ++ componentEdges c }

/-- Registers a script the first time it is seen. The entry script uses the scope of the main
program. -/
def addScript (g : UsageGraph) (s : Script) : UsageGraph :=
  let name := scriptVertex s.pkgPath
  if g.scripts.contains name then g
  else
    let isEntry := entryPoints.contains name
    let g := g.withVertex name fun v =>
      { owner := some (.script s.pkgPath)
        edges := if isEntry then v.edges ++ [⟨sourceScope, none, s.pkgPath⟩] else v.edges }
    { g with
      entry := if isEntry then some name else g.entry
      scripts := g.scripts ++ [name]
      literals := g.literals.insert name s.stringLiterals }

/-- The vertex that a scope belongs to: the main program, or its component if that has a name. -/
def scopeVertex? (s : Scope) : Option String :=
  if s.name == sourceScope then some sourceScope
  else match s.component.bind (·.name) with
    | some name => if name.isEmpty then none else some (componentVertex name)
    | none => none

/-- Lets a vertex use a script, which is registered if need be. -/
def addUse (vertex : String) (g : UsageGraph) (file : Script) : UsageGraph :=
  let edge := ⟨scriptVertex file.pkgPath, none, file.pkgPath⟩
  (g.withVertex vertex fun v => { v with edges := v.edges ++ [edge] }).addScript file

/-- Registers the scripts of a scope, which its vertex uses. -/
def addScope (g : UsageGraph) (s : Scope) : UsageGraph :=
  match scopeVertex? s with
  | none => g
  | some vertex => s.files.foldl (addUse vertex) (g.withVertex vertex id)

/-- What registering a scope logs. -/
def scopeLog (s : Scope) : Log :=
  if (scopeVertex? s).isSome then []
  else if s.component.isNone then
    [⟨.debug, .usage, s!"Scope XML component not found: {s.name}"⟩]
  else [⟨.debug, .usage, s!"Component not found: {s.name}"⟩]

/-! ## Checking -/

/-- Adds an edge for every literal of a script that is the name of a vertex. -/
def resolveScript (names : OrderedMap Vertex) (g : UsageGraph)
    (script : String × List (String × Range)) : UsageGraph :=
  g.withVertex script.1 fun v =>
    let file := (v.owner.map (·.pkgPath)).getD ""
    let used := script.2.filter fun (text, _) => names.contains text
    { v with edges := v.edges ++ used.map fun (text, range) => ⟨text, some range, file⟩ }

/-- Adds the edges of the literals. -/
def resolveLiterals (g : UsageGraph) : UsageGraph :=
  { g.literals.entries.foldl (resolveScript g.vertices) g with literals := ∅ }

/-- The names that each vertex leads to. -/
def targets (g : UsageGraph) : OrderedMap (List String) :=
  g.vertices.map fun v => v.edges.map (·.target)

/-- What is visited from a vertex, in order. The components of the firmware are not entered. -/
def visited (g : UsageGraph) (start : String) : List String :=
  Worklist.visit g.targets [start] builtinVertices

/-- Said when there is no entry script. -/
def missingEntry : String :=
  "No \x60main.brs\x60 found: cannot check usage without an entry point"

structure Check where
  graph : UsageGraph
  findings : List (String × Finding)
  /-- Names that were reached and are no vertices, in order. -/
  unknown : List String

/-- Walks from the entry script and finds what was not reached; nothing if there is no entry
script. -/
def check? (g : UsageGraph) : Option Check :=
  g.entry.map fun start =>
    let g := g.resolveLiterals
    let visited := g.visited start
    let g := { g with walked := builtinVertices ++ visited }
    let findings := g.vertices.entries.filterMap fun (name, v) =>
      if g.walked.contains name then none
      else v.owner.bind fun owner => owner.unused?.map fun f => (owner.pkgPath, f)
    ⟨g, findings, visited.filter fun name => !g.vertices.contains name⟩

/-- The diagnostics of a check. -/
def Check.diagnostics (c : Check) (settings : Settings) : List Diagnostic :=
  c.findings.filterMap fun (file, f) => settings.report? file f

/-- How many vertices were reached. -/
def reached (g : UsageGraph) : Nat :=
  (g.vertices.keys.filter (g.walked.contains ·)).length

def Check.log (c : Check) (settings : Settings) : Log :=
  let vertices := c.graph.vertices.entries.length
  let reached := c.graph.reached
  let unused := (c.diagnostics settings).length
  c.unknown.map (fun name => ⟨.debug, .usage, s!"Unknown component: {name}"⟩) ++
    [⟨.info, .usage, s!"Usage graph: {vertices} vertices, {reached} reached, {unused} unused"⟩]

/-! ## Counts -/

def Owner.isScript : Owner → Bool
  | .script _ => true
  | .component .. => false

/-- The size of a graph. -/
structure Summary where
  vertices : Nat
  components : Nat
  scripts : Nat
  edges : Nat
  reached : Nat
  deriving DecidableEq, Repr

def summary (g : UsageGraph) : Summary :=
  let vertices := g.vertices.values
  { vertices := vertices.length
    components := (vertices.filter (·.owner.any (!Owner.isScript ·))).length
    scripts := (vertices.filter (·.owner.any Owner.isScript)).length
    edges := vertices.foldl (fun n v => n + v.edges.length) 0
    reached := g.reached }

end UsageGraph

end ChannelLint
