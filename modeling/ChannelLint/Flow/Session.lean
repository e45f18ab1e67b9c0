import ChannelLint.Flow.Analysis
import ChannelLint.Scope

/-!
# Names that wait for their scope

A name that is read without a binding may be a function or a constant of another file. Such uses
are kept for each file, and decided once the scope is known that loads the file. A session is passed
on from file to file and from scope to scope; nothing in it is changed in place.
-/
namespace ChannelLint

structure DeferredUse where
  use : FreeUse
  /-- The namespace of the function that holds the use. -/
  nspace : Option String
  deriving DecidableEq, Repr

/-- The full names that a use may stand for: its name behind every prefix of its namespace. -/
def DeferredUse.candidates (d : DeferredUse) : List String :=
  let key := Text.lower d.use.name
  match d.nspace with
  | none => [key]
  | some nspace =>
    if nspace.isEmpty then [key]
    else key :: (dottedPrefixes (dottedParts (Text.lower nspace))).map (· ++ "." ++ key)

def Func.deferredUses (f : Func) (w : Walk) : List DeferredUse :=
  w.freeUses.map (⟨·, f.nspace⟩)

/-- What the analysis of one script yields. -/
structure ScriptFlow where
  findings : List Finding
  deferred : List DeferredUse

def Script.flow (s : Script) (loopsBranch : Bool) : ScriptFlow :=
  let walks := s.functions.map fun f => (f, f.flow loopsBranch)
  ⟨walks.flatMap (·.2.findings), walks.flatMap fun (f, w) => f.deferredUses w⟩

/-- Deferred uses by the path of their file. -/
structure Session where
  deferred : OrderedMap (List DeferredUse) := ∅
  deriving DecidableEq, Repr

namespace Session

def get (s : Session) (path : String) : List DeferredUse :=
  (s.deferred.find? path).getD []

def reset (s : Session) (path : String) : Session :=
  ⟨s.deferred.insert path []⟩

/-- Analyses a script: its diagnostics, and the session with its deferred uses in place of older
ones. An ignored script has neither. -/
def analyze (s : Session) (settings : Settings) (script : Script) : List Diagnostic × Session :=
  if settings.isIgnored script.path then ([], s.reset script.path)
  else
    let flow := script.flow settings.loopsBranch
    (settings.report script.pkgPath flow.findings, ⟨s.deferred.insert script.path flow.deferred⟩)

/-- Whether a deferred use stands for something that the scope or the settings know. -/
def isKnown (settings : Settings) (scope : Scope) (d : DeferredUse) : Bool :=
  d.candidates.any fun name =>
    scope.callables.contains name || scope.toplevel.contains name ||
      settings.globalNames.contains name

/-- The findings for the deferred uses of a file in a scope. -/
def unknownUses (settings : Settings) (scope : Scope) (uses : List DeferredUse) : List Finding :=
  (uses.filter (!isKnown settings scope ·)).map fun d =>
    ⟨.uninitialized d.use.name scope.name, d.use.range⟩

/-- Decides the deferred uses of every file of a scope. -/
def finalize (s : Session) (settings : Settings) (scope : Scope) : List Diagnostic :=
  scope.files.flatMap fun file =>
    settings.report file.pkgPath (unknownUses settings scope (s.get file.path))

end Session

/-- The diagnostics of a script that is alone in its scope. -/
def lintScript (settings : Settings) (script : Script) : List Diagnostic :=
  let (diagnostics, session) := ({} : Session).analyze settings script
  let scope := (Scope.withBuiltins "source").addFile script
  Diagnostic.sort (diagnostics ++ session.finalize settings scope)

end ChannelLint
