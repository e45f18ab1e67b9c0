import ChannelLint.Edit
import ChannelLint.FileTree
import ChannelLint.Log

/-!
# Writing edits back

Edits are applied to the text of a file as it is on disk, line ends included. A file that cannot be
read counts as one without edits.
-/
namespace ChannelLint

/-- What became of the edits: how many were applied to each file, and the files afterwards. -/
structure FixReport where
  applied : OrderedMap Nat := ∅
  tree : FileTree
  log : Log := []

namespace FixReport

def overlapLine (path : String) (s : Splice) : LogLine :=
  ⟨.warning, .fixer,
    s!"Overlap detected in {path} at offset {s.start}-{s.stop}. Skipping edit."⟩

/-- A file that the edits cannot be applied to. -/
def fail (r : FixReport) (path reason : String) : FixReport :=
  { r with
    applied := r.applied.insert path 0
    log := r.log ++ [⟨.error, .fixer, s!"Failed to apply fixes to {path}: {reason}"⟩] }

/-- Applies the edits of one file. A dry run only counts. -/
def fixFile (dryRun : Bool) (r : FixReport) (path : String) (edits : List TextEdit) : FixReport :=
  if edits.isEmpty then r
  else if !r.tree.holds path then r.fail path s!"File not found: {path}"
  else match r.tree.readRaw path with
    | .error fault => r.fail path (fault.message path)
    | .ok text =>
      let edited := ChannelLint.applyEdits text edits
      let n := edited.applied
      let done : LogLine := ⟨.info, .fixer,
        if dryRun then s!"[Dry Run] Would apply {n} fixes to {path}"
        else s!"Applied {n} fixes to {path}"⟩
      { applied := r.applied.insert path n
        tree := if dryRun then r.tree else r.tree.writeText path (String.ofList edited.text)
        log := r.log ++ edited.overlaps.map (overlapLine path) ++ [done] }

end FixReport

/-- Applies edits by file, in order. -/
def FileTree.fix (t : FileTree) (edits : OrderedMap (List TextEdit)) (dryRun : Bool) : FixReport :=
  edits.entries.foldl (fun r (path, edits) => r.fixFile dryRun path edits) { tree := t }

end ChannelLint
