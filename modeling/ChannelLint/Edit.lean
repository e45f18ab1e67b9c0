import ChannelLint.Diagnostic
import ChannelLint.Text.Lines

/-!
# Applying edits

Edits are applied from the end of a text to its beginning, so that the offsets in front of an edit
stay valid. An edit that reaches into one that was already applied is left out.
-/
namespace ChannelLint

/-- Offsets to be replaced, and the replacement. -/
structure Splice where
  start : Nat
  stop : Nat
  text : String
  deriving DecidableEq, Repr

def TextEdit.splice (starts : List Nat) (length : Nat) (e : TextEdit) : Splice :=
  ⟨offsetOf starts length e.range.start, offsetOf starts length e.range.stop, e.text⟩

/-- Later offsets first. -/
def Splice.follows (a b : Splice) : Bool :=
  b.start < a.start || (a.start == b.start && b.stop ≤ a.stop)

/-- The text so far, and what was done to it. -/
structure Edited where
  text : List Char
  applied : Nat
  /-- Edits that were left out because they overlap. -/
  overlaps : List Splice
  /-- Where the edit that was applied last starts. -/
  frontier : Option Nat

def Edited.apply (e : Edited) (s : Splice) : Edited :=
  if e.frontier.any (· < s.stop) then { e with overlaps := e.overlaps ++ [s] }
  else
    { e with
      text := e.text.take s.start ++ s.text.toList ++ e.text.drop s.stop
      applied := e.applied + 1
      frontier := some s.start }

/-- Edits as offsets into a text. -/
def splices (text : String) (edits : List TextEdit) : List Splice :=
  edits.map (·.splice (lineStarts text) text.length)

/-- Applies edits to a text. -/
def applyEdits (text : String) (edits : List TextEdit) : Edited :=
  ((splices text edits).mergeSort Splice.follows).foldl Edited.apply ⟨text.toList, 0, [], none⟩

end ChannelLint
