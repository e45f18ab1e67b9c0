/-!
# Positions and ranges

A position is a line and a column, both counted from zero. Columns count code points, and only a
line feed ends a line. A range runs from its start up to, and not including, its stop.
-/
namespace ChannelLint

structure Position where
  line : Nat
  column : Nat
  deriving DecidableEq, Repr, Inhabited

namespace Position

def zero : Position := ⟨0, 0⟩

/-- The position behind one character. -/
def next (p : Position) (c : Char) : Position :=
  if c == '\n' then ⟨p.line + 1, 0⟩ else ⟨p.line, p.column + 1⟩

/-- The position behind a text that starts at `p`. -/
def after (p : Position) (cs : List Char) : Position :=
  cs.foldl next p

/-- Reading order: by line, then by column. -/
protected def le (p q : Position) : Prop :=
  p.line < q.line ∨ (p.line = q.line ∧ p.column ≤ q.column)

instance : LE Position := ⟨Position.le⟩

instance (p q : Position) : Decidable (p ≤ q) :=
  inferInstanceAs (Decidable (p.line < q.line ∨ (p.line = q.line ∧ p.column ≤ q.column)))

end Position

structure Range where
  start : Position
  stop : Position
  deriving DecidableEq, Repr, Inhabited

namespace Range

/-- The range of something that occupies no text. -/
def empty : Range := ⟨.zero, .zero⟩

def create (startLine startColumn stopLine stopColumn : Nat) : Range :=
  ⟨⟨startLine, startColumn⟩, ⟨stopLine, stopColumn⟩⟩

/-- From the start of one range to the stop of another. -/
def cover (first last : Range) : Range :=
  ⟨first.start, last.stop⟩

/-- `startLine:startColumn-stopLine:stopColumn`, all counted from zero. -/
def render (r : Range) : String :=
  s!"{r.start.line}:{r.start.column}-{r.stop.line}:{r.stop.column}"

end Range

end ChannelLint
