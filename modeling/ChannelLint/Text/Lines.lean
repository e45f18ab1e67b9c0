import ChannelLint.Text.Position

/-!
# Offsets and lines

The offset of a position is looked up in the list of line starts. The position of an offset is found
by a binary search in it.
-/
namespace ChannelLint

/-- The offset at which each line starts, when the first of these characters stands at `offset`. -/
def lineStartsFrom (offset : Nat) : List Char → List Nat
  | [] => []
  | c :: cs =>
    if c == '\n' then (offset + 1) :: lineStartsFrom (offset + 1) cs
    else lineStartsFrom (offset + 1) cs

/-- The offset at which each line starts. -/
def lineStarts (text : String) : List Nat :=
  0 :: lineStartsFrom 0 text.toList

/-- The offset of a position. A position behind the text is its end. -/
def offsetOf (starts : List Nat) (length : Nat) (p : Position) : Nat :=
  match starts[p.line]? with
  | none => length
  | some start => min (start + p.column) length

theorem lt_of_mem_lineStartsFrom {offset start : Nat} {cs : List Char}
    (member : start ∈ lineStartsFrom offset cs) : offset < start := by
  fun_induction lineStartsFrom offset cs with
  | case1 => cases member
  | case2 offset c cs feed ih =>
    rcases List.mem_cons.1 member with rfl | later
    · exact Nat.lt_succ_self offset
    · exact Nat.lt_of_succ_lt (ih later)
  | case3 offset c cs other ih => exact Nat.lt_of_succ_lt (ih member)

theorem lineStartsFrom_sorted (offset : Nat) (cs : List Char) :
    (lineStartsFrom offset cs).Pairwise (· < ·) := by
  fun_induction lineStartsFrom offset cs with
  | case1 => exact .nil
  | case2 offset c cs feed ih => exact .cons (fun _ => lt_of_mem_lineStartsFrom) ih
  | case3 offset c cs other ih => exact ih

/-- The first number behind `offset` among sorted numbers, if it is not in front of `low` and not
behind `high`. -/
def bisect (starts : Array Nat) (offset low high : Nat) : Nat :=
  if low < high then
    let middle := (low + high) / 2
    if offset < starts.getD middle 0 then bisect starts offset low middle
    else bisect starts offset (middle + 1) high
  else low
termination_by high - low

/-- The line starts of a text. -/
structure Locator where
  starts : Array Nat
  sorted : starts.toList.Pairwise (· < ·)
  first : starts[0]? = some 0

namespace Locator

def of (text : String) : Locator where
  starts := (lineStarts text).toArray
  sorted := .cons (fun _ => lt_of_mem_lineStartsFrom) (lineStartsFrom_sorted 0 _)
  first := rfl

/-- The position of an offset. -/
def position (l : Locator) (offset : Nat) : Position :=
  let line := bisect l.starts offset 0 l.starts.size - 1
  ⟨line, offset - l.starts.getD line 0⟩

def range (l : Locator) (start stop : Nat) : Range :=
  ⟨l.position start, l.position stop⟩

end Locator

end ChannelLint
