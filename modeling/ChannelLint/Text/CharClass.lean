/-!
# Classes of characters given by runs

A class of code points is stored as the lengths of the runs of code points that lie outside and
inside it by turns. The first run lies outside, and so does all behind an even number of runs.
-/
namespace ChannelLint

structure CharClass where
  runs : List Nat
  deriving DecidableEq, Repr

/-- Whether the `n`-th code point of these runs is inside; `inside` says so of the first run. -/
def CharClass.member (inside : Bool) (n : Nat) : List Nat → Bool
  | [] => inside
  | run :: runs => if n < run then inside else member (!inside) (n - run) runs

def CharClass.contains (k : CharClass) (c : Char) : Bool :=
  member false c.toNat k.runs

end ChannelLint
