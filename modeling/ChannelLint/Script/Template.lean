/-!
# Expressions embedded in a template

An embedded expression stands between a dollar sign with an opening brace and the brace that closes
it. Braces inside count, unless they stand between double quotes. A backslash in front takes the
next character out of consideration. An expression that is not closed runs to the end of the text.
-/
namespace ChannelLint.Template

/-- How many characters stand in front of the closing brace, `depth` braces inside the outer one. -/
def closingDistance : (depth : Nat) → (inString : Bool) → List Char → Nat
  | _, _, [] => 0
  | depth, true, c :: cs => 1 + closingDistance depth (c != '"') cs
  | depth, false, c :: cs =>
    if c == '"' then 1 + closingDistance depth true cs
    else if c == '\x7b' then 1 + closingDistance (depth + 1) false cs
    else if c == '\x7d' then
      match depth with
      | 0 => 0
      | outer + 1 => 1 + closingDistance outer false cs
    else 1 + closingDistance depth false cs

/-- Start and stop of each embedded expression in a text of which `offset` characters came
before. -/
def spansFrom (offset : Nat) (cs : List Char) : List (Nat × Nat) :=
  match cs with
  | [] => []
  | '\\' :: rest => spansFrom (offset + 2) (rest.drop 1)
  | '$' :: '\x7b' :: rest =>
    let length := closingDistance 0 false rest
    let stop := offset + 2 + length
    (offset + 2, stop) :: spansFrom (stop + 1) (rest.drop (length + 1))
  | _ :: rest => spansFrom (offset + 1) rest
termination_by cs.length
decreasing_by all_goals simp only [List.length_drop, List.length_cons]; omega

/-- Start and stop offsets of every embedded expression, in order. -/
def spans (text : String) : List (Nat × Nat) :=
  spansFrom 0 text.toList

end ChannelLint.Template
