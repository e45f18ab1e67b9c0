/-!
# Shell patterns

`*` stands for any run of characters, `?` for any one character, and a bracket for one character of
a set. Slashes and line feeds are characters like any other. Inside a set a hyphen between two
characters makes a range; a range whose ends are in the wrong order is taken out together with its
ends. A set that begins with an exclamation mark, once such ranges are taken out, is negated.
-/
namespace ChannelLint.Text.Pattern

/-- One step of a pattern. -/
inductive Step where
  | anyRun
  | anyOne
  | exactly (c : Char)
  | oneOf (negated : Bool) (ranges : List (Char × Char))
  deriving DecidableEq, Repr

/-- The set that was opened in front of `cs`, and what follows its closing bracket. A bracket
directly behind the opening one, or behind its exclamation mark, belongs to the set. -/
def closeSet? (cs : List Char) : Option (List Char × List Char) :=
  let lead := match cs with
    | '!' :: ']' :: _ => 2
    | '!' :: _ => 1
    | ']' :: _ => 1
    | _ => 0
  let body := (cs.drop lead).takeWhile (· != ']')
  match cs.drop (lead + body.length) with
  | ']' :: rest => some (cs.take lead ++ body, rest)
  | _ => none

/-- Cuts a set at the hyphens that make ranges: behind at least `skip` characters, with two
characters between one and the next. A hyphen at the end is a character of the set. -/
def cut (skip : Nat) (cs : List Char) : List (List Char) :=
  let front := cs.take skip
  let before := (cs.drop skip).takeWhile (· != '-')
  if skip + before.length < cs.length then
    let rest := cs.drop (skip + before.length + 1)
    if rest.isEmpty then [front ++ before ++ ['-']] else (front ++ before) :: cut 2 rest
  else [cs]
termination_by cs.length
decreasing_by simp only [List.length_drop]; omega

/-- Takes out the ranges whose ends are in the wrong order, from the right. -/
def dropWrongRanges : List (List Char) → List (List Char)
  | [] => []
  | chunk :: rest =>
    match chunk.getLast?, dropWrongRanges rest with
    | some low, (high :: more) :: others =>
      if high < low then (chunk.dropLast ++ more) :: others else chunk :: (high :: more) :: others
    | _, others => chunk :: others

/-- The chunks in one list, with `none` for each hyphen that makes a range. -/
def joinChunks : List (List Char) → List (Option Char)
  | [] => []
  | [chunk] => chunk.map some
  | chunk :: rest => chunk.map some ++ none :: joinChunks rest

def ranges : List (Option Char) → List (Char × Char)
  | some low :: none :: some high :: rest => (low, high) :: ranges rest
  | some c :: rest => (c, c) :: ranges rest
  | none :: rest => ('-', '-') :: ranges rest
  | [] => []

/-- The step that a set stands for. A negated set without characters admits every character. -/
def setStep (body : List Char) : Step :=
  let skip := if body.head? = some '!' then 2 else 1
  match joinChunks (dropWrongRanges (cut skip body)) with
  | [some '!'] => .anyOne
  | some '!' :: rest => .oneOf true (ranges rest)
  | all => .oneOf false (ranges all)

/-- The steps of a pattern. A bracket that is not closed is a character. -/
def steps (cs : List Char) : List Step :=
  match cs with
  | [] => []
  | '*' :: rest => .anyRun :: steps rest
  | '?' :: rest => .anyOne :: steps rest
  | '[' :: rest =>
    match closeSet? rest with
    | some (body, behind) => setStep body :: steps (rest.drop (rest.length - behind.length))
    | none => .exactly '[' :: steps rest
  | c :: rest => .exactly c :: steps rest
termination_by cs.length
decreasing_by all_goals simp only [List.length_drop, List.length_cons]; omega

/-- Whether a step that takes one character takes `c`. -/
def Step.admits (c : Char) : Step → Bool
  | anyRun => false
  | anyOne => true
  | exactly d => c == d
  | oneOf negated ranges => ranges.any (fun (low, high) => low ≤ c && c ≤ high) != negated

/-- Whether the steps take the whole text. -/
def matchSteps : List Step → List Char → Bool
  | [], cs => cs.isEmpty
  | .anyRun :: rest, cs =>
    matchSteps rest cs || match cs with
      | [] => false
      | _ :: more => matchSteps (.anyRun :: rest) more
  | _ :: _, [] => false
  | step :: rest, c :: cs => step.admits c && matchSteps rest cs
termination_by steps cs => (cs.length, steps.length)

/-- Runs of stars count as one. -/
def squeeze : List Step → List Step
  | .anyRun :: .anyRun :: rest => squeeze (.anyRun :: rest)
  | step :: rest => step :: squeeze rest
  | [] => []

/-- Whether a whole text matches a pattern. -/
def isMatch (pattern text : String) : Bool :=
  matchSteps (squeeze (steps pattern.toList)) text.toList

end ChannelLint.Text.Pattern
