import ChannelLint.Script.Token

/-!
# Reading tokens

A parser moves a cursor over the tokens of a script and never goes back. It decides by the next
token alone, so it stops at the first token that cannot continue what was read before it. Each rule
of the grammar is a reader of its own, in place of a table of states made from all rules.
-/
namespace ChannelLint

structure Cursor where
  rest : List Token
  /-- The end of the last token that was taken. -/
  reached : Position
  /-- Whether an expression embedded in a template could not be read. -/
  badTemplate : Bool
  deriving DecidableEq, Repr

/-- The token at which a parser is stuck; nothing if it is stuck behind the last one. -/
abbrev Stuck := Option Token

abbrev Parser := StateT Cursor (Except Stuck)

namespace Parser

def refuse {α : Type} : Parser α := do
  throw (← get).rest.head?

def peek? : Parser (Option Token) := do
  return (← get).rest.head?

/-- The kind of the next token. -/
def look : Parser (Option Terminal) := do
  return (← peek?).map (·.terminal)

def take : Parser Token := do
  match ← get with
  | ⟨token :: rest, _, bad⟩ =>
    set (⟨rest, token.range.stop, bad⟩ : Cursor)
    return token
  | ⟨[], _, _⟩ => refuse

/-- Takes the next token if it is of kind `t`. -/
def accept? (t : Terminal) : Parser (Option Token) := do
  if (← look) = some t then return some (← take) else return none

def expect (t : Terminal) : Parser Token := do
  if (← look) = some t then take else refuse

/-- Where the next token starts. -/
def here : Parser Position := do
  let cursor ← get
  return (cursor.rest.head?.map (·.range.start)).getD cursor.reached

/-- From `start` to the end of the last token taken. -/
def since (start : Position) : Parser Range := do
  return ⟨start, (← get).reached⟩

/-- Repeats `step` until it gives nothing, at most `n` times. -/
def collectUpTo {α : Type} (step : Parser (Option α)) : Nat → Parser (List α)
  | 0 => return []
  | n + 1 => do
    match ← step with
    | none => return []
    | some a => return a :: (← collectUpTo step n)

/-- Repeats `step` until it gives nothing. Each step takes a token, so the tokens left bound the
number of steps. -/
def collect {α : Type} (step : Parser (Option α)) : Parser (List α) := do
  collectUpTo step ((← get).rest.length + 1)

/-- Takes tokens of kind `t` as long as they come. -/
def skipMany (t : Terminal) : Parser Unit := do
  let _ ← collect (accept? t)

end Parser

end ChannelLint
