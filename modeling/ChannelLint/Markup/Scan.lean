import ChannelLint.Markup.Alphabet
import ChannelLint.Markup.Fault

/-!
# Scanning pieces of markup

Each scanner stands in front of a piece of markup and moves behind it. It stops at the first
character that cannot continue the piece, or at the end of the text when the piece is cut off.
-/
namespace ChannelLint.Markup

/-- The text that is left and the number of characters in front of it. -/
structure Cursor where
  alphabet : Alphabet
  offset : Nat
  rest : List Char
  deriving DecidableEq, Repr

inductive Stop where
  | invalid (offset : Nat)
  | cut
  deriving DecidableEq, Repr

abbrev Scan := StateT Cursor (Except Stop)

namespace Scan

/-- Refuses the character the cursor stands at. -/
def reject {α : Type} : Scan α := fun c => .error (.invalid c.offset)

def peek? : Scan (Option Char) := fun c => .ok (c.rest.head?, c)

/-- The character the cursor stands at. -/
def peek : Scan Char := fun c =>
  match c.rest with
  | [] => .error .cut
  | x :: _ => .ok (x, c)

def skip (n : Nat := 1) : Scan Unit := fun c =>
  .ok ((), { c with offset := c.offset + n, rest := c.rest.drop n })

def takeWhile (p : Char → Bool) : Scan (List Char) := fun c =>
  let taken := c.rest.takeWhile p
  .ok (taken, { c with offset := c.offset + taken.length, rest := c.rest.drop taken.length })

def offset : Scan Nat := fun c => .ok (c.offset, c)

def left : Scan Nat := fun c => .ok (c.rest.length, c)

/-- Takes one character of a kind. -/
def one (p : Char → Bool) : Scan Char := do
  let x ← peek
  if p x then
    skip
    return x
  else reject

def spaces : Scan Unit := do
  discard (takeWhile isSpace)

/-- A name without a colon. -/
def plainName : Scan (List Char) := fun c => (do
  let first ← one (isNameStart c.alphabet)
  let more ← takeWhile (isNameChar c.alphabet)
  return first :: more : Scan _) c

/-- A name with at most one colon inside. -/
def qualifiedName : Scan (List Char) := do
  let first ← plainName
  if (← peek?) == some ':' then
    skip
    let second ← plainName
    if (← peek?) == some ':' then reject
    return first ++ ':' :: second
  else return first

/-! ## References -/

/-- A reference without its ampersand and semicolon. -/
inductive Reference where
  | entity (name : List Char)
  | decimal (digits : List Char)
  | hex (digits : List Char)
  deriving DecidableEq, Repr

def isHexDigit (c : Char) : Bool :=
  c.isDigit || ('a' ≤ c && c ≤ 'f') || ('A' ≤ c && c ≤ 'F')

def digits (p : Char → Bool) : Scan (List Char) := do
  let first ← one p
  let more ← takeWhile p
  return first :: more

/-- A reference, with the cursor behind its ampersand. -/
def reference : Scan Reference := do
  let ref ← if (← peek) == '#' then do
      skip
      if (← peek) == 'x' then
        skip
        pure (.hex (← digits isHexDigit))
      else pure (.decimal (← digits Char.isDigit))
    else pure (.entity (← plainName))
  discard (one (· == ';'))
  return ref

/-! ## Comments, instructions, literals -/

/-- The rest of a comment behind `<!--`. -/
def commentBody : Nat → Scan Unit
  | 0 => fun _ => .error .cut
  | fuel + 1 => do
    let x ← one isAllowed
    if x == '-' && (← peek) == '-' then
      skip
      discard (one (· == '>'))
    else commentBody fuel

/-- A comment, with the cursor behind `<!-`. -/
def comment : Scan Unit := do
  discard (one (· == '-'))
  commentBody (← left)

/-- The rest of a processing instruction up to `?>`. -/
def instructionBody : Nat → Scan Unit
  | 0 => fun _ => .error .cut
  | fuel + 1 => do
    let x ← one isAllowed
    if x == '?' && (← peek) == '>' then skip else instructionBody fuel

/-- A processing instruction, with the cursor behind `<?`. Gives whether it is the declaration of
the document, whose target is `xml` in small letters; the other spellings of `xml` are refused. -/
def instruction : Scan Bool := do
  let target ← plainName
  let x ← peek
  if isSpace x || x == '?' then
    if target.map Char.toLower == ['x', 'm', 'l'] && target != ['x', 'm', 'l'] then reject
    skip
    if x == '?' then discard (one (· == '>')) else instructionBody (← left)
    return target == ['x', 'm', 'l']
  else reject

/-- The text up to a closing quote, and the cursor behind that quote. -/
def quotedText (quote : Char) : Nat → Scan (List Char)
  | 0 => fun _ => .error .cut
  | fuel + 1 => do
    let x ← one isAllowed
    if x == quote then return [] else return x :: (← quotedText quote fuel)

/-! ## Tags -/

/-- An attribute as written: its value is between the quotes, references and line ends as they
stand. -/
structure RawAttribute where
  name : List Char
  nameOffset : Nat
  value : List Char
  valueOffset : Nat
  deriving DecidableEq, Repr

structure StartTag where
  name : List Char
  attributes : List RawAttribute
  isClosed : Bool
  deriving DecidableEq, Repr

/-- Checks the text of an attribute value up to its closing quote. -/
def attributeValue (quote : Char) : Nat → Scan Unit
  | 0 => fun _ => .error .cut
  | fuel + 1 => do
    let x ← peek
    if x == quote then return
    else if x == '<' then reject
    else if x == '&' then
      skip
      discard reference
      attributeValue quote fuel
    else
      discard (one isAllowed)
      attributeValue quote fuel

/-- An attribute with its quotes. -/
def singleAttribute : Scan RawAttribute := do
  let nameOffset ← offset
  let name ← qualifiedName
  spaces
  discard (one (· == '='))
  spaces
  let quote ← one (fun x => x == '"' || x == '\'')
  let start ← get
  attributeValue quote (start.rest.length + 1)
  let stop ← offset
  skip
  return ⟨name, nameOffset, start.rest.take (stop - start.offset), start.offset⟩

/-- The attributes of a start tag up to its end, each with a space in front. -/
def attributes : Nat → Scan (List RawAttribute × Bool)
  | 0 => fun _ => .error .cut
  | fuel + 1 => do
    let x ← peek
    if isSpace x then
      spaces
      let y ← peek
      if y == '>' || y == '/' then attributes fuel
      else
        let first ← singleAttribute
        let (more, isClosed) ← attributes fuel
        return (first :: more, isClosed)
    else if x == '>' then
      skip
      return ([], false)
    else if x == '/' then
      skip
      discard (one (· == '>'))
      return ([], true)
    else reject

/-- A start tag, with the cursor behind `<`. -/
def startTag : Scan StartTag := do
  let name ← qualifiedName
  let (attrs, isClosed) ← attributes (2 * (← left) + 2)
  return ⟨name, attrs, isClosed⟩

/-- An end tag, with the cursor behind `</`. A colon may stand anywhere in its name. -/
def endTag : Scan (List Char) := fun c => (do
  let first ← one (isNameStart c.alphabet)
  let more ← takeWhile (fun x => isNameChar c.alphabet x || x == ':')
  spaces
  discard (one (· == '>'))
  return first :: more : Scan _) c

/-- `[CDATA[` with the cursor behind `<!`. It is cut off unless all of it is there. -/
def cdataOpen : Scan Unit := do
  discard (one (· == '['))
  if (← left) < 6 then fun _ => .error .cut
  else "CDATA[".toList.forM fun x => discard (one (· == x))

end Scan

end ChannelLint.Markup
