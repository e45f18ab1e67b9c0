import ChannelLint.Markup.Scan

/-!
# Tokens in front of the root element

The text in front of the root element and behind it, and the declarations of the document type, are
read as tokens. A token that reaches the end of the text is complete when nothing more has to
follow.
-/
namespace ChannelLint.Markup

inductive NameKind where
  | plain | qualified | token
  deriving DecidableEq, Repr

inductive PrologToken where
  | nothing
  | spaces
  | declaration
  | instruction
  | comment
  /-- `<!` and a keyword. -/
  | declOpen (keyword : List Char)
  /-- `<` in front of the root element's name. -/
  | rootStart
  | literal (text : List Char)
  | percent
  | parameterRef
  | sectionOpen
  | sectionClose
  | openBracket
  | closeBracket
  | openParen
  | closeParen (suffix : Option Char)
  | comma
  | bar
  | declClose
  | pound (name : List Char)
  | name (kind : NameKind) (text : List Char)
  | suffixed (suffix : Char)
  deriving DecidableEq, Repr

namespace Scan

/-- Whether a name or literal may end in front of a character. -/
def oneOf (allowed : String) (c : Char) : Bool :=
  allowed.toList.contains c

/-- `<!` and a keyword, or a comment, or a conditional section, with the cursor behind `<!`. -/
def declStart : Scan PrologToken := do
  let x ← peek
  if x == '-' then
    skip
    comment
    return .comment
  else if x == '[' then
    skip
    return .sectionOpen
  else
    let first ← one isKeywordChar
    let keyword := first :: (← takeWhile isKeywordChar)
    if isSpace (← peek) then return .declOpen keyword
    else if (← peek) == '%' then
      let c ← get
      match c.rest with
      | _ :: y :: _ => if isSpace y || y == '%' then reject else return .declOpen keyword
      | _ => fun _ => .error .cut
    else reject
where
  isKeywordChar (c : Char) : Bool := c.isAlpha || c == '_'

/-- A literal, with the cursor behind its opening quote. -/
def literal (quote : Char) : Scan PrologToken := do
  let text ← quotedText quote (← left)
  match ← peek? with
  | none => return .literal text
  | some x => if isSpace x || oneOf ">%[" x then return .literal text else reject

/-- What a percent sign begins: a reference to a parameter entity or the mark of its declaration. -/
def percentSign : Scan PrologToken := do
  let x ← peek
  if isSpace x || x == '%' then return .percent
  else
    discard plainName
    discard (one (· == ';'))
    return .parameterRef

def poundName : Scan PrologToken := do
  let name ← plainName
  match ← peek? with
  | none => return .pound name
  | some x => if isSpace x || oneOf ")>%|" x then return .pound name else reject

def bracketClose : Scan PrologToken := do
  let c ← get
  match c.rest with
  | ']' :: '>' :: _ =>
    skip 2
    return .sectionClose
  | [']'] => fun _ => .error .cut
  | _ => return .closeBracket

def parenClose : Scan PrologToken := do
  match ← peek? with
  | none => return .closeParen none
  | some x =>
    if oneOf "*?+" x then
      skip
      return .closeParen (some x)
    else if isSpace x || oneOf ">,|)" x then return .closeParen none
    else reject

/-- The rest of a name: one colon between two names makes it qualified, any other colon makes it a
mere name token. -/
def nameToken : Nat → NameKind → List Char → Scan PrologToken
  | 0, _, _ => fun _ => .error .cut
  | fuel + 1, kind, taken => fun c => (do
    let taken := taken ++ (← takeWhile (isNameChar c.alphabet))
    match ← peek? with
    | none => return .name kind taken
    | some x =>
      if isSpace x || oneOf ">),|[%" x then return .name kind taken
      else if x == ':' then
        skip
        match kind with
        | .plain =>
          let y ← peek
          if isNameChar c.alphabet y then
            skip
            nameToken fuel .qualified (taken ++ [':', y])
          else if y.toNat < 128 then nameToken fuel .token (taken ++ [':'])
          else reject
        | _ => nameToken fuel .token (taken ++ [':'])
      else if oneOf "+*?" x then
        if kind == .token then reject
        else
          skip
          return .suffixed x
      else reject : Scan _) c

/-- One token, with the cursor in front of it. -/
def prologToken : Scan PrologToken := fun c => (do
  match ← peek? with
  | none => return .nothing
  | some x =>
    if isSpace x then
      spaces
      return .spaces
    else if x == '<' then
      skip
      let y ← peek
      if y == '!' then
        skip
        declStart
      else if y == '?' then
        skip
        return if ← instruction then .declaration else .instruction
      else if isNameStart c.alphabet y || 127 < y.toNat then
        return .rootStart
      else reject
    else if isNameStart c.alphabet x then
      nameToken (c.rest.length + 1) .plain []
    else if isNameChar c.alphabet x || x == ':' then
      skip
      nameToken (c.rest.length + 1) .token [x]
    else do
      skip
      match x with
      | '"' => literal '"'
      | '\'' => literal '\''
      | '%' => percentSign
      | '#' => poundName
      | ',' => return .comma
      | '[' => return .openBracket
      | ']' => bracketClose
      | '(' => return .openParen
      | ')' => parenClose
      | '|' => return .bar
      | '>' => return .declClose
      | _ => fun _ => .error (.invalid c.offset) : Scan _) c

end Scan

end ChannelLint.Markup
