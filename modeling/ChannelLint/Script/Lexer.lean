import ChannelLint.Script.Token
import ChannelLint.Text.Digit
import ChannelLint.Text.Word

/-!
# From text to tokens

At each offset the first lexeme of a fixed list that matches is taken, not the longest one. Blanks,
comments and compiler directives match too and are dropped. Reading stops at the first character
where nothing matches; the tokens before it are kept, because a token that does not fit is reported
before a character that does not.
-/
namespace ChannelLint.Lexer

open Text (foldLetter readWord endsWord)

def isNameStart (c : Char) : Bool :=
  (foldLetter c).isLower || c == '_'

def isNameChar (c : Char) : Bool :=
  isNameStart c || c.isDigit

/-- A mark behind a name or a number that fixes its type. -/
def isTypeMark (c : Char) : Bool :=
  c == '$' || c == '%' || c == '!' || c == '#' || c == '&'

def isGap (c : Char) : Bool :=
  c == ' ' || c == '\t'

def isBlank (c : Char) : Bool :=
  c == ' ' || c == '\t' || c == '\x0c' || c == '\r'

/-- How many characters stand in front of the end of the line. -/
def lineLength (cs : List Char) : Nat :=
  (cs.takeWhile (· != '\n')).length

/-- Whether a line ends, or a comment begins, behind blanks. -/
def lineEnds (cs : List Char) : Bool :=
  match cs.dropWhile (fun c => isGap c || c == '\r') with
  | [] => true
  | c :: _ => c == '\n' || c == '\''

/-! Each scanner gives the number of characters it takes, or nothing. -/

abbrev Scanner := List Char → Option Nat

def label : Scanner
  | [] => none
  | c :: cs =>
    let body := cs.takeWhile isNameChar
    match isNameStart c, cs.drop body.length with
    | true, ':' :: rest => if lineEnds rest then some (body.length + 2) else none
    | _, _ => none

/-- The given text itself. -/
def literal (text : String) : Scanner := fun cs =>
  if text.toList.isPrefixOf cs then some text.length else none

def anyOf (scanners : List Scanner) : Scanner := fun cs =>
  scanners.findSome? (· cs)

def wholeWord (word : String) : Scanner := fun cs => do
  let rest ← readWord word.toList cs
  if endsWord rest then some word.length else none

/-- Two words with blanks between them, at least `least` of them. -/
def twoWords (first second : String) (least : Nat) : Scanner := fun cs => do
  let rest ← readWord first.toList cs
  let gap := (rest.takeWhile isGap).length
  let rest ← readWord second.toList (rest.drop gap)
  if least ≤ gap && endsWord rest then some (first.length + gap + second.length) else none

/-- `next` closes a loop when it is the last word of a statement. -/
def nextWord : Scanner := fun cs => do
  let rest ← readWord "next".toList cs
  match rest.dropWhile (fun c => isGap c || c == '\r') with
  | ':' :: _ => some 4
  | _ => if lineEnds rest then some 4 else none

def remark : Scanner := fun cs => do
  let rest ← readWord "rem".toList cs
  match rest with
  | c :: _ => if isNameChar c || isTypeMark c then none else some (3 + lineLength rest)
  | [] => some 3

/-- From the character `mark` to the end of the line. -/
def restOfLine (mark : Char) : Scanner
  | [] => none
  | c :: cs => if c == mark then some (1 + lineLength cs) else none

def oneChar (p : Char → Bool) : Scanner
  | [] => none
  | c :: _ => if p c then some 1 else none

def many (p : Char → Bool) : Scanner := fun cs =>
  let n := (cs.takeWhile p).length
  if n == 0 then none else some n

/-- Length of an optional part. -/
def optional (scan : Scanner) (cs : List Char) : Nat :=
  (scan cs).getD 0

def exponent : Scanner
  | [] => none
  | c :: cs =>
    if c.toLower == 'e' then
      let sign := optional (oneChar (fun c => c == '+' || c == '-')) cs
      (many Text.isDecimalDigit (cs.drop sign)).map (1 + sign + ·)
    else none

def mantissa : Scanner := fun cs =>
  match many Text.isDecimalDigit cs with
  | some whole =>
    let point := optional (oneChar (· == '.')) (cs.drop whole)
    if point == 0 then some whole
    else some (whole + 1 + optional (many Text.isDecimalDigit) (cs.drop (whole + 1)))
  | none =>
    match cs with
    | '.' :: rest => (many Text.isDecimalDigit rest).map (1 + ·)
    | _ => none

def decimal : Scanner := fun cs => do
  let n ← mantissa cs
  let n := n + optional exponent (cs.drop n)
  let mark := optional (oneChar (fun c => isTypeMark c && c != '$')) (cs.drop n)
  some (n + mark)

def isHexDigit (c : Char) : Bool :=
  c.isDigit || ('a' ≤ c.toLower && c.toLower ≤ 'f')

def hexadecimal : Scanner
  | '&' :: h :: cs =>
    if h.toLower == 'h' then
      (many isHexDigit cs).map fun n => 2 + n + optional (oneChar (· == '&')) (cs.drop n)
    else none
  | _ => none

def name : Scanner
  | [] => none
  | c :: cs =>
    if isNameStart c then
      let n := (cs.takeWhile isNameChar).length
      some (1 + n + optional (oneChar isTypeMark) (cs.drop n))
    else none

/-- The closing backquote of a template, `taken` characters behind its opening one. A backslash
takes the next character with it. -/
def templateEnd (taken : Nat) : List Char → Option Nat
  | [] => none
  | '\\' :: [] => none
  | '\\' :: _ :: cs => templateEnd (taken + 2) cs
  | c :: cs => if c == '\x60' then some (taken + 1) else templateEnd (taken + 1) cs

def template : Scanner
  | [] => none
  | c :: cs => if c == '\x60' then templateEnd 1 cs else none

/-- The closing quote of a string, `taken` characters behind its opening one. A doubled quote is
part of the string; `closed` is where the string ends if nothing else closes it. -/
def stringEnd (taken : Nat) (closed : Option Nat) : List Char → Option Nat
  | '"' :: '"' :: cs => stringEnd (taken + 2) (some (taken + 1)) cs
  | '"' :: _ => some (taken + 1)
  | [] => closed
  | c :: cs => if c == '\n' then closed else stringEnd (taken + 1) closed cs

def string : Scanner
  | '"' :: cs => stringEnd 1 none cs
  | _ => none

/-- A line feed with every blank and line feed that follows. -/
def newline : Scanner
  | '\n' :: cs => some (1 + optional (many (fun c => c == '\n' || isBlank c)) cs)
  | _ => none

/-- The lexemes in the order in which they are tried; `none` marks those that are dropped. -/
def lexemes : List (Option Terminal × Scanner) := [
  (some .label, label),
  (some .assignOp, anyOf (["+=", "-=", "*=", "/=", "\\=", "<<=", ">>="].map literal)),
  (some .endFor, anyOf [twoWords "end" "for" 0, nextWord]),
  (none, remark),
  (some .endNamespace, twoWords "end" "namespace" 0),
  (some .endFunction, twoWords "end" "function" 0),
  (some .exitWhile, twoWords "exit" "while" 0),
  (some .endClass, twoWords "end" "class" 0),
  (some .endWhile, twoWords "end" "while" 0),
  (some .exitFor, twoWords "exit" "for" 0),
  (some .endEnum, twoWords "end" "enum" 0),
  (some .forEach, twoWords "for" "each" 1),
  (some .elseIf, twoWords "else" "if" 0),
  (some .endSub, twoWords "end" "sub" 0),
  (some .endTry, twoWords "end" "try" 0),
  (some .endIf, twoWords "end" "if" 0),
  (none, restOfLine '#'),
  (some .modifier, anyOf (["public", "private", "protected", "override"].map wholeWord)),
  (some .shiftOp, anyOf [literal "<<", literal ">>"]),
  (some .number, anyOf [decimal, hexadecimal]),
  (some .name, name),
  (some .template, template),
  (some .string, string),
  (some .newline, newline),
  (none, many isBlank),
  (none, restOfLine '\''),
  (some .compOp, anyOf (["<>", "<=", ">=", "<", ">"].map literal)),
  (some .incOp, anyOf [literal "++", literal "--"]),
  (some .coalesceOp, literal "??"),
  (some .optionalDot, literal "?."),
  (some .mulOp, oneChar (fun c => c == '*' || c == '/' || c == '\\')),
  (some .addOp, oneChar (fun c => c == '+' || c == '-')),
  (some .equals, literal "="),
  (some .powOp, literal "^"),
  (some .leftParen, literal "("),
  (some .rightParen, literal ")"),
  (some .leftBracket, literal "["),
  (some .rightBracket, literal "]"),
  (some .leftBrace, literal "\x7b"),
  (some .rightBrace, literal "\x7d"),
  (some .comma, literal ","),
  (some .dot, literal "."),
  (some .colon, literal ":"),
  (some .semicolon, literal ";"),
  (some .question, literal "?"),
  (some .at, literal "@")]

/-- The first lexeme that matches, with its length. -/
def firstMatch (cs : List Char) : Option (Option Terminal × Nat) :=
  lexemes.findSome? fun (terminal, scan) => (scan cs).map (terminal, ·)

/-- Words that are never names. -/
def keywords : List (String × Terminal) := [
  ("if", .kwIf), ("then", .kwThen), ("else", .kwElse), ("for", .kwFor), ("to", .kwTo),
  ("step", .kwStep), ("in", .kwIn), ("while", .kwWhile), ("return", .kwReturn), ("sub", .kwSub),
  ("function", .kwFunction), ("as", .kwAs), ("try", .kwTry), ("catch", .kwCatch),
  ("throw", .kwThrow), ("goto", .kwGoto), ("print", .kwPrint), ("end", .kwEnd), ("stop", .kwStop),
  ("dim", .kwDim), ("class", .kwClass), ("extends", .kwExtends), ("new", .kwNew),
  ("namespace", .kwNamespace), ("const", .kwConst), ("enum", .kwEnum), ("import", .kwImport),
  ("library", .kwLibrary), ("true", .kwTrue), ("false", .kwFalse), ("invalid", .kwInvalid),
  ("and", .kwAnd), ("or", .kwOr), ("not", .kwNot), ("mod", .kwMod)]

/-- A name that spells a keyword is that keyword. -/
def classify (terminal : Terminal) (text : List Char) : Terminal :=
  if terminal = .name then (keywords.lookup (String.ofList (text.map foldLetter))).getD .name
  else terminal

/-- Why no further token could be read. -/
inductive Ending where
  | endOfText
  | badCharacter (c : Char) (position : Position)
  deriving DecidableEq, Repr

structure Lexed where
  tokens : List Token
  ending : Ending
  deriving DecidableEq, Repr

/-- The tokens of a text that starts at position `p`. -/
def lexFrom (p : Position) : List Char → Lexed
  | [] => ⟨[], .endOfText⟩
  | c :: cs =>
    match firstMatch (c :: cs) with
    | none => ⟨[], .badCharacter c p⟩
    | some (terminal, length) =>
      let text := c :: cs.take (length - 1)
      let more := lexFrom (p.after text) (cs.drop (length - 1))
      match terminal with
      | none => more
      | some t =>
        let token := ⟨classify t text, String.ofList text, ⟨p, p.after text⟩⟩
        { more with tokens := token :: more.tokens }
termination_by cs => cs.length
decreasing_by simp only [List.length_drop, List.length_cons]; omega

end ChannelLint.Lexer
