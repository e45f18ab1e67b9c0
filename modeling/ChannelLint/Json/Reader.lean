import ChannelLint.Json

/-!
# Reading JSON

Besides the values of the standard, `NaN`, `Infinity` and `-Infinity` are read. The first fault is
reported with its line, its column and its offset.
-/
namespace ChannelLint.Json.Reader

inductive Cause where
  | byteOrderMark | expectedValue | expectedName | expectedColon | expectedComma | extraData
  | controlCharacter | badEscape | badUnicodeEscape | unterminatedString
  deriving DecidableEq, Repr

def Cause.text : Cause → String
  | byteOrderMark => "Unexpected UTF-8 BOM (decode using utf-8-sig)"
  | expectedValue => "Expecting value"
  | expectedName => "Expecting property name enclosed in double quotes"
  | expectedColon => "Expecting ':' delimiter"
  | expectedComma => "Expecting ',' delimiter"
  | extraData => "Extra data"
  | controlCharacter => "Invalid control character at"
  | badEscape => "Invalid \\escape"
  | badUnicodeEscape => "Invalid \\uXXXX escape"
  | unterminatedString => "Unterminated string starting at"

structure Fault where
  cause : Cause
  offset : Nat
  deriving DecidableEq, Repr

/-- The message for a fault in `text`. Lines and columns count from one, offsets from zero. -/
def Fault.message (f : Fault) (text : List Char) : String :=
  let before := text.take f.offset
  let line := before.count '\n' + 1
  let column := (before.reverse.takeWhile (· != '\n')).length + 1
  s!"{f.cause.text}: line {line} column {column} (char {f.offset})"

/-- What is left of a text, and how much was read before it. -/
structure Rest where
  offset : Nat
  chars : List Char

namespace Rest

def drop (r : Rest) (n : Nat) : Rest :=
  ⟨r.offset + n, r.chars.drop n⟩

def isSpace (c : Char) : Bool :=
  c == ' ' || c == '\t' || c == '\n' || c == '\r'

def skipSpace (r : Rest) : Rest :=
  r.drop (r.chars.takeWhile isSpace).length

def startsWith (r : Rest) (word : String) : Bool :=
  word.toList.isPrefixOf r.chars

end Rest

/-! ## Strings -/

def hexValue? (c : Char) : Option Nat :=
  if '0' ≤ c && c ≤ '9' then some (c.toNat - '0'.toNat)
  else if 'a' ≤ c && c ≤ 'f' then some (c.toNat - 'a'.toNat + 10)
  else if 'A' ≤ c && c ≤ 'F' then some (c.toNat - 'A'.toNat + 10)
  else none

/-- Four hexadecimal digits with at least one character behind them. -/
def unit? (cs : List Char) : Option Nat :=
  match cs with
  | a :: b :: c :: d :: _ :: _ => do
    return (((← hexValue? a) * 16 + (← hexValue? b)) * 16 + (← hexValue? c)) * 16 + (← hexValue? d)
  | _ => none

def isHigh (n : Nat) : Bool := 0xd800 ≤ n && n < 0xdc00

def isLow (n : Nat) : Bool := 0xdc00 ≤ n && n < 0xe000

def simpleEscape? (c : Char) : Option Char :=
  match c with
  | '"' => some '"'
  | '\\' => some '\\'
  | '/' => some '/'
  | 'b' => some '\x08'
  | 'f' => some '\x0c'
  | 'n' => some '\n'
  | 'r' => some '\r'
  | 't' => some '\t'
  | _ => none

/-- What an escape behind its backslash stands for: a character, or nothing for half a character;
and how many characters it takes. -/
def escape (r : Rest) : Except Fault (Option Char × Nat) :=
  match r.chars with
  | 'u' :: digits =>
    match unit? digits with
    | none => .error ⟨.badUnicodeEscape, r.offset⟩
    | some high =>
      let second := digits.drop 4
      if isHigh high && second.take 2 == ['\\', 'u'] && 6 < second.length then
        match unit? (second.drop 2) with
        | none => .error ⟨.badUnicodeEscape, r.offset + 6⟩
        | some low =>
          if isLow low then
            .ok (some (Char.ofNat (0x10000 + (high - 0xd800) * 1024 + (low - 0xdc00))), 11)
          else .ok (none, 5)
      else if isHigh high || isLow high then .ok (none, 5)
      else .ok (some (Char.ofNat high), 5)
  | c :: _ =>
    match simpleEscape? c with
    | some d => .ok (some d, 1)
    | none => .error ⟨.badEscape, r.offset - 1⟩
  | [] => .error ⟨.badEscape, r.offset⟩

/-- The rest of a string whose opening quote stands at `start`. `complete` is cleared by half a
character, which is read as a replacement character. -/
def stringTail (start : Nat) (r : Rest) (text : List Char) (complete : Bool) :
    Except Fault ((String × Bool) × Rest) :=
  match h : r.chars with
  | [] => .error ⟨.unterminatedString, start⟩
  | '"' :: rest => .ok ((String.ofList text.reverse, complete), ⟨r.offset + 1, rest⟩)
  | '\\' :: rest =>
    if rest.isEmpty then .error ⟨.unterminatedString, start⟩
    else match escape ⟨r.offset + 1, rest⟩ with
      | .error fault => .error fault
      | .ok (some c, n) =>
        stringTail start ⟨r.offset + 1 + n, rest.drop n⟩ (c :: text) complete
      | .ok (none, n) => stringTail start ⟨r.offset + 1 + n, rest.drop n⟩ ('\ufffd' :: text) false
  | c :: rest =>
    if c.toNat < 32 then .error ⟨.controlCharacter, r.offset⟩
    else stringTail start ⟨r.offset + 1, rest⟩ (c :: text) complete
termination_by r.chars.length
decreasing_by all_goals simp only [h, List.length_drop, List.length_cons]; omega

/-- A string behind its opening quote. -/
def stringBody (r : Rest) : Except Fault ((String × Bool) × Rest) :=
  stringTail (r.offset - 1) r [] true

/-! ## Numbers -/

def digitsValue (cs : List Char) : Nat :=
  cs.foldl (fun n c => n * 10 + (c.toNat - '0'.toNat)) 0

/-- An exponent: a letter, an optional sign and digits. -/
def exponent? (cs : List Char) : Option (Int × Nat) :=
  match cs with
  | e :: rest =>
    if e == 'e' || e == 'E' then
      let sign := match rest with
        | '+' :: _ | '-' :: _ => 1
        | _ => 0
      let digits := (rest.drop sign).takeWhile Char.isDigit
      let value : Int := digitsValue digits
      let value := if rest.head? = some '-' then -value else value
      if digits.isEmpty then none else some (value, 1 + sign + digits.length)
    else none
  | [] => none

/-- The digits behind a point. -/
def fraction? (cs : List Char) : Option (List Char) :=
  match cs with
  | '.' :: rest =>
    let digits := rest.takeWhile Char.isDigit
    if digits.isEmpty then none else some digits
  | _ => none

def wholeDigits (cs : List Char) : List Char :=
  match cs with
  | '0' :: _ => ['0']
  | _ => cs.takeWhile Char.isDigit

def number (r : Rest) : Except Fault (Json × Rest) :=
  let negative := r.chars.head? = some '-'
  let sign := if negative then 1 else 0
  let whole := wholeDigits (r.chars.drop sign)
  if whole.isEmpty then .error ⟨.expectedValue, r.offset⟩
  else
    let rest := r.chars.drop (sign + whole.length)
    let fraction := fraction? rest
    let digits := fraction.getD []
    let pointed := if fraction.isSome then 1 + digits.length else 0
    let exponent := exponent? (rest.drop pointed)
    let mantissa : Int := digitsValue (whole ++ digits)
    let mantissa := if negative then -mantissa else mantissa
    let taken := sign + whole.length + pointed + (exponent.map (·.2)).getD 0
    let value :=
      if fraction.isNone && exponent.isNone then JsonNumber.whole mantissa
      else .decimal mantissa ((exponent.map (·.1)).getD 0 - digits.length)
    .ok (.number value, r.drop taken)

/-! ## Values -/

/-- Words that stand for values. -/
def words : List (String × Json) :=
  [("null", .null), ("true", .bool true), ("false", .bool false), ("NaN", .number .notFinite),
    ("Infinity", .number .notFinite), ("-Infinity", .number .notFinite)]

mutual

/-- A value, with at most `fuel` steps inside each other. -/
def value (fuel : Nat) (r : Rest) : Except Fault (Json × Rest) :=
  match fuel with
  | 0 => .error ⟨.expectedValue, r.offset⟩
  | fuel + 1 =>
    match r.chars with
    | [] => .error ⟨.expectedValue, r.offset⟩
    | '"' :: _ => do
      let ((text, complete), r) ← stringBody (r.drop 1)
      return (.string text complete, r)
    | '\x7b' :: _ => do
      let r := (r.drop 1).skipSpace
      if r.startsWith "\x7d" then return (.object ∅, r.drop 1)
      let (fields, r) ← objectFields fuel r ∅
      return (.object fields, r)
    | '[' :: _ => do
      let r := (r.drop 1).skipSpace
      if r.startsWith "]" then return (.array [], r.drop 1)
      let (items, r) ← arrayItems fuel r []
      return (.array items.reverse, r)
    | _ =>
      match words.find? (fun word => r.startsWith word.1) with
      | some (word, j) => .ok (j, r.drop word.length)
      | none => number r

/-- The fields of an object up to its closing brace. -/
def objectFields (fuel : Nat) (r : Rest) (fields : OrderedMap Json) :
    Except Fault (OrderedMap Json × Rest) :=
  match fuel with
  | 0 => .error ⟨.expectedName, r.offset⟩
  | fuel + 1 => do
    if !r.startsWith "\"" then throw ⟨.expectedName, r.offset⟩
    let ((name, _), r) ← stringBody (r.drop 1)
    let r := r.skipSpace
    if !r.startsWith ":" then throw ⟨.expectedColon, r.offset⟩
    let (j, r) ← value fuel (r.drop 1).skipSpace
    let r := r.skipSpace
    let fields := fields.insert name j
    if r.startsWith "\x7d" then return (fields, r.drop 1)
    if !r.startsWith "," then throw ⟨.expectedComma, r.offset⟩
    objectFields fuel (r.drop 1).skipSpace fields

/-- The items of an array up to its closing bracket, in reverse. -/
def arrayItems (fuel : Nat) (r : Rest) (items : List Json) : Except Fault (List Json × Rest) :=
  match fuel with
  | 0 => .error ⟨.expectedValue, r.offset⟩
  | fuel + 1 => do
    let (j, r) ← value fuel r
    let r := r.skipSpace
    if r.startsWith "]" then return (j :: items, r.drop 1)
    if !r.startsWith "," then throw ⟨.expectedComma, r.offset⟩
    arrayItems fuel (r.drop 1).skipSpace (j :: items)

end

/-- Reads a text that holds one value. -/
def read (text : List Char) : Except Fault Json := do
  if text.head? = some '\ufeff' then throw ⟨.byteOrderMark, 0⟩
  let (j, r) ← value (2 * text.length + 2) (Rest.skipSpace ⟨0, text⟩)
  let r := r.skipSpace
  if r.chars.isEmpty then return j else throw ⟨.extraData, r.offset⟩

end ChannelLint.Json.Reader
