import ChannelLint.Text.Quoted

/-!
# UTF-8

Decoding a file. The first fault is reported with the bytes it covers: a byte that cannot begin a
character, a byte that cannot continue one, or a character cut off by the end of the data.
-/
namespace ChannelLint.Text

inductive Utf8Cause where
  | badStart | badContinuation | cutOff
  deriving DecidableEq, Repr

def Utf8Cause.text : Utf8Cause → String
  | badStart => "invalid start byte"
  | badContinuation => "invalid continuation byte"
  | cutOff => "unexpected end of data"

/-- A fault at byte offset `position` that covers `length` bytes, the first of them `byte`. -/
structure Utf8Fault where
  cause : Utf8Cause
  position : Nat
  length : Nat
  byte : UInt8
  deriving DecidableEq, Repr

def Utf8Fault.message (f : Utf8Fault) : String :=
  if f.length = 1 then
    let hex := String.ofList (hexDigits 2 f.byte.toNat)
    s!"'utf-8' codec can't decode byte 0x{hex} in position {f.position}: {f.cause.text}"
  else
    let last := f.position + f.length - 1
    s!"'utf-8' codec can't decode bytes in position {f.position}-{last}: {f.cause.text}"

def isContinuation (b : UInt8) : Bool :=
  0x80 ≤ b && b < 0xc0

/-- Whether `second` may follow `first`: besides being a continuation byte it must not make an
overlong form, a surrogate or a code point that is too large. -/
def mayFollow (first second : UInt8) : Bool :=
  isContinuation second &&
    (first != 0xe0 || 0xa0 ≤ second) && (first != 0xed || second < 0xa0) &&
    (first != 0xf0 || 0x90 ≤ second) && (first != 0xf4 || second < 0x90)

/-- How many bytes follow the first byte of a character; nothing for a byte that begins none. -/
def followers? (b : UInt8) : Option Nat :=
  if b < 0x80 then some 0
  else if b < 0xc2 then none
  else if b < 0xe0 then some 1
  else if b < 0xf0 then some 2
  else if b < 0xf5 then some 3
  else none

/-- What is wrong with the bytes behind `first`, of which `count` have to follow: the cause and the
number of bytes covered. -/
def followFault? (first : UInt8) (count : Nat) (rest : List UInt8) : Option (Utf8Cause × Nat) :=
  let seen := rest.take count
  let good := match seen with
    | [] => 0
    | second :: more =>
      if mayFollow first second then 1 + (more.takeWhile isContinuation).length else 0
  if good < seen.length then some (.badContinuation, 1 + good)
  else if seen.length < count then some (.cutOff, 1 + seen.length)
  else none

def leadBits (count : Nat) (b : UInt8) : Nat :=
  match count with
  | 0 => b.toNat
  | 1 => b.toNat % 32
  | 2 => b.toNat % 16
  | _ => b.toNat % 8

/-- Decodes bytes of which the first stands at offset `position`. -/
def decodeFrom (position : Nat) : List UInt8 → Except Utf8Fault (List Char)
  | [] => .ok []
  | first :: rest =>
    match followers? first with
    | none => .error ⟨.badStart, position, 1, first⟩
    | some count =>
      match followFault? first count rest with
      | some (cause, length) => .error ⟨cause, position, length, first⟩
      | none => do
        let code := (rest.take count).foldl (fun n b => n * 64 + b.toNat % 64)
          (leadBits count first)
        let more ← decodeFrom (position + 1 + count) (rest.drop count)
        return Char.ofNat code :: more
termination_by bytes => bytes.length
decreasing_by simp only [List.length_drop, List.length_cons]; omega

def decode (bytes : ByteArray) : Except Utf8Fault String :=
  (decodeFrom 0 bytes.toList).map String.ofList

def encode (s : String) : ByteArray :=
  s.toUTF8

/-! ## Line ends -/

/-- A carriage return, alone or in front of a line feed, is read as a line feed. -/
def unifyLineEnds : List Char → List Char
  | '\r' :: '\n' :: rest => '\n' :: unifyLineEnds rest
  | '\r' :: rest => '\n' :: unifyLineEnds rest
  | c :: rest => c :: unifyLineEnds rest
  | [] => []

/-- Decodes a text file, with unified line ends. -/
def decodeLines (bytes : ByteArray) : Except Utf8Fault String :=
  (decodeFrom 0 bytes.toList).map fun cs => String.ofList (unifyLineEnds cs)

end ChannelLint.Text
