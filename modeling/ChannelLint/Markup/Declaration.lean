import ChannelLint.Markup.Scan
import ChannelLint.Text.Case

/-!
# The declaration of a document

`<?xml version="…" encoding="…" standalone="…"?>` at the very start. The encoding it names tells how
the bytes behind it are to be read; a document arrives as bytes of UTF-8.
-/
namespace ChannelLint.Markup

/-- A pseudo attribute, with the offsets of its name and of its value. -/
structure PseudoAttribute where
  name : String
  nameOffset : Nat
  value : String
  valueOffset : Nat
  deriving DecidableEq, Repr

def isValueChar (c : Char) : Bool :=
  c.isAlphanum || c == '.' || c == '-' || c == '_'

/-- The next pseudo attribute, if any, and the offset and text behind it; else the offset at
fault. -/
def pseudoAttribute (offset : Nat) (cs : List Char) :
    Except Nat (Option PseudoAttribute × Nat × List Char) := do
  let start := cs.dropWhile isSpace
  if cs.isEmpty then return (none, offset, cs)
  if start.length = cs.length then throw offset
  if start.isEmpty then return (none, offset, cs)
  let nameOffset := offset + (cs.length - start.length)
  let name := start.takeWhile fun c => c.toNat < 128 && c != '=' && !isSpace c
  let behindName := start.drop name.length
  let equals := behindName.dropWhile isSpace
  let equalsOffset := nameOffset + (start.length - equals.length)
  if name.isEmpty || equals.head? != some '=' then throw equalsOffset
  let quoted := (equals.drop 1).dropWhile isSpace
  let quoteOffset := nameOffset + (start.length - quoted.length)
  match quoted with
  | [] => throw quoteOffset
  | quote :: body =>
    if quote != '"' && quote != '\'' then throw quoteOffset
    let value := body.takeWhile isValueChar
    let stop := quoteOffset + 1 + value.length
    if (body.drop value.length).head? != some quote then throw stop
    return (some ⟨String.ofList name, nameOffset, String.ofList value, quoteOffset + 1⟩, stop + 1,
      body.drop (value.length + 1))

structure Declaration where
  /-- The name of the encoding and its offset. -/
  encoding : Option (String × Nat)
  isStandalone : Bool
  deriving DecidableEq, Repr

/-- The pseudo attribute `standalone`, which comes last. -/
def standaloneOf (a : PseudoAttribute) (offset : Nat) (cs : List Char) : Except Nat Bool := do
  if a.name != "standalone" then throw a.nameOffset
  if a.value != "yes" && a.value != "no" then throw a.valueOffset
  let rest := cs.dropWhile isSpace
  if !rest.isEmpty then throw (offset + (cs.length - rest.length))
  return a.value == "yes"

/-- Reads what stands between `<?xml` and `?>`. -/
def Declaration.read (offset : Nat) (cs : List Char) : Except Nat Declaration := do
  let (version?, o, rest) ← pseudoAttribute offset cs
  let some version := version? | throw o
  if version.name != "version" then throw version.nameOffset
  let (second?, o, rest) ← pseudoAttribute o rest
  let some second := second? | return ⟨none, false⟩
  if second.name == "encoding" then
    if !(second.value.toList.head?.any Char.isAlpha) then throw second.valueOffset
    let encoding := some (second.value, second.valueOffset)
    let (third?, o, rest) ← pseudoAttribute o rest
    let some third := third? | return ⟨encoding, false⟩
    return ⟨encoding, ← standaloneOf third o rest⟩
  else return ⟨none, ← standaloneOf second o rest⟩

/-! ## Encodings -/

/-- How bytes above the ASCII range are read. -/
inductive Charset where
  | utf8
  /-- Each byte is the code point of its own number; the Latin 1 repertoire. -/
  | latin1
  /-- Each byte is the code point of its own number. -/
  | bytes
  /-- No byte above the ASCII range is a character. -/
  | ascii
  | windows
  deriving DecidableEq, Repr

inductive Encoding where
  | charset (c : Charset)
  /-- Two bytes to a character, which contradicts the bytes read so far. -/
  | utf16
  | wide
  | unknown
  deriving DecidableEq, Repr

/-- Names of encodings, in lower case and with one `_` between two parts. -/
def encodingNames : List (Encoding × List String) := [
  (.charset .bytes, ["latin_1", "latin1", "latin", "l1", "iso8859_1", "iso_8859_1", "iso8859",
    "iso_8859_1_1987", "iso_ir_100", "cp819", "ibm819", "csisolatin1"]),
  (.charset .ascii, ["ascii", "us_ascii", "us", "ansi_x3.4_1968", "ansi_x3_4_1968",
    "ansi_x3.4_1986", "ansi_x3_4_1986", "cp367", "csascii", "ibm367", "iso646_us",
    "iso_646.irv_1991", "iso_ir_6",
    "utf_8", "utf8", "u8", "utf", "cp65001"]),
  (.charset .windows, ["cp1252", "windows_1252"]),
  (.wide, ["utf_16", "utf16", "u16", "utf_16_le", "utf_16le", "utf_16_be", "utf_16be", "utf_32",
    "utf32", "u32", "utf_7", "utf7", "u7", "shift_jis", "sjis", "shiftjis", "s_jis", "euc_jp",
    "eucjp", "gb2312", "gbk", "cp936", "gb18030", "big5", "euc_kr", "euckr", "cp949", "cp932"])]

def encodingKey (name : String) : String :=
  let parts := (Text.lower name).split fun c => !c.isAlphanum && c != '.'
  "_".intercalate ((parts.toList.map (·.toString)).filter (!·.isEmpty))

/-- The encoding with a name. The first names are compared without regard to case alone. -/
def Encoding.ofName (name : String) : Encoding :=
  match Text.lower name with
  | "utf-8" => .charset .utf8
  | "iso-8859-1" => .charset .latin1
  | "us-ascii" => .charset .ascii
  | "utf-16" | "utf-16be" | "utf-16le" => .utf16
  | _ =>
    match encodingNames.find? (·.2.contains (encodingKey name)) with
    | some (encoding, _) => encoding
    | none => .unknown

/-- The characters at 0x80 to 0x9f of the Windows repertoire; nothing where there is none. -/
def windowsControls : List Nat := [
  0x20ac, 0xffff, 0x201a, 0x0192, 0x201e, 0x2026, 0x2020, 0x2021, 0x02c6, 0x2030, 0x0160, 0x2039,
  0x0152, 0xffff, 0x017d, 0xffff, 0xffff, 0x2018, 0x2019, 0x201c, 0x201d, 0x2022, 0x2013, 0x2014,
  0x02dc, 0x2122, 0x0161, 0x203a, 0x0153, 0xffff, 0x017e, 0x0178]

/-- The character of a byte; a byte without one becomes a code point that no document may hold. -/
def Charset.char (c : Charset) (b : UInt8) : Char :=
  if b < 0x80 then Char.ofNat b.toNat
  else match c with
    | .utf8 | .ascii => Char.ofNat 0xffff
    | .latin1 | .bytes => Char.ofNat b.toNat
    | .windows =>
      if b < 0xa0 then Char.ofNat (windowsControls.getD (b.toNat - 0x80) 0xffff)
      else Char.ofNat b.toNat

/-- The characters that a text stands for when its bytes are read in another way. -/
def Charset.reread (c : Charset) (cs : List Char) : List Char :=
  if c == .utf8 then cs else (Text.encode (String.ofList cs)).toList.map c.char

end ChannelLint.Markup
