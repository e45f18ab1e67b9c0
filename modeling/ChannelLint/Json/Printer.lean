import ChannelLint.Json
import ChannelLint.Text.Quoted

/-!
# Printing JSON

Values are printed over several lines, two spaces for each level. Only printable ASCII characters
are printed as they are; a character beyond the basic plane is printed as two halves.
-/
namespace ChannelLint.Json

def unitEscape (n : Nat) : List Char :=
  '\\' :: 'u' :: Text.hexDigits 4 n

def escapeChar (c : Char) : List Char :=
  match c with
  | '"' => ['\\', '"']
  | '\\' => ['\\', '\\']
  | '\n' => ['\\', 'n']
  | '\r' => ['\\', 'r']
  | '\t' => ['\\', 't']
  | '\x08' => ['\\', 'b']
  | '\x0c' => ['\\', 'f']
  | _ =>
    if 32 ≤ c.toNat && c.toNat < 127 then [c]
    else if c.toNat < 0x10000 then unitEscape c.toNat
    else
      let n := c.toNat - 0x10000
      unitEscape (0xd800 + n / 0x400) ++ unitEscape (0xdc00 + n % 0x400)

def quote (s : String) : String :=
  String.ofList ('"' :: s.toList.flatMap escapeChar ++ ['"'])

def indent (level : Nat) : String :=
  String.ofList ('\n' :: List.replicate (2 * level) ' ')

/-- Items between two brackets, each on a line of its own. -/
def block (level : Nat) (left right : String) (items : List String) : String :=
  if items.isEmpty then left ++ right
  else left ++ ",".intercalate (items.map (indent (level + 1) ++ ·)) ++ indent level ++ right

/-- A list of objects whose fields are texts and whole numbers. -/
def renderTable (rows : List (List (String × (String ⊕ Nat)))) : String :=
  block 0 "[" "]" (rows.map fun row =>
    block 1 "\x7b" "\x7d" (row.map fun (key, value) =>
      quote key ++ ": " ++ match value with
        | .inl text => quote text
        | .inr n => toString n))

end ChannelLint.Json
