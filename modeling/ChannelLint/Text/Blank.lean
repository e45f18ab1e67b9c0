import ChannelLint.Text.CharClass

/-!
# Blank characters

The characters that trimming a text removes from its two ends.
-/
namespace ChannelLint.Text

def blankClass : CharClass := ⟨[
  9, 5, 14, 5, 100, 1, 26, 1, 5599, 1, 2431, 11, 29, 2, 5, 1, 47, 1, 4000, 1]⟩

def isBlank (c : Char) : Bool :=
  blankClass.contains c

/-- A text without the blank characters at its two ends. -/
def trim (s : String) : String :=
  String.ofList (((s.toList.dropWhile isBlank).reverse.dropWhile isBlank).reverse)

end ChannelLint.Text
