import ChannelLint.Text.CharClass

/-!
# Decimal digits

The decimal digits of every script.
-/
namespace ChannelLint.Text

/-- Decimal digits above the ASCII range. -/
def digitClass : CharClass := ⟨[
  1632,10,134,10,198,10,412,10,118,10,118,10,118,10,118,10,118,10,118,10,118,10,118,10,118,10,96,10,
  118,10,70,10,278,10,70,10,1862,10,38,10,300,10,128,10,166,10,6,10,182,10,86,10,134,10,6,10,35270,
  10,678,10,38,10,198,10,22,10,86,10,406,10,21270,10,1414,10,2182,10,812,10,128,10,60,10,144,10,278,
  10,342,10,118,10,374,10,102,10,102,10,422,10,102,10,758,10,246,10,70,10,19638,10,86,10,134,10,
  27764,50,2368,10,422,10,1622,10,4758,10]⟩

def isDecimalDigit (c : Char) : Bool :=
  c.isDigit || (127 < c.toNat && digitClass.contains c)

end ChannelLint.Text
