import ChannelLint.OrderedMap

/-!
# JSON values

Objects keep the order of their keys; when a key is repeated its last value counts. Numbers keep
whether they were written as whole numbers or as decimal fractions.
-/
namespace ChannelLint

inductive JsonNumber where
  | whole (value : Int)
  /-- `mantissa` times ten to the power of `exponent`. -/
  | decimal (mantissa exponent : Int)
  | notFinite
  deriving DecidableEq, Repr

inductive Json where
  | null
  | bool (value : Bool)
  | number (value : JsonNumber)
  /-- `complete` unless an escape stands for half a character. -/
  | string (text : String) (complete : Bool)
  | array (items : List Json)
  | object (fields : OrderedMap Json)
  deriving Inhabited

namespace Json

/-- The value of a field of an object. -/
def field? (j : Json) (key : String) : Option Json :=
  match j with
  | object fields => fields.find? key
  | _ => none

def text? : Json → Option String
  | string text _ => some text
  | _ => none

def whole? : Json → Option Int
  | number (.whole n) => some n
  | _ => none

def bool? : Json → Option Bool
  | bool b => some b
  | _ => none

def items? : Json → Option (List Json)
  | array items => some items
  | _ => none

def fields? : Json → Option (OrderedMap Json)
  | object fields => some fields
  | _ => none

end Json

end ChannelLint
