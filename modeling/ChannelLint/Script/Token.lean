import ChannelLint.Text.Position

/-!
# Tokens of a script

A token is a terminal of the grammar, the text it was read from, and where that text stands.
-/
namespace ChannelLint

inductive Terminal where
  -- words that stand alone
  | kwIf | kwThen | kwElse | kwFor | kwTo | kwStep | kwIn | kwWhile | kwReturn
  | kwSub | kwFunction | kwAs | kwTry | kwCatch | kwThrow | kwGoto | kwPrint | kwEnd | kwStop
  | kwDim | kwClass | kwExtends | kwNew | kwNamespace | kwConst | kwEnum | kwImport | kwLibrary
  | kwTrue | kwFalse | kwInvalid | kwAnd | kwOr | kwNot | kwMod
  -- words that may be written as two
  | elseIf | endIf | forEach | endFor | endWhile | exitFor | exitWhile | endSub | endFunction
  | endTry | endClass | endNamespace | endEnum
  | modifier
  -- operators
  | equals | assignOp | incOp | compOp | shiftOp | coalesceOp | addOp | mulOp | powOp
  -- names and literals
  | label | name | number | string | template
  -- separators and brackets
  | newline | colon | semicolon | comma | dot | optionalDot | question | at
  | leftParen | rightParen | leftBracket | rightBracket | leftBrace | rightBrace
  deriving DecidableEq, Repr

structure Token where
  terminal : Terminal
  text : String
  range : Range
  deriving DecidableEq, Repr

end ChannelLint
