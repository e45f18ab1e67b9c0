import ChannelLint.Script.Lexer
import ChannelLint.Script.Tree
import Mathlib

/-!
# Rendering expressions

An expression is rendered as the texts of its words with one space between them. The words follow
the shape of the tree alone: no parentheses are added. So only a tree in which every operand is of
the level that the grammar admits at its place can be read back; `Expr.Fits` says which trees these
are.
-/
namespace ChannelLint

open List

/-! ## Words -/

/-- What a token says apart from its place. -/
structure Word where
  terminal : Terminal
  text : String
  deriving DecidableEq, Repr

variable {k : Nat} {e : Expr} {w : Word}

def Token.word (t : Token) : Word :=
  ⟨t.terminal, t.text⟩

/-- The kind of token that stands for an operator. -/
def BinaryOp.terminal : BinaryOp → Terminal
  | coalesce => .coalesceOp
  | or => .kwOr
  | and => .kwAnd
  | equal => .equals
  | notEqual | lessEqual | greaterEqual | less | greater => .compOp
  | shiftLeft | shiftRight => .shiftOp
  | add | subtract => .addOp
  | multiply | divide | integerDivide => .mulOp
  | modulo => .kwMod
  | power => .powOp

def BinaryOp.word (op : BinaryOp) : Word :=
  ⟨op.terminal, op.symbol⟩

def UnaryOp.word (op : UnaryOp) : Word where
  terminal := match op with
    | not => .kwNot
    | plus | minus => .addOp
  text := op.symbol

def LiteralKind.word (kind : LiteralKind) (text : String) : Word where
  terminal := match kind with
    | string => .string
    | number => .number
    | boolean => if text = "true" then .kwTrue else .kwFalse
    | invalid => .kwInvalid
  text := text

def Ident.word (name : Ident) : Word :=
  ⟨.name, name.text⟩

/-- Every quote twice. -/
def doubled (cs : List Char) : List Char :=
  cs.flatMap fun c => if c = '"' then ['"', '"'] else [c]

/-- A text as a string literal. -/
def stringText (s : String) : String :=
  String.ofList ('"' :: doubled s.toList ++ ['"'])

namespace Word

def comma : Word := ⟨.comma, ","⟩

def colon : Word := ⟨.colon, ":"⟩

def dot : Word := ⟨.dot, "."⟩

def question : Word := ⟨.question, "?"⟩

def new : Word := ⟨.kwNew, "new"⟩

def leftParen : Word := ⟨.leftParen, "("⟩

def rightParen : Word := ⟨.rightParen, ")"⟩

def leftBracket : Word := ⟨.leftBracket, "["⟩

def rightBracket : Word := ⟨.rightBracket, "]"⟩

def leftBrace : Word := ⟨.leftBrace, "\x7b"⟩

def rightBrace : Word := ⟨.rightBrace, "\x7d"⟩

/-- Parts with commas between them. -/
def listed (parts : List (List Word)) : List Word :=
  [comma].intercalate parts

end Word

open Word in
mutual

/-- The words of an expression. A template is one word; functions are not rendered. -/
def Expr.words : Expr → List Word
  | .var name _ => [name.word]
  | .literal kind text _ => [kind.word text]
  | .binary left op right _ => left.words ++ op.word :: right.words
  | .unary op operand _ => op.word :: operand.words
  | .group inner _ => leftParen :: inner.words ++ [rightParen]
  | .dot object name _ => object.words ++ [Word.dot, name.word]
  | .index object key _ => object.words ++ leftBracket :: key.words ++ [rightBracket]
  | .call callee args _ => callee.words ++ leftParen :: listed (Expr.wordsOf args) ++ [rightParen]
  | .ternary test onTrue onFalse _ =>
    test.words ++ question :: onTrue.words ++ colon :: onFalse.words
  | .template text _ _ => [⟨.template, text⟩]
  | .new callee args _ _ =>
    Word.new :: callee.words ++ leftParen :: listed (Expr.wordsOf args) ++ [rightParen]
  | .array items _ => leftBracket :: listed (Expr.wordsOf items) ++ [rightBracket]
  | .table members _ => leftBrace :: listed (Member.wordsOf members) ++ [rightBrace]
  | .function _ => []

def Expr.wordsOf : List Expr → List (List Word)
  | [] => []
  | e :: rest => e.words :: Expr.wordsOf rest

def Member.wordsOf : List Member → List (List Word)
  | [] => []
  | ⟨key, value⟩ :: rest =>
    (⟨.string, stringText key⟩ :: colon :: value.words) :: Member.wordsOf rest

end

def Member.words (m : Member) : List Word :=
  ⟨.string, stringText m.key⟩ :: Word.colon :: m.value.words

theorem Expr.wordsOf_eq (es : List Expr) : Expr.wordsOf es = es.map Expr.words := by
  induction es with
  | nil => rfl
  | cons e rest ih => rw [Expr.wordsOf, ih, map_cons]

theorem Member.wordsOf_eq (ms : List Member) : Member.wordsOf ms = ms.map Member.words := by
  induction ms with
  | nil => rfl
  | cons m rest ih =>
    obtain ⟨key, value⟩ := m
    rw [Member.wordsOf, ih, map_cons, Member.words]

/-- The text of an expression: its words with one space between them. -/
def Expr.text (e : Expr) : String :=
  " ".intercalate (e.words.map (·.text))

/-- A script that assigns an expression. -/
def Expr.assigned (e : Expr) : String :=
  "sub main()\nx = " ++ e.text ++ "\nend sub\n"

/-! ## Expressions without ranges -/

mutual

/-- An expression without its ranges. -/
def Expr.bare : Expr → Expr
  | .var name called => .var ⟨name.text, .empty⟩ called
  | .literal kind text _ => .literal kind text .empty
  | .binary left op right _ => .binary left.bare op right.bare .empty
  | .unary op operand _ => .unary op operand.bare .empty
  | .group inner _ => .group inner.bare .empty
  | .dot object name _ => .dot object.bare ⟨name.text, .empty⟩ .empty
  | .index object key _ => .index object.bare key.bare .empty
  | .call callee args _ => .call callee.bare (Expr.bareAll args) .empty
  | .ternary test onTrue onFalse _ => .ternary test.bare onTrue.bare onFalse.bare .empty
  | .template text parts _ => .template text (Expr.bareAll parts) .empty
  | .new callee args _ _ => .new callee.bare (Expr.bareAll args) .empty .empty
  | .array items _ => .array (Expr.bareAll items) .empty
  | .table members _ => .table (Member.bareAll members) .empty
  | .function func => .function func

def Expr.bareAll : List Expr → List Expr
  | [] => []
  | e :: rest => e.bare :: Expr.bareAll rest

def Member.bareAll : List Member → List Member
  | [] => []
  | ⟨key, value⟩ :: rest => ⟨key, value.bare⟩ :: Member.bareAll rest

end

def Member.bare (m : Member) : Member :=
  ⟨m.key, m.value.bare⟩

theorem Expr.bareAll_eq (es : List Expr) : Expr.bareAll es = es.map Expr.bare := by
  induction es with
  | nil => rfl
  | cons e rest ih => rw [Expr.bareAll, ih, map_cons]

theorem Member.bareAll_eq (ms : List Member) : Member.bareAll ms = ms.map Member.bare := by
  induction ms with
  | nil => rfl
  | cons m rest ih =>
    obtain ⟨key, value⟩ := m
    rw [Member.bareAll, ih, map_cons, Member.bare]

/-! ## Names and numbers -/

namespace Lexer

open Text (foldLetter)

/-- What holds of the characters of a list is decided along the list, not over all characters. -/
scoped instance decidableForallMem (cs : List Char) (p : Char → Prop) [DecidablePred p] :
    Decidable (∀ c ∈ cs, p c) :=
  List.decidableBAll p cs

/-- Words that are read as a terminal of their own, in front of a type mark too. -/
def joinedWords : List String :=
  ["endfor", "endnamespace", "endfunction", "exitwhile", "endclass", "endwhile", "exitfor",
    "endenum", "elseif", "endsub", "endtry", "endif", "public", "private", "protected", "override"]

/-- Words that are not read as a name by themselves, or not in front of some other word. -/
def openWords : List String :=
  ["next", "rem", "end", "for", "else"]

/-- Whether a text has the letters of a name and is always read as one word. -/
def isWord (text : String) : Bool :=
  let stem := text.toList.takeWhile isNameChar
  let mark := text.toList.dropWhile isNameChar
  text.toList.head?.any isNameStart && mark.length ≤ 1 && mark.all isTypeMark &&
    !joinedWords.contains (String.ofList (stem.map foldLetter)) &&
    !openWords.contains (String.ofList (text.toList.map foldLetter))

/-- Whether a text is a name that is not reserved. -/
def isFreeName (text : String) : Bool :=
  isWord text && (keywords.lookup (String.ofList (text.toList.map foldLetter))).isNone

def IsDigits (cs : List Char) : Prop :=
  cs ≠ [] ∧ ∀ c ∈ cs, Text.isDecimalDigit c

instance (cs : List Char) : Decidable (IsDigits cs) :=
  inferInstanceAs (Decidable (cs ≠ [] ∧ ∀ c ∈ cs, Text.isDecimalDigit c))

/-- Digits with at most one point among them. -/
inductive IsMantissa : List Char → Prop
  | whole {ds : List Char} : IsDigits ds → IsMantissa ds
  | pointed {ds fs : List Char} :
    IsDigits ds → (∀ c ∈ fs, Text.isDecimalDigit c) → IsMantissa (ds ++ '.' :: fs)
  | fraction {fs : List Char} : IsDigits fs → IsMantissa ('.' :: fs)

/-- An exponent, or nothing. -/
inductive IsExponent : List Char → Prop
  | absent : IsExponent []
  | unsigned {e : Char} {ds : List Char} :
    e = 'e' ∨ e = 'E' → IsDigits ds → IsExponent (e :: ds)
  | signed {e sign : Char} {ds : List Char} :
    e = 'e' ∨ e = 'E' → sign = '+' ∨ sign = '-' → IsDigits ds → IsExponent (e :: sign :: ds)

/-- The texts of numbers. -/
inductive IsNumber : List Char → Prop
  | decimal {m x mark : List Char} : IsMantissa m → IsExponent x →
    mark ∈ [[], ['%'], ['!'], ['#'], ['&']] → IsNumber (m ++ x ++ mark)
  | hexadecimal {h : Char} {ds mark : List Char} : h = 'h' ∨ h = 'H' → ds ≠ [] →
    (∀ c ∈ ds, isHexDigit c) → mark ∈ [[], ['&']] → IsNumber ('&' :: h :: ds ++ mark)

end Lexer

/-! ## Levels -/

/-- The level of an operator, loosest first. Level 0 is the conditional, level 4 is `not`, level 10
the sign, and level 11 an operand with what follows it. -/
def BinaryOp.level : BinaryOp → Nat
  | coalesce => 1
  | or => 2
  | and => 3
  | equal | notEqual | lessEqual | greaterEqual | less | greater => 5
  | shiftLeft | shiftRight => 6
  | add | subtract => 7
  | multiply | divide | integerDivide | modulo => 8
  | power => 9

namespace Expr

def isVar : Expr → Bool
  | .var .. => true
  | _ => false

/-- Names with dots between them. -/
inductive Dotted : Expr → Prop
  | first {name : Ident} : Lexer.isFreeName name.text → Dotted (.var name false)
  | next {object : Expr} {name : Ident} {range : Range} :
    Dotted object → Lexer.isFreeName name.text → Dotted (.dot object name range)

/-- What an object may be made of: a name, which counts as called, or names with dots. -/
inductive Creates : Expr → Prop
  | name {name : Ident} : Lexer.isFreeName name.text → Creates (.var name true)
  | dotted {object : Expr} {name : Ident} {range : Range} :
    Dotted object → Lexer.isFreeName name.text → Creates (.dot object name range)

/-- An expression may stand where the grammar admits a level: each of its operands is of the level
that the grammar admits at its place. -/
inductive Fits : Nat → Expr → Prop
  | tighter {k : Nat} {e : Expr} : Fits (k + 1) e → Fits k e
  | ternary {test onTrue onFalse : Expr} {range : Range} :
    Fits 1 test → Fits 0 onTrue → Fits 0 onFalse → Fits 0 (.ternary test onTrue onFalse range)
  | binary {left right : Expr} {op : BinaryOp} {range : Range} :
    Fits op.level left → Fits (op.level + 1) right → Fits op.level (.binary left op right range)
  | negation {operand : Expr} {range : Range} : Fits 4 operand → Fits 4 (.unary .not operand range)
  | sign {op : UnaryOp} {operand : Expr} {range : Range} :
    op ≠ .not → Fits 10 operand → Fits 10 (.unary op operand range)
  | dot {object : Expr} {name : Ident} {range : Range} :
    Fits 11 object → Lexer.isFreeName name.text → Fits 11 (.dot object name range)
  | index {object key : Expr} {range : Range} :
    Fits 11 object → Fits 0 key → Fits 11 (.index object key range)
  | callName {name : Ident} {args : List Expr} {range : Range} :
    Lexer.isFreeName name.text → (∀ a ∈ args, Fits 0 a) →
      Fits 11 (.call (.var name true) args range)
  | call {callee : Expr} {args : List Expr} {range : Range} :
    Fits 11 callee → callee.isVar = false → (∀ a ∈ args, Fits 0 a) →
      Fits 11 (.call callee args range)
  | var {name : Ident} : Lexer.isFreeName name.text → Fits 11 (.var name false)
  | number {text : String} {range : Range} :
    Lexer.IsNumber text.toList → Fits 11 (.literal .number text range)
  | string {inner : String} {range : Range} :
    '\n' ∉ inner.toList → Fits 11 (.literal .string (stringText inner) range)
  | boolean {text : String} {range : Range} :
    text = "true" ∨ text = "false" → Fits 11 (.literal .boolean text range)
  | invalid {range : Range} : Fits 11 (.literal .invalid "invalid" range)
  | group {inner : Expr} {range : Range} : Fits 0 inner → Fits 11 (.group inner range)
  | new {callee : Expr} {args : List Expr} {callRange range : Range} :
    Creates callee → (∀ a ∈ args, Fits 0 a) → Fits 11 (.new callee args callRange range)
  | array {items : List Expr} {range : Range} :
    (∀ e ∈ items, Fits 0 e) → Fits 11 (.array items range)
  | table {members : List Member} {range : Range} :
    (∀ m ∈ members, '\n' ∉ m.key.toList) → (∀ m ∈ members, Fits 0 m.value) →
      Fits 11 (.table members range)

/-- An expression of a tighter level may stand at a looser one. -/
theorem Fits.of_le {j : Nat} (fits : Fits k e) (le : j ≤ k) : Fits j e := by
  induction le with
  | refl => exact fits
  | step _ ih => exact ih (.tighter fits)

theorem Fits.level_le (fits : Fits k e) : k ≤ 11 := by
  induction fits with
  | tighter _ ih => omega
  | @binary _ _ op => cases op <;> decide
  | _ => omega

end Expr

/-! ## What the words of an expression are like -/

namespace Word

open Text (foldLetter)

/-- Operators and brackets. -/
def signs : List Word :=
  [⟨.coalesceOp, "??"⟩, ⟨.equals, "="⟩, ⟨.compOp, "<>"⟩, ⟨.compOp, "<="⟩, ⟨.compOp, ">="⟩,
    ⟨.compOp, "<"⟩, ⟨.compOp, ">"⟩, ⟨.shiftOp, "<<"⟩, ⟨.shiftOp, ">>"⟩, ⟨.addOp, "+"⟩,
    ⟨.addOp, "-"⟩, ⟨.mulOp, "*"⟩, ⟨.mulOp, "/"⟩, ⟨.mulOp, "\\"⟩, ⟨.powOp, "^"⟩, comma, colon, dot,
    question, leftParen, rightParen, leftBracket, rightBracket, leftBrace, rightBrace]

/-- Keywords that stand in expressions. -/
def keywords : List Word :=
  [⟨.kwOr, "or"⟩, ⟨.kwAnd, "and"⟩, ⟨.kwMod, "mod"⟩, ⟨.kwNot, "not"⟩, new, ⟨.kwTrue, "true"⟩,
    ⟨.kwFalse, "false"⟩, ⟨.kwInvalid, "invalid"⟩]

/-- Words whose text is read as their terminal. -/
inductive Legible : Word → Prop
  | name {text : String} : Lexer.isFreeName text → Legible ⟨.name, text⟩
  | number {text : String} : Lexer.IsNumber text.toList → Legible ⟨.number, text⟩
  | string {inner : String} : '\n' ∉ inner.toList → Legible ⟨.string, stringText inner⟩
  | sign {w : Word} : w ∈ signs → Legible w
  | keyword {w : Word} : w ∈ keywords → Legible w

/-- Whether a word cannot be `for` or `while`: a name in front of these may be `exit`. -/
def mayFollowName (w : Word) : Bool :=
  w.text.toList.head?.all fun c => foldLetter c != 'f' && foldLetter c != 'w'

/-- Words that are legible and stay so in this order. -/
structure Readable (ws : List Word) : Prop where
  each : ∀ w ∈ ws, w.Legible
  chained : ws.IsChain fun w next => w.terminal = .name → next.mayFollowName

/-- A word that may stand between any two others. -/
structure Joint (w : Word) : Prop where
  legible : w.Legible
  noName : w.terminal ≠ .name
  follows : w.mayFollowName

namespace Readable

theorem nil : Readable [] :=
  ⟨nofun, .nil⟩

theorem single (legible : w.Legible) : Readable [w] :=
  ⟨fun _ member => mem_singleton.1 member ▸ legible, .singleton w⟩

theorem cons {ws : List Word} (legible : w.Legible) (noName : w.terminal ≠ .name)
    (rest : Readable ws) : Readable (w :: ws) := by
  refine ⟨forall_mem_cons.2 ⟨legible, rest.each⟩, isChain_cons.2 ⟨?_, rest.chained⟩⟩
  exact fun _ _ isName => absurd isName noName

/-- Words stay readable on the two sides of a joint. -/
theorem join {first second : List Word} (front : Readable first) (joint : w.Joint)
    (behind : Readable second) : Readable (first ++ w :: second) := by
  have rest := behind.cons joint.legible joint.noName
  refine ⟨forall_mem_append.2 ⟨front.each, rest.each⟩,
    isChain_append.2 ⟨front.chained, rest.chained, ?_⟩⟩
  rintro last - next isNext -
  obtain rfl := Option.some.inj isNext
  exact joint.follows

theorem bracket {left right : Word} {ws : List Word} (opens : left.Joint) (inner : Readable ws)
    (closes : right.Joint) : Readable (left :: ws ++ [right]) :=
  (inner.cons opens.legible opens.noName).join closes nil

theorem listed {parts : List (List Word)} (each : ∀ part ∈ parts, Readable part)
    (comma : Word.comma.Joint) : Readable (Word.listed parts) := by
  induction parts with
  | nil => exact nil
  | cons part rest ih =>
    obtain ⟨first, others⟩ := forall_mem_cons.1 each
    cases rest with
    | nil => simpa [Word.listed] using first
    | cons second rest =>
      rw [Word.listed, intercalate_cons_cons, append_assoc]
      exact first.join comma (ih others)

end Readable

theorem joint_of_mem (member : w ∈ signs) : w.Joint := by
  have plain : ∀ w ∈ signs, w.terminal ≠ .name ∧ w.mayFollowName := by decide
  obtain ⟨noName, follows⟩ := plain w member
  exact ⟨.sign member, noName, follows⟩

end Word

open Word in
theorem BinaryOp.joint_word (op : BinaryOp) : op.word.Joint := by
  by_cases isSign : op.word ∈ signs
  · exact joint_of_mem isSign
  · have others : op.word ∈ keywords ∧ op.word.terminal ≠ .name ∧ op.word.mayFollowName := by
      revert isSign
      cases op <;> decide
    obtain ⟨isKeyword, noName, follows⟩ := others
    exact ⟨.keyword isKeyword, noName, follows⟩

namespace Expr

theorem Dotted.readable (dotted : Dotted e) : Word.Readable e.words := by
  induction dotted with
  | first free => exact .single (.name free)
  | next _ free ih => exact ih.join (Word.joint_of_mem (by decide)) (.single (.name free))

theorem Creates.readable (creates : Creates e) : Word.Readable e.words := by
  cases creates with
  | name free => exact .single (.name free)
  | dotted dotted free =>
    exact dotted.readable.join (Word.joint_of_mem (by decide)) (.single (.name free))

theorem readable_arguments {args : List Expr} (each : ∀ a ∈ args, Word.Readable a.words) :
    Word.Readable (Word.listed (wordsOf args) ++ [Word.rightParen]) := by
  refine Word.Readable.join (.listed ?_ (Word.joint_of_mem (by decide)))
    (Word.joint_of_mem (by decide)) .nil
  rw [wordsOf_eq]
  exact forall_mem_map.2 each

/-- The words of an expression are readable. -/
theorem Fits.readable (fits : Fits k e) : Word.Readable e.words := by
  have joint {w : Word} (isSign : w ∈ Word.signs) : w.Joint := Word.joint_of_mem isSign
  induction fits with
  | tighter _ ih => exact ih
  | ternary _ _ _ test onTrue onFalse =>
    rw [words, append_assoc]
    exact test.join (joint (by decide)) (onTrue.join (joint (by decide)) onFalse)
  | @binary _ _ op _ _ _ left right => exact left.join op.joint_word right
  | negation _ operand => exact operand.cons (.keyword (by decide)) (by decide)
  | @sign op _ _ isSign _ operand =>
    have member : op.word ∈ Word.signs := by
      revert isSign
      cases op <;> decide
    exact operand.cons (joint member).legible (joint member).noName
  | dot _ free object => exact object.join (joint (by decide)) (.single (.name free))
  | index _ _ object key =>
    rw [words, append_assoc]
    exact object.join (joint (by decide)) (key.join (joint (by decide)) .nil)
  | callName free _ args =>
    rw [words, append_assoc]
    exact (Word.Readable.single (.name free)).join (joint (by decide)) (readable_arguments args)
  | call _ _ _ callee args =>
    rw [words, append_assoc]
    exact callee.join (joint (by decide)) (readable_arguments args)
  | var free => exact .single (.name free)
  | number isNumber => exact .single (.number isNumber)
  | string oneLine => exact .single (.string oneLine)
  | boolean isBoolean => rcases isBoolean with rfl | rfl <;> exact .single (.keyword (by decide))
  | invalid => exact .single (.keyword (by decide))
  | group _ inner => exact .bracket (joint (by decide)) inner (joint (by decide))
  | new creates _ args =>
    rw [words, append_assoc]
    refine Word.Readable.join (creates.readable.cons (.keyword (by decide)) (by decide))
      (joint (by decide)) (readable_arguments args)
  | array _ items =>
    refine .bracket (joint (by decide)) (.listed ?_ (joint (by decide))) (joint (by decide))
    rw [wordsOf_eq]
    exact forall_mem_map.2 items
  | table keys _ members =>
    refine .bracket (joint (by decide)) (.listed ?_ (joint (by decide))) (joint (by decide))
    rw [Member.wordsOf_eq]
    refine forall_mem_map.2 fun m member => ?_
    exact (Word.Readable.single (.string (keys m member))).join (joint (by decide))
      (members m member)

/-- The terminals that an operand may begin with. -/
def opens : Terminal → Bool
  | .name | .string | .number | .kwTrue | .kwFalse | .kwInvalid | .leftParen | .leftBracket
  | .leftBrace | .kwNew => true
  | _ => false

/-- Whether an expression of a level may begin with a terminal. -/
def startsAt (k : Nat) (t : Terminal) : Bool :=
  opens t || (k ≤ 10 && t == .addOp) || (k ≤ 4 && t == .kwNot)

theorem startsAt_of_le {j : Nat} {t : Terminal} (le : j ≤ k) (starts : startsAt k t) :
    startsAt j t := by
  simp only [startsAt, Bool.or_eq_true, Bool.and_eq_true, decide_eq_true_eq] at starts ⊢
  rcases starts with (isOpen | ⟨tight, isSign⟩) | ⟨tight, isNot⟩
  · exact .inl (.inl isOpen)
  · exact .inl (.inr ⟨le.trans tight, isSign⟩)
  · exact .inr ⟨le.trans tight, isNot⟩

/-- What an expression begins with. -/
theorem Fits.head (fits : Fits k e) : ∃ w rest, e.words = w :: rest ∧ startsAt k w.terminal := by
  have extend {k : Nat} {ws more : List Word}
      (ih : ∃ w rest, ws = w :: rest ∧ startsAt k w.terminal) :
      ∃ w rest, ws ++ more = w :: rest ∧ startsAt k w.terminal := by
    obtain ⟨w, rest, rfl, starts⟩ := ih
    exact ⟨w, rest ++ more, rfl, starts⟩
  have loosen {j k : Nat} {ws : List Word} (le : j ≤ k)
      (ih : ∃ w rest, ws = w :: rest ∧ startsAt k w.terminal) :
      ∃ w rest, ws = w :: rest ∧ startsAt j w.terminal := by
    obtain ⟨w, rest, same, starts⟩ := ih
    exact ⟨w, rest, same, startsAt_of_le le starts⟩
  induction fits with
  | tighter _ ih => exact loosen (Nat.le_succ _) ih
  | ternary _ _ _ test _ _ => exact extend (extend (loosen (Nat.zero_le 1) test))
  | binary _ _ left _ => exact extend left
  | negation => exact ⟨_, _, rfl, rfl⟩
  | @sign op _ _ isSign =>
    refine ⟨_, _, rfl, ?_⟩
    revert isSign
    cases op <;> decide
  | dot _ _ object => exact extend object
  | index _ _ object _ => exact extend (extend object)
  | callName => exact ⟨_, _, rfl, rfl⟩
  | call _ _ _ callee _ => exact extend (extend callee)
  | boolean isBoolean => rcases isBoolean with rfl | rfl <;> exact ⟨_, _, rfl, rfl⟩
  | _ => exact ⟨_, _, rfl, rfl⟩

end Expr

end ChannelLint
