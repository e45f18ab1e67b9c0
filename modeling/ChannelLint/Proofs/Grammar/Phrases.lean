import ChannelLint.Script.Token
import Mathlib

/-!
# The grammar of scripts

The grammar in extended notation: a rule stands for a phrase, and a phrase is made of terminals,
rules, sequences, alternatives and repetitions. `Derives` says which words of terminals a phrase
stands for; the words of a phrase form a language (`Phrase.words`).

What can be read off a phrase alone is computed: whether it derives the empty word
(`Phrase.nullable`), the terminals that its words begin with (`Phrase.first`), and some word of it
(`Phrase.sample`). Rules refer to each other, so the first two are tables for rules, which are
checked against the grammar.
-/
namespace ChannelLint.Grammar

open List

inductive Nonterminal where
  -- declarations
  | start | topItem | separator | functionDecl | anonFunction | functionEnd | params | param
  | returnType | typeRef | classDecl | classMember | methodDecl | fieldDecl | namespaceDecl
  | constDecl | enumDecl | enumMember | importStmt | libraryStmt | dottedName
  -- statements
  | block | statement | inlineStatement | assignment | dottedSet | indexedSet | increment
  | callStmt | printStmt | printSeparator | ifStmt | elseIfClause | elseClause | inlineIf
  | inlineElseIf | inlineElse | forStmt | forEachStmt | whileStmt | exitStmt | returnStmt
  | throwStmt | tryStmt | catchClause | labelStmt | gotoStmt | endStmt | stopStmt | dimStmt
  -- expressions
  | expr | conditional | coalesce | orExpr | andExpr | notExpr | comparison | shift | additive
  | multiplicative | exponent | unary | operand | atom | newExpr | callArgs | array | table
  | tableMember | listSeparator | templateExpr
  deriving DecidableEq, Repr

inductive Phrase where
  | token (t : Terminal)
  | rule (r : Nonterminal)
  | empty
  | seq (first second : Phrase)
  | either (left right : Phrase)
  | many (item : Phrase)
  deriving DecidableEq, Repr

namespace Phrase

/-- Phrases one behind the other. -/
def row : List Phrase → Phrase
  | [] => empty
  | [p] => p
  | p :: q :: ps => seq p (row (q :: ps))

/-- One of several phrases. -/
def any : List Phrase → Phrase
  | [] => empty
  | [p] => p
  | p :: q :: ps => either p (any (q :: ps))

/-- A phrase that may be missing. -/
def opt (p : Phrase) : Phrase :=
  either p empty

/-- A phrase at least once. -/
def several (p : Phrase) : Phrase :=
  seq p (many p)

end Phrase

open Phrase

/-- The keyword that opens a function. -/
def functionKeyword : Phrase :=
  any [.token .kwSub, .token .kwFunction]

def assignSign : Phrase :=
  any [.token .equals, .token .assignOp]

/-- Lines of `item`: each ends with a separator, and separators may stand alone. -/
def lines (item : Phrase) : Phrase :=
  many (any [row [item, .rule .separator], .rule .separator])

/-- Names joined by dots. -/
def names : Phrase :=
  row [.token .name, many (row [.token .dot, .token .name])]

/-- A line of operands of rule `tighter` with the operators `ops` between them, grouped from the
left. -/
def leftGrouped (self tighter : Nonterminal) (ops : List Terminal) : Phrase :=
  any [.rule tighter, row [.rule self, any (ops.map .token), .rule tighter]]

/-- Items between brackets, separated by commas or line feeds. -/
def bracketed (opening closing : Terminal) (item : Phrase) : Phrase :=
  row [.token opening, many (.token .newline),
    opt (row [item, many (row [.rule .listSeparator, item]), opt (.rule .listSeparator)]),
    .token closing]

def grammar : Nonterminal → Phrase
  | .start => row [many (any [row [.rule .topItem, .rule .separator], .rule .separator]),
      opt (.rule .topItem)]
  | .topItem => any [.rule .functionDecl, .rule .classDecl, .rule .namespaceDecl,
      .rule .constDecl, .rule .enumDecl, .rule .importStmt, .rule .libraryStmt]
  | .separator => any [.token .newline, .token .colon]
  | .functionDecl => row [functionKeyword, .token .name, .rule .params, opt (.rule .returnType),
      .rule .separator, .rule .block, .rule .functionEnd]
  | .anonFunction => row [functionKeyword, .rule .params, opt (.rule .returnType),
      .rule .separator, .rule .block, .rule .functionEnd]
  | .functionEnd => any [.token .endSub, .token .endFunction]
  | .params => row [.token .leftParen,
      opt (row [.rule .param, many (row [.token .comma, .rule .param])]), .token .rightParen]
  | .param => row [.token .name, opt (row [.token .equals, .rule .expr]),
      opt (row [.token .kwAs, .rule .typeRef])]
  | .returnType => row [.token .kwAs, .rule .typeRef]
  | .typeRef => any [names, .token .kwFunction, .token .kwSub]
  | .classDecl => row [.token .kwClass, .token .name,
      opt (row [.token .kwExtends, .rule .dottedName]), .rule .separator,
      lines (.rule .classMember), .token .endClass]
  | .classMember => any [.rule .methodDecl, .rule .fieldDecl]
  | .methodDecl => row [many (.token .modifier), functionKeyword,
      any [.token .name, .token .kwNew], .rule .params, opt (.rule .returnType),
      .rule .separator, .rule .block, .rule .functionEnd]
  | .fieldDecl => row [many (.token .modifier), .token .name,
      opt (row [.token .kwAs, .rule .typeRef]), opt (row [.token .equals, .rule .expr])]
  | .namespaceDecl => row [.token .kwNamespace, .rule .dottedName, .rule .separator,
      lines (.rule .topItem), .token .endNamespace]
  | .constDecl => row [.token .kwConst, .token .name, .token .equals, .rule .expr]
  | .enumDecl => row [.token .kwEnum, .token .name, .rule .separator, lines (.rule .enumMember),
      .token .endEnum]
  | .enumMember => row [.token .name, opt (row [.token .equals, .rule .expr])]
  | .importStmt => row [.token .kwImport, .token .string]
  | .libraryStmt => row [.token .kwLibrary, .token .string]
  | .dottedName => names
  | .block => lines (.rule .statement)
  | .statement => any [.rule .assignment, .rule .dottedSet, .rule .indexedSet, .rule .increment,
      .rule .callStmt, .rule .printStmt, .rule .ifStmt, .rule .inlineIf, .rule .forStmt,
      .rule .forEachStmt, .rule .whileStmt, .rule .exitStmt, .rule .returnStmt, .rule .throwStmt,
      .rule .tryStmt, .rule .labelStmt, .rule .gotoStmt, .rule .endStmt, .rule .stopStmt,
      .rule .dimStmt]
  | .inlineStatement => any [.rule .assignment, .rule .dottedSet, .rule .indexedSet,
      .rule .increment, .rule .callStmt, .rule .printStmt, .rule .exitStmt, .rule .returnStmt,
      .rule .throwStmt, .rule .gotoStmt, .rule .endStmt, .rule .stopStmt, .rule .dimStmt]
  | .assignment => row [.token .name, assignSign, .rule .expr]
  | .dottedSet => row [.rule .operand, .token .dot, .token .name, assignSign, .rule .expr]
  | .indexedSet => row [.rule .operand, .token .leftBracket, .rule .expr, .token .rightBracket,
      assignSign, .rule .expr]
  | .increment => row [.rule .operand, .token .incOp]
  | .callStmt => row [.rule .operand, .rule .callArgs]
  | .printStmt => row [any [.token .kwPrint, .token .question],
      opt (row [.rule .expr, many (row [several (.rule .printSeparator), .rule .expr]),
        many (.rule .printSeparator)])]
  | .printSeparator => any [.token .semicolon, .token .comma]
  | .ifStmt => row [.token .kwIf, .rule .expr, opt (.token .kwThen), .rule .separator,
      .rule .block, opt (any [.rule .elseIfClause, .rule .elseClause]), .token .endIf]
  | .elseIfClause => row [.token .elseIf, .rule .expr, opt (.token .kwThen), .rule .separator,
      .rule .block, opt (any [.rule .elseIfClause, .rule .elseClause])]
  | .elseClause => row [.token .kwElse, .rule .block]
  | .inlineIf => row [.token .kwIf, .rule .expr, .token .kwThen, .rule .inlineStatement,
      opt (any [.rule .inlineElseIf, .rule .inlineElse])]
  | .inlineElseIf => row [.token .elseIf, .rule .expr, .token .kwThen, .rule .inlineStatement,
      opt (any [.rule .inlineElseIf, .rule .inlineElse])]
  | .inlineElse => row [.token .kwElse, .rule .inlineStatement]
  | .forStmt => row [.token .kwFor, .rule .assignment, .token .kwTo, .rule .expr,
      opt (row [.token .kwStep, .rule .expr]), .rule .separator, .rule .block, .token .endFor]
  | .forEachStmt => row [.token .forEach, .token .name, .token .kwIn, .rule .expr,
      .rule .separator, .rule .block, .token .endFor]
  | .whileStmt => row [.token .kwWhile, .rule .expr, .rule .separator, .rule .block,
      .token .endWhile]
  | .exitStmt => any [.token .exitFor, .token .exitWhile]
  | .returnStmt => row [.token .kwReturn, opt (.rule .expr)]
  | .throwStmt => row [.token .kwThrow, .rule .expr]
  | .tryStmt => row [.token .kwTry, .rule .separator, .rule .block, .rule .catchClause,
      .token .endTry]
  | .catchClause => row [.token .kwCatch, opt (.token .name), .rule .separator, .rule .block]
  | .labelStmt => .token .label
  | .gotoStmt => row [.token .kwGoto, .token .name]
  | .endStmt => .token .kwEnd
  | .stopStmt => .token .kwStop
  | .dimStmt => row [.token .kwDim, .token .name, .token .leftBracket, .rule .expr,
      many (row [.token .comma, .rule .expr]), .token .rightBracket]
  | .expr => .rule .conditional
  | .conditional => any [.rule .coalesce,
      row [.rule .coalesce, .token .question, .rule .expr, .token .colon, .rule .expr]]
  | .coalesce => leftGrouped .coalesce .orExpr [.coalesceOp]
  | .orExpr => leftGrouped .orExpr .andExpr [.kwOr]
  | .andExpr => leftGrouped .andExpr .notExpr [.kwAnd]
  | .notExpr => any [.rule .comparison, row [.token .kwNot, .rule .notExpr]]
  | .comparison => leftGrouped .comparison .shift [.equals, .compOp]
  | .shift => leftGrouped .shift .additive [.shiftOp]
  | .additive => leftGrouped .additive .multiplicative [.addOp]
  | .multiplicative => leftGrouped .multiplicative .exponent [.mulOp, .kwMod]
  | .exponent => leftGrouped .exponent .unary [.powOp]
  | .unary => any [.rule .operand, row [.token .addOp, .rule .unary]]
  | .operand => any [.rule .atom,
      row [.rule .operand, .token .dot, .token .name],
      row [.rule .operand, .token .optionalDot, .token .name],
      row [.rule .operand, .token .at, .token .name],
      row [.rule .operand, .token .leftBracket, .rule .expr, .token .rightBracket],
      row [.rule .operand, .rule .callArgs]]
  | .atom => any [.token .name, .token .string, .token .template, .token .number, .token .kwTrue,
      .token .kwFalse, .token .kwInvalid, row [.token .leftParen, .rule .expr, .token .rightParen],
      .rule .array, .rule .table, .rule .anonFunction, .rule .newExpr]
  | .newExpr => row [.token .kwNew, .token .name, many (row [.token .dot, .token .name]),
      .rule .callArgs]
  | .callArgs => row [.token .leftParen, many (.token .newline),
      opt (row [.rule .expr, many (row [.token .comma, many (.token .newline), .rule .expr]),
        many (.token .newline)]), .token .rightParen]
  | .array => bracketed .leftBracket .rightBracket (.rule .expr)
  | .table => bracketed .leftBrace .rightBrace (.rule .tableMember)
  | .tableMember => row [any [.token .name, .token .string], .token .colon, .rule .expr]
  | .listSeparator => any [row [.token .comma, many (.token .newline)], several (.token .newline)]
  | .templateExpr => row [many (.token .newline), .rule .expr]

/-! ## Words -/

/-- The words that a phrase stands for. -/
inductive Derives : Phrase → List Terminal → Prop
  | token (t : Terminal) : Derives (.token t) [t]
  | rule {r : Nonterminal} {w : List Terminal} : Derives (grammar r) w → Derives (.rule r) w
  | empty : Derives .empty []
  | seq {p q : Phrase} {u v : List Terminal} : Derives p u → Derives q v →
      Derives (.seq p q) (u ++ v)
  | left {p q : Phrase} {w : List Terminal} : Derives p w → Derives (.either p q) w
  | right {p q : Phrase} {w : List Terminal} : Derives q w → Derives (.either p q) w
  | stop {p : Phrase} : Derives (.many p) []
  | more {p : Phrase} {u v : List Terminal} : Derives p u → Derives (.many p) v →
      Derives (.many p) (u ++ v)

namespace Phrase

def words (p : Phrase) : Language Terminal :=
  {w | Derives p w}

theorem words_token (t : Terminal) : (token t).words = {[t]} := by
  refine Language.ext fun w => ⟨fun derives => ?_, fun same => ?_⟩
  · cases derives
    rfl
  · obtain rfl : w = [t] := same
    exact .token t

theorem words_rule (r : Nonterminal) : (rule r).words = (grammar r).words := by
  refine Language.ext fun w => ⟨fun derives => ?_, .rule⟩
  cases derives with
  | rule derives => exact derives

theorem words_empty : empty.words = 1 := by
  refine Language.ext fun w => ⟨fun derives => ?_, fun same => ?_⟩
  · cases derives
    rfl
  · obtain rfl : w = [] := same
    exact .empty

theorem words_seq (p q : Phrase) : (seq p q).words = p.words * q.words := by
  refine Language.ext fun w => ⟨fun derives => ?_, fun member => ?_⟩
  · cases derives with
    | seq first second => exact Language.append_mem_mul first second
  · obtain ⟨u, first, v, second, rfl⟩ := Language.mem_mul.1 member
    exact .seq first second

theorem words_either (p q : Phrase) : (either p q).words = p.words + q.words := by
  refine Language.ext fun w => ⟨fun derives => ?_, fun member => ?_⟩
  · cases derives with
    | left derives => exact .inl derives
    | right derives => exact .inr derives
  · exact member.elim .left .right

theorem words_many (p : Phrase) : (many p).words = KStar.kstar p.words := by
  refine Language.ext fun w => ⟨fun derives => ?_, fun member => ?_⟩
  · generalize same : many p = q at derives
    induction derives with
    | stop => exact Language.nil_mem_kstar _
    | more first _ _ ih =>
      cases same
      have le : p.words * KStar.kstar p.words ≤ KStar.kstar p.words := mul_kstar_le_kstar
      exact le (Language.append_mem_mul first (ih rfl))
    | _ => cases same
  · obtain ⟨ws, rfl, each⟩ := Language.mem_kstar.1 member
    clear member
    induction ws with
    | nil => exact .stop
    | cons u ws ih =>
      obtain ⟨first, others⟩ := forall_mem_cons.1 each
      exact .more first (ih others)

/-- A repetition with something behind it stops or goes on. -/
theorem kstar_mul_unfold (l k : Language Terminal) :
    KStar.kstar l * k = k + l * (KStar.kstar l * k) := by
  conv_lhs => rw [← one_add_mul_kstar, add_mul, one_mul, mul_assoc]

theorem words_many_seq (p q : Phrase) :
    (seq (many p) q).words = q.words + p.words * (seq (many p) q).words := by
  rw [words_seq, words_many, ← kstar_mul_unfold]

/-! ## What phrases begin with -/

end Phrase

/-- The rules that derive the empty word. -/
def Nonterminal.nullable : Nonterminal → Bool
  | .start | .block => true
  | _ => false

def atomFirst : List Terminal :=
  [.name, .string, .template, .number, .kwTrue, .kwFalse, .kwInvalid, .leftParen, .leftBracket,
    .leftBrace, .kwSub, .kwFunction, .kwNew]

def exprFirst : List Terminal :=
  .kwNot :: .addOp :: atomFirst

def separatorFirst : List Terminal :=
  [.newline, .colon]

def topItemFirst : List Terminal :=
  [.kwSub, .kwFunction, .kwClass, .kwNamespace, .kwConst, .kwEnum, .kwImport, .kwLibrary]

def inlineFirst : List Terminal :=
  [.kwPrint, .question, .exitFor, .exitWhile, .kwReturn, .kwThrow, .kwGoto, .kwEnd, .kwStop,
    .kwDim] ++ atomFirst

def statementFirst : List Terminal :=
  [.kwIf, .kwFor, .forEach, .kwWhile, .kwTry, .label] ++ inlineFirst

/-- The terminals that the words of a rule begin with. -/
def Nonterminal.first : Nonterminal → List Terminal
  | .start => separatorFirst ++ topItemFirst
  | .topItem => topItemFirst
  | .separator => separatorFirst
  | .functionDecl | .anonFunction => [.kwSub, .kwFunction]
  | .functionEnd => [.endSub, .endFunction]
  | .params | .callArgs => [.leftParen]
  | .param | .assignment | .enumMember | .dottedName => [.name]
  | .returnType => [.kwAs]
  | .typeRef => [.name, .kwFunction, .kwSub]
  | .classDecl => [.kwClass]
  | .classMember => [.modifier, .name, .kwSub, .kwFunction]
  | .methodDecl => [.modifier, .kwSub, .kwFunction]
  | .fieldDecl => [.modifier, .name]
  | .namespaceDecl => [.kwNamespace]
  | .constDecl => [.kwConst]
  | .enumDecl => [.kwEnum]
  | .importStmt => [.kwImport]
  | .libraryStmt => [.kwLibrary]
  | .block => separatorFirst ++ statementFirst
  | .statement => statementFirst
  | .inlineStatement => inlineFirst
  | .dottedSet | .indexedSet | .increment | .callStmt | .operand | .atom => atomFirst
  | .printStmt => [.kwPrint, .question]
  | .printSeparator => [.semicolon, .comma]
  | .ifStmt | .inlineIf => [.kwIf]
  | .elseIfClause | .inlineElseIf => [.elseIf]
  | .elseClause | .inlineElse => [.kwElse]
  | .forStmt => [.kwFor]
  | .forEachStmt => [.forEach]
  | .whileStmt => [.kwWhile]
  | .exitStmt => [.exitFor, .exitWhile]
  | .returnStmt => [.kwReturn]
  | .throwStmt => [.kwThrow]
  | .tryStmt => [.kwTry]
  | .catchClause => [.kwCatch]
  | .labelStmt => [.label]
  | .gotoStmt => [.kwGoto]
  | .endStmt => [.kwEnd]
  | .stopStmt => [.kwStop]
  | .dimStmt => [.kwDim]
  | .expr | .conditional | .coalesce | .orExpr | .andExpr | .notExpr => exprFirst
  | .comparison | .shift | .additive | .multiplicative | .exponent | .unary => .addOp :: atomFirst
  | .newExpr => [.kwNew]
  | .array => [.leftBracket]
  | .table => [.leftBrace]
  | .tableMember => [.name, .string]
  | .listSeparator => [.comma, .newline]
  | .templateExpr => .newline :: exprFirst

namespace Phrase

def nullable : Phrase → Bool
  | token _ => false
  | rule r => r.nullable
  | empty => true
  | seq p q => p.nullable && q.nullable
  | either p q => p.nullable || q.nullable
  | many _ => true

def first : Phrase → List Terminal
  | token t => [t]
  | rule r => r.first
  | empty => []
  | seq p q => p.first ++ if p.nullable then q.first else []
  | either p q => p.first ++ q.first
  | many p => p.first

theorem first_seq {p q : Phrase} (proper : p.nullable = false) : (seq p q).first = p.first := by
  rw [first, proper]
  exact append_nil _

end Phrase

/-- The tables agree with the grammar. -/
theorem Nonterminal.nullable_of_grammar (r : Nonterminal) :
    (grammar r).nullable = true → r.nullable = true := by
  cases r <;> decide

theorem Nonterminal.first_of_grammar (r : Nonterminal) : ∀ t ∈ (grammar r).first, t ∈ r.first := by
  cases r <;> decide

theorem Derives.nullable {p : Phrase} (derives : Derives p []) : p.nullable = true := by
  generalize none : [] = w at derives
  induction derives with
  | token t => cases none
  | @rule r w _ ih => exact r.nullable_of_grammar (ih none)
  | empty => rfl
  | seq _ _ first second =>
    obtain ⟨left, right⟩ := append_eq_nil_iff.1 none.symm
    rw [Phrase.nullable, first left.symm, second right.symm]
    rfl
  | left _ ih => rw [Phrase.nullable, ih none, Bool.true_or]
  | right _ ih => rw [Phrase.nullable, ih none, Bool.or_true]
  | stop => rfl
  | more => rfl

theorem Derives.first {p : Phrase} {t : Terminal} {w : List Terminal}
    (derives : Derives p (t :: w)) : t ∈ p.first := by
  generalize same : t :: w = v at derives
  induction derives generalizing w with
  | token t => exact mem_singleton.2 (List.cons.inj same).1
  | @rule r v _ ih => exact r.first_of_grammar t (ih same)
  | empty => cases same
  | @seq p q u v first second inFirst inSecond =>
    cases u with
    | nil =>
      rw [Phrase.first, first.nullable]
      exact mem_append_right _ (inSecond same)
    | cons s u =>
      obtain ⟨rfl, -⟩ := List.cons.inj same
      exact mem_append_left _ (inFirst rfl)
  | left _ ih => exact mem_append_left _ (ih same)
  | right _ ih => exact mem_append_right _ (ih same)
  | stop => cases same
  | @more p u v _ _ inFirst inRest =>
    cases u with
    | nil => exact inRest same
    | cons s u =>
      obtain ⟨rfl, -⟩ := List.cons.inj same
      exact inFirst rfl

/-! ## Every phrase has a word -/

/-- Some word of a phrase, if some words of rules are known. -/
def Phrase.sample (known : Nonterminal → Option (List Terminal)) : Phrase → Option (List Terminal)
  | token t => some [t]
  | rule r => known r
  | empty | many _ => some []
  | seq p q => (p.sample known).bind fun u => (q.sample known).map (u ++ ·)
  | either p q => (p.sample known).or (q.sample known)

/-- Some word of a rule, with at most `n` rules inside each other. -/
def Nonterminal.sampleUpTo : Nat → Nonterminal → Option (List Terminal)
  | 0, _ => none
  | n + 1, r => (grammar r).sample (sampleUpTo n)

theorem Phrase.derives_of_sample {known : Nonterminal → Option (List Terminal)}
    (sound : ∀ r w, known r = some w → Derives (.rule r) w) (p : Phrase) :
    ∀ w, p.sample known = some w → Derives p w := by
  induction p with
  | token t =>
    rintro w ⟨⟩
    exact .token t
  | rule r => exact sound r
  | empty =>
    rintro w ⟨⟩
    exact .empty
  | seq p q first second =>
    intro w found
    obtain ⟨u, foundFirst, found⟩ := Option.bind_eq_some_iff.1 found
    obtain ⟨v, foundSecond, rfl⟩ := Option.map_eq_some_iff.1 found
    exact .seq (first u foundFirst) (second v foundSecond)
  | either p q left right =>
    intro w found
    obtain found | ⟨-, found⟩ := Option.or_eq_some_iff.1 found
    · exact .left (left w found)
    · exact .right (right w found)
  | many p _ =>
    rintro w ⟨⟩
    exact .stop

theorem Nonterminal.derives_of_sampleUpTo (n : Nat) :
    ∀ r w, sampleUpTo n r = some w → Derives (.rule r) w := by
  induction n with
  | zero => exact fun _ _ => nofun
  | succ n ih => exact fun r w found => .rule ((grammar r).derives_of_sample ih w found)

theorem Nonterminal.isSome_sampleUpTo (r : Nonterminal) : (sampleUpTo 20 r).isSome = true := by
  cases r <;> rfl

theorem Phrase.exists_mem_words (p : Phrase) : ∃ w, w ∈ p.words := by
  induction p with
  | token t => exact ⟨_, .token t⟩
  | rule r =>
    obtain ⟨w, found⟩ := Option.isSome_iff_exists.1 r.isSome_sampleUpTo
    exact ⟨w, Nonterminal.derives_of_sampleUpTo 20 r w found⟩
  | empty => exact ⟨_, .empty⟩
  | seq p q first second =>
    obtain ⟨u, inFirst⟩ := first
    obtain ⟨v, inSecond⟩ := second
    exact ⟨_, .seq inFirst inSecond⟩
  | either p q left _ =>
    obtain ⟨w, inLeft⟩ := left
    exact ⟨w, .left inLeft⟩
  | many p _ => exact ⟨_, .stop⟩

end ChannelLint.Grammar
