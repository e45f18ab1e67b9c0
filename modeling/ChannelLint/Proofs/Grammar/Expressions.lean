import ChannelLint.Proofs.Grammar.Lists

/-!
# Expressions follow the grammar

The rules for operands and operators are exact if the rules that they may call again are exact for
one token fewer: every recursion is behind a token.

The grammar groups suffixes and binary operators from the left, by rules that begin with
themselves; the parser repeats. Arden's rule turns the one into the other.
-/
namespace ChannelLint

open List

variable {self tighter : Nonterminal} {t : Terminal}

open Grammar Phrase

namespace Grammar

variable {ts : List Terminal}

/-- What may follow an operand. -/
def suffix : Phrase :=
  .any [.row [.token .dot, .token .name], .row [.token .optionalDot, .token .name],
    .row [.token .at, .token .name], .row [.token .leftBracket, .rule .expr, .token .rightBracket],
    .rule .callArgs]

/-- The two values of a conditional expression. -/
def alternatives : Phrase :=
  .row [.token .question, .rule .expr, .token .colon, .rule .expr]

/-- An operator and its right operand. -/
def operatorTail (ts : List Terminal) (right : Phrase) : Phrase :=
  .row [.any (ts.map .token), right]

theorem first_any_tokens (some : ts ≠ []) :
    (Phrase.any (ts.map .token)).first = ts ∧ (Phrase.any (ts.map .token)).nullable = false := by
  induction ts with
  | nil => exact absurd rfl some
  | cons t ts ih =>
    cases ts with
    | nil => exact ⟨rfl, rfl⟩
    | cons s ts =>
      obtain ⟨first, proper⟩ := ih (cons_ne_nil s ts)
      exact ⟨congrArg (t :: ·) first, proper⟩

theorem first_operatorTail (some : ts ≠ []) (right : Phrase) :
    (operatorTail ts right).first = ts ∧ (operatorTail ts right).nullable = false := by
  obtain ⟨first, proper⟩ := first_any_tokens some
  constructor
  · rw [operatorTail, row, row, first_seq proper, first]
  · rw [operatorTail, row, row, Phrase.nullable, proper, Bool.false_and]

theorem nil_notMem_words {p : Phrase} (proper : p.nullable = false) : [] ∉ p.words := by
  intro member
  rw [Derives.nullable member] at proper
  cases proper

/-- A rule that begins with itself repeats at its end. -/
theorem eq_mul_kstar {l m k : Language Terminal} (same : l = l * m + k) (proper : [] ∉ m) :
    l = k * KStar.kstar m := by
  have reversed : l.reverse = m.reverse * l.reverse + k.reverse := by
    rw [← Language.reverse_mul, ← Language.reverse_add, ← same]
  have proper' : [] ∉ m.reverse := proper
  rw [Language.self_eq_mul_add_iff proper', ← Language.reverse_kstar, ← Language.reverse_mul]
    at reversed
  exact Language.reverse_injective reversed

theorem words_leftGrouped (some : ts ≠ [])
    (rule : grammar self = leftGrouped self tighter ts) : (Phrase.rule self).words =
      (seq (.rule tighter) (.many (operatorTail ts (.rule tighter)))).words := by
  rw [words_seq, words_many]
  refine eq_mul_kstar ?_ (nil_notMem_words (first_operatorTail some _).2)
  conv_lhs => rw [words_rule, rule]
  simp only [leftGrouped, operatorTail, Phrase.any, row, words_seq, words_either]
  exact add_comm _ _

theorem words_operand :
    (Phrase.rule .operand).words = (seq (.rule .atom) (.many suffix)).words := by
  rw [words_seq, words_many]
  refine eq_mul_kstar ?_ (nil_notMem_words rfl)
  conv_lhs => rw [words_rule, grammar]
  simp only [suffix, Phrase.any, row, words_seq, words_either, mul_add]
  abel

end Grammar

namespace Parser

variable {α β : Type} {embedded : Token → Option (List Expr)} {n : Nat} {p q : Phrase}
  {m m' : List Terminal} {c : Cursor} {rules : Rules}

/-! ## Operands -/

/-- The template in a token, of which the expressions were read or not. -/
def templateOf (k : Token) : Option (List Expr) → Parser Expr
  | some parts => return .template k.text parts k.range
  | none => do
    modify fun cursor => { cursor with badTemplate := true }
    return .template k.text [] k.range

/-- Takes a template, and leaves a mark if an expression in it cannot be read. -/
theorem template_exact (isNext : c.next? = some .template) :
    ExactAt rules.embedded (.token .template) [] (template rules) c := by
  obtain ⟨rest, reached, flag⟩ := c
  cases rest with
  | nil => cases isNext
  | cons k rest =>
    obtain isTemplate : .template = k.terminal := (Option.some.inj isNext).symm
    rw [isTemplate]
    have marked : unreadable rules.embedded k = (rules.embedded k).isNone := by
      rw [unreadable, ← isTemplate, beq_self_eq_true, Bool.true_and]
    have taken : (template rules).run ⟨k :: rest, reached, flag⟩ = .ok ((rules.embedded k).elim
        (.template k.text [] k.range, ⟨rest, k.range.stop, true⟩)
        fun parts => (.template k.text parts k.range, ⟨rest, k.range.stop, flag⟩)) := by
      show (templateOf k (rules.embedded k)).run ⟨rest, k.range.stop, flag⟩ = _
      cases rules.embedded k <;> rfl
    cases found : rules.embedded k with
    | none =>
      rw [found] at taken
      refine .one rfl taken ?_
      rw [marked, found, Option.isNone_none, Bool.or_true]
    | some parts =>
      rw [found] at taken
      refine .one rfl taken ?_
      rw [marked, found, Option.isNone_some, Bool.or_false]

section

variable (exact : rules.Exact n)

include exact

theorem suffix?_steps : ExactSteps rules.embedded n suffix [] (suffix? rules) := by
  intro c ready
  have field {t : Terminal} (isNext : c.next? = some t) (plain : t ≠ .template) (dotted : Bool) :
      ExactAt rules.embedded (.row [.token t, .token .name]) []
        (do let _ ← take; return some (Suffix.field dotted (ident (← expect .name)))) c :=
    (take_exact isNext plain).then ready rfl fun _ => (expect_exact .name nofun).map
  refine .look ?_
  split
  · next isNext =>
    exact .takes isNext (by decide)
      (.choose [.row [.token .dot, .token .name]] isNext rfl (field isNext (by decide) _))
      (.bind fun _ => .bind fun _ => .some)
  · next isNext =>
    exact .takes isNext (by decide)
      (.choose [.row [.token .optionalDot, .token .name]] isNext rfl (field isNext (by decide) _))
      (.bind fun _ => .bind fun _ => .some)
  · next isNext =>
    exact .takes isNext (by decide)
      (.choose [.row [.token .at, .token .name]] isNext rfl (field isNext (by decide) _))
      (.bind fun _ => .bind fun _ => .some)
  · next isNext =>
    refine .takes isNext (by decide)
      (.choose [.row [.token .leftBracket, .rule .expr, .token .rightBracket]] isNext rfl ?_)
      (.bind fun _ => .bind fun _ => .bind fun _ => .some)
    exact (take_exact isNext nofun).then ready rfl fun _ => exact.expr.bind rfl fun _ =>
      (expect_exact .rightBracket nofun).map
  · next isNext =>
    exact .takes isNext (by decide) (.choose [.rule .callArgs] isNext rfl
        ((arguments_exact exact c ready).finish fun _ _ => ⟨_, rfl⟩))
      (.bind fun _ => .bind fun _ => .some)
  · next =>
    refine .idle rfl ?_
    show ∀ t ∈ suffixFirst, _
    simp only [suffixFirst, forall_mem_cons, not_mem_nil, false_imp_iff, implies_true, and_true]
    constructorm* _ ∧ _ <;> assumption

theorem newObject_exact : Exact rules.embedded (n + 1) (.rule .newExpr) [] (newObject rules) :=
  .rule (.here fun _ => (expect_exact .kwNew nofun).step rfl rfl fun _ =>
    (expect_exact .name nofun).bind rfl fun _ => (namePart?_steps.collect rfl rfl).bind rfl fun _ =>
    (arguments_exact exact).mapSince)

theorem member_exact : Exact rules.embedded n (.rule .tableMember) exprMore (member rules) := by
  intro c ready
  have value (key : Token) : Exact rules.embedded n (.row [.token .colon, .rule .expr]) exprMore (do
      let _ ← expect .colon
      return (⟨unquote key.text, ← rules.expr⟩ : Member)) :=
    (expect_exact .colon nofun).bind rfl fun _ => exact.expr.map
  refine .rule (.look ?_)
  split
  · next isNext =>
    exact .then (.takeOne isNext nofun rfl) ready rfl value
  · next isNext =>
    exact .then (.takeOne isNext nofun rfl) ready rfl value
  · next noName noString =>
    exact .refuse rfl (forall_mem_cons.2 ⟨noName, forall_mem_singleton.2 noString⟩)

theorem anonymousFunction_exact (isNext : c.next? = some .kwSub ∨ c.next? = some .kwFunction)
    (ready : c.Ready (n + 1)) :
    ExactAt rules.embedded (.rule .anonFunction) [] (anonymousFunction rules) c :=
  .rule ((functionKeyword_exact isNext).step ready rfl rfl fun _ =>
    (functionTail_exact exact _ _ _ _).map)

theorem group_exact : Exact rules.embedded (n + 1)
    (.row [.token .leftParen, .rule .expr, .token .rightParen]) [] (group rules) :=
  .here fun _ => (expect_exact .leftParen nofun).step rfl rfl fun _ => exact.expr.bind rfl fun _ =>
    (expect_exact .rightParen nofun).mapSince

theorem array_exact : Exact rules.embedded (n + 1) (.rule .array) [] (array rules) :=
  .rule (.here fun _ => (expect_exact .leftBracket nofun).step rfl rfl fun _ =>
    (listUpTo_exact .array exact.expr).mapSince)

theorem table_exact : Exact rules.embedded (n + 1) (.rule .table) [] (table rules) :=
  .rule (.here fun _ => (expect_exact .leftBrace nofun).step rfl rfl fun _ =>
    (listUpTo_exact .table (member_exact exact)).mapSince)

theorem atom_exact : Exact rules.embedded (n + 1) (.rule .atom) [] (atom rules) := by
  intro c ready
  refine .rule (.look ?_)
  split
  · next isNext => exact .map (.takeOne isNext nofun rfl)
  · next isNext => exact .map (.takeOne isNext nofun rfl)
  · next isNext => exact .map (.takeOne isNext nofun rfl)
  · next isNext => exact .map (.takeOne isNext nofun rfl)
  · next isNext => exact .map (.takeOne isNext nofun rfl)
  · next isNext => exact .map (.takeOne isNext nofun rfl)
  · next isNext => exact .choose [.token .template] isNext rfl (template_exact isNext)
  · next isNext =>
    exact .choose [.row [.token .leftParen, .rule .expr, .token .rightParen]] isNext rfl
      (group_exact exact c ready)
  · next isNext => exact .choose [.rule .array] isNext rfl (array_exact exact c ready)
  · next isNext => exact .choose [.rule .table] isNext rfl (table_exact exact c ready)
  · next isNext =>
    exact .choose [.rule .anonFunction] isNext rfl
      (anonymousFunction_exact exact (.inl isNext) ready)
  · next isNext =>
    exact .choose [.rule .anonFunction] isNext rfl
      (anonymousFunction_exact exact (.inr isNext) ready)
  · next isNext => exact .choose [.rule .newExpr] isNext rfl (newObject_exact exact c ready)
  · next =>
    refine .refuse rfl ?_
    show ∀ t ∈ atomFirst, _
    simp only [atomFirst, forall_mem_cons, not_mem_nil, false_imp_iff, implies_true, and_true]
    constructorm* _ ∧ _ <;> assumption

theorem chain_exact : Exact rules.embedded (n + 1) (.rule .operand) suffixFirst (chain rules) :=
  .congr ((atom_exact exact).step rfl rfl fun _ =>
    ((suffix?_steps exact).collect rfl rfl).map) words_operand.symm

end

/-! ## Operators -/

theorem mem_binaryTerminals {k : Token} {op : BinaryOp} (found : binaryOp? k = some op) :
    k.terminal ∈ binaryTerminals := by
  rw [binaryOp?] at found
  split at found
  all_goals first | (next isOp => rw [isOp]; decide) | cases found

/-- A token that stands for an operator is of the operator's kind. -/
theorem terminal_of_binaryOp? {k : Token} {op : BinaryOp} (spelled : k.Spelled)
    (found : binaryOp? k = some op) : op.terminal = k.terminal := by
  obtain ⟨op', found', same⟩ := spelled (mem_binaryTerminals found)
  rwa [Option.some.inj (found.symm.trans found')]

theorem take_any_exact {ts : List Terminal} (isNext : c.next? = some t)
    (listed : t ∈ ts) (plain : t ≠ .template) :
    ExactAt embedded (.any (ts.map .token)) [] take c := by
  have inside : ∀ q ∈ [Phrase.token t], q ∈ ts.map .token :=
    forall_mem_singleton.2 (mem_map_of_mem listed)
  refine .restrict inside (cons_ne_nil _ _) (first_any_tokens (ne_nil_of_mem listed)).2 ?_
    (take_exact isNext plain)
  intro p member
  obtain ⟨s, -, rfl⟩ := mem_map.1 member
  by_cases same : s = t
  · exact .inl (same ▸ mem_cons_self)
  · refine .inr (forall_mem_singleton.2 fun isNext' => same ?_)
    exact Option.some.inj (isNext'.symm.trans isNext)

/-- The operators of one level are those of certain kinds. -/
structure Level (ops : List BinaryOp) (ts : List Terminal) : Prop where
  listed : ∀ op, op ∈ ops ↔ op.terminal ∈ ts
  binary : ∀ t ∈ ts, t ∈ binaryTerminals
  some : ts ≠ []

instance (ops : List BinaryOp) (ts : List Terminal) : Decidable (Level ops ts) :=
  decidable_of_iff ((∀ op ∈ BinaryOp.all, op ∈ ops ↔ op.terminal ∈ ts) ∧
      (∀ t ∈ ts, t ∈ binaryTerminals) ∧ ts ≠ [])
    ⟨fun ⟨listed, binary, proper⟩ => ⟨fun op => listed op op.mem_all, binary, proper⟩,
      fun level => ⟨fun op _ => level.listed op, level.binary, level.some⟩⟩

section

variable {ops : List BinaryOp} {ts : List Terminal} {operand : Parser Expr}

/-- The operator that was seen, with its operand, if it is one of `ops`. -/
def tailOf (ops : List BinaryOp) (operand : Parser Expr) :
    Option BinaryOp → Parser (Option (BinaryOp × Expr))
  | some op => if op ∈ ops then take >>= fun _ => operand >>= fun e => pure (some (op, e)) else pure none
  | none => pure none

theorem operatorTail?_steps (level : Level ops ts) (exact : Exact embedded n q m operand) :
    ExactSteps embedded n (operatorTail ts q) m (operatorTail? ops operand) := by
  intro c ready
  have first := (first_operatorTail level.some q).1
  have run : (operatorTail? ops operand).run c =
      (tailOf ops operand (c.rest.head?.bind binaryOp?)).run c := rfl
  refine ExactStepAt.of_run ?_ run
  cases found : c.rest.head?.bind binaryOp? with
  | none =>
    refine .idle rfl fun t starts isNext => ?_
    obtain ⟨k, isHead, rfl⟩ := Option.map_eq_some_iff.1 isNext
    obtain ⟨op, isOp, -⟩ := ready.spelled k (mem_of_mem_head? isHead)
      (level.binary _ (first ▸ starts))
    rw [isHead, Option.bind_some, isOp] at found
    cases found
  | some op =>
    obtain ⟨k, isHead, isOp⟩ := Option.bind_eq_some_iff.1 found
    have same := terminal_of_binaryOp? (ready.spelled k (mem_of_mem_head? isHead)) isOp
    have isNext : c.next? = some op.terminal := by
      rw [same, Cursor.next?, isHead, Option.map_some]
    by_cases inside : op ∈ ops
    · have listed := (level.listed op).1 inside
      have plain : op.terminal ≠ .template := by
        cases op <;> decide
      simp only [tailOf, if_pos inside]
      exact .takes isNext (first.symm ▸ listed)
        ((take_any_exact isNext listed plain).then ready rfl fun _ => exact.map)
        (.bind fun _ => .bind fun _ => .some)
    · simp only [tailOf, if_neg inside]
      refine .idle rfl fun t starts isNext' => inside ((level.listed op).2 ?_)
      rw [Option.some.inj (isNext.symm.trans isNext'), ← first]
      exact starts

theorem leftChain_exact (self : Nonterminal) (ts : List Terminal)
    (level : Level ops ts) (rule : grammar self = leftGrouped self tighter ts)
    (joined : joins m (.many (operatorTail ts (.rule tighter))) (ts ++ m) = true)
    (exact : Exact embedded n (.rule tighter) m operand) :
    Exact embedded n (.rule self) (ts ++ m) (leftChain ops operand) := by
  obtain ⟨first, proper⟩ := first_operatorTail level.some (.rule tighter)
  have tails := (operatorTail?_steps level exact).collect proper (first.symm ▸ joined)
  rw [first] at tails
  exact .congr (exact.bind joined fun _ => tails.map) (words_leftGrouped level.some rule).symm

/-- A rule that repeats a sign in front of an operand. -/
theorem words_signed (rule : grammar self = .any [.rule tighter, .row [.token t, .rule self]]) :
    (Phrase.rule self).words = (seq (.many (.token t)) (.rule tighter)).words := by
  rw [words_seq, words_many, ← Language.self_eq_mul_add_iff (nil_notMem_words rfl)]
  conv_lhs => rw [words_rule, rule]
  simp only [Phrase.any, row, words_seq, words_either]
  exact add_comm _ _

theorem prefixed_exact (rule : grammar self = .any [.rule tighter, .row [.token t, .rule self]])
    (joined : joins [t] (.rule tighter) m = true) (plain : t ≠ .template)
    (exact : Exact embedded n (.rule tighter) m operand) :
    Exact embedded n (.rule self) m (prefixed t operand) :=
  .congr (((accept?_steps t plain).collect rfl rfl).bind joined fun _ => exact.map)
    (words_signed rule).symm

end

section

variable (exact : rules.Exact n)

include exact

theorem comparison_exact : Exact rules.embedded (n + 1) (.rule .comparison)
    ([.equals, .compOp, .shiftOp, .addOp, .mulOp, .kwMod, .powOp] ++ suffixFirst)
    (comparison rules) := by
  have unary : Exact rules.embedded (n + 1) (.rule .unary) suffixFirst
      (prefixed .addOp (chain rules)) := prefixed_exact rfl rfl nofun (chain_exact exact)
  exact leftChain_exact .comparison [.equals, .compOp] (by decide) rfl (by rfl) <|
    leftChain_exact .shift [.shiftOp] (by decide) rfl (by rfl) <|
    leftChain_exact .additive [.addOp] (by decide) rfl (by rfl) <|
    leftChain_exact .multiplicative [.mulOp, .kwMod] (by decide) rfl (by rfl) <|
    leftChain_exact .exponent [.powOp] (by decide) rfl (by rfl) unary

theorem conditional_exact :
    Exact rules.embedded (n + 1) (.rule .expr) exprMore (conditional rules) := by
  have signed : Exact rules.embedded (n + 1) (.rule .notExpr) _
      (prefixed .kwNot (comparison rules)) := prefixed_exact rfl rfl (by decide) (comparison_exact exact)
  have loose : Exact rules.embedded (n + 1) (.rule .coalesce) (binaryTerminals ++ suffixFirst)
      (levels (prefixed .kwNot (comparison rules)) looseLevels) :=
    leftChain_exact .coalesce [.coalesceOp] (by decide) rfl (by rfl) <|
    leftChain_exact .orExpr [.kwOr] (by decide) rfl (by rfl) <|
    leftChain_exact .andExpr [.kwAnd] (by decide) rfl (by rfl) signed
  have split : (seq (.rule .coalesce) (.opt alternatives)).words =
      (Phrase.rule .expr).words := by
    rw [words_rule, grammar, words_rule, grammar]
    simp only [Phrase.any, row, words_seq, words_either, words_opt, alternatives, mul_add, mul_one]
    exact add_comm _ _
  refine .congr (loose.step rfl rfl fun _ => (accept?_steps .question (by decide)).opt_bind rfl
    (by decide) rfl (fun _ => ⟨_, rfl⟩) fun _ => ?_) split
  exact exact.expr.bind rfl fun _ => (expect_exact .colon (by decide)).bind rfl fun _ => exact.expr.map

/-! ## Expressions that may be missing -/

omit exact in
theorem startsExpr_iff (t : Terminal) : startsExpr t = true ↔ t ∈ exprFirst := by
  cases t <;> decide

theorem expr?_steps : ExactSteps rules.embedded n (.rule .expr) exprMore (expr? rules) := by
  intro c ready
  refine .look ?_
  split
  · next t isNext =>
    split
    · next starts =>
      exact .takes isNext ((startsExpr_iff t).1 starts) (exact.expr c ready).map
        (.bind fun _ => .some)
    · next other =>
      refine .idle rfl fun t' starts isNext' => other ((startsExpr_iff t).2 ?_)
      exact Option.some.inj (isNext.symm.trans isNext') ▸ starts
  · next isNext =>
    refine .idle rfl fun t starts isNext' => ?_
    rw [isNext'] at isNext
    cases isNext

end

end Parser

end ChannelLint
