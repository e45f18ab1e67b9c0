import ChannelLint.Proofs.Grammar.Operands

/-!
# Statements and blocks follow the grammar

The branches of an `if` nest in the grammar and are repeated by the parser; an `if` on one line and
one with blocks begin alike. Blocks close the circle: with enough fuel for the tokens that are left,
the rules are exact.
-/
namespace ChannelLint

open List Grammar Phrase

namespace Grammar

/-- What may belong to a statement on the line of an `if` behind a complete one. -/
def inlineMore : List Terminal :=
  [.semicolon, .comma] ++ exprFirst ++ operandMore

/-- What may belong to a statement behind a complete one. -/
def statementMore : List Terminal :=
  [.elseIf, .kwElse] ++ inlineMore

/-- Values of a list that is printed, each behind a separator, which may also end the list. -/
def printTail : Phrase :=
  .many (.row [.rule .printSeparator, .opt (.rule .expr)])

theorem kstar_separated {s e : Language Terminal} (proper : [] ∉ s * e + s) :
    KStar.kstar (s * KStar.kstar s * e) * KStar.kstar s = KStar.kstar (s * e + s) := by
  generalize same : KStar.kstar (s * KStar.kstar s * e) * KStar.kstar s = l
  have outer : l = KStar.kstar s + s * (KStar.kstar s * (e * l)) := by
    rw [← same]
    conv_lhs => rw [kstar_mul_unfold]
    simp only [mul_assoc]
  have inner : l = (s * e + s) * l + 1 := calc
    l = KStar.kstar s + s * (KStar.kstar s * (e * l)) := outer
    _ = 1 + s * KStar.kstar s + s * ((1 + s * KStar.kstar s) * (e * l)) := by
      rw [one_add_mul_kstar]
    _ = s * (e * l) + s * (KStar.kstar s + s * (KStar.kstar s * (e * l))) + 1 := by
      simp only [add_mul, mul_add, one_mul, mul_assoc]
      abel
    _ = (s * e + s) * l + 1 := by rw [← outer, add_mul, mul_assoc]
  rw [(Language.self_eq_mul_add_iff proper).1 inner, mul_one]

theorem words_printTail : printTail.words =
    (row [.many (.row [.several (.rule .printSeparator), .rule .expr]),
      .many (.rule .printSeparator)]).words := by
  have proper := nil_notMem_words (p := .row [.rule .printSeparator, .opt (.rule .expr)]) rfl
  simp only [printTail, row, several, words_seq, words_many,
    Parser.words_opt, mul_add, mul_one] at proper ⊢
  exact (kstar_separated proper).symm

/-- The condition of an `if` and its block. -/
def blockClause : Phrase :=
  .row [.rule .expr, .opt (.token .kwThen), .rule .separator, .rule .block]

/-- The condition of an `if` and the statement on its line. -/
def lineClause : Phrase :=
  .row [.rule .expr, .token .kwThen, .rule .inlineStatement]

/-- Further branches of an `if`. -/
def branches (clause body : Phrase) : Phrase :=
  .row [.many (.row [.token .elseIf, clause]), .opt (.row [.token .kwElse, body])]

theorem words_branches {self last : Nonterminal} {clause body : Phrase}
    (again : (Phrase.rule self).words =
      (row [.token .elseIf, clause, .opt (.any [.rule self, .rule last])]).words)
    (final : grammar last = .row [.token .kwElse, body]) :
    (opt (.any [.rule self, .rule last])).words = (branches clause body).words := by
  have proper := nil_notMem_words (p := .row [.token .elseIf, clause]) rfl
  have unrolled : (opt (.any [.rule self, .rule last])).words =
      (row [.token .elseIf, clause]).words *
        (opt (.any [.rule self, .rule last])).words +
          (opt (.row [.token .kwElse, body])).words := by
    conv_lhs => rw [Parser.words_opt, Phrase.any, Phrase.any, words_either, again,
      words_rule last, final]
    simp only [row, words_seq, Parser.words_opt, mul_assoc, add_assoc]
  rw [branches, row, row, words_seq, words_many]
  exact (Language.self_eq_mul_add_iff proper).1 unrolled

theorem words_blockBranches : (opt (.any [.rule .elseIfClause, .rule .elseClause])).words =
    (branches blockClause (.rule .block)).words := by
  refine words_branches ?_ rfl
  rw [words_rule, grammar]
  simp only [blockClause, row, words_seq, mul_assoc]

theorem words_lineBranches : (opt (.any [.rule .inlineElseIf, .rule .inlineElse])).words =
    (branches lineClause (.rule .inlineStatement)).words := by
  refine words_branches ?_ rfl
  rw [words_rule, grammar]
  simp only [lineClause, row, words_seq, mul_assoc]

/-- An `if` with blocks, behind its first separator. -/
def blockIfTail : Phrase :=
  .row [.rule .block, .many (.row [.token .elseIf, blockClause]),
    .opt (.row [.token .kwElse, .rule .block]), .token .endIf]

/-- An `if` on one line, behind `then`. -/
def lineIfTail : Phrase :=
  .row [.rule .inlineStatement, branches lineClause (.rule .inlineStatement)]

/-- The two forms of an `if` begin alike. -/
theorem words_if : (Phrase.any [.rule .ifStmt, .rule .inlineIf]).words =
    (row [.token .kwIf, .rule .expr, .any [.row [.token .kwThen,
      .any [.row [.rule .separator, blockIfTail], lineIfTail]],
      .row [.rule .separator, blockIfTail]]]).words := by
  have block : blockIfTail.words = (row [.rule .block,
      .opt (.any [.rule .elseIfClause, .rule .elseClause]), .token .endIf]).words := by
    rw [row, row, words_seq, words_seq, words_blockBranches]
    simp only [blockIfTail, branches, row, words_seq, mul_assoc]
  have line : lineIfTail.words = (row [.rule .inlineStatement,
      .opt (.any [.rule .inlineElseIf, .rule .inlineElse])]).words := by
    rw [row, row, words_seq, words_lineBranches]
    simp only [lineIfTail, row, words_seq]
  simp only [Phrase.any, row, words_seq, words_either, block, line,
    words_rule .ifStmt, words_rule .inlineIf, grammar, Parser.words_opt, mul_add,
    add_mul, one_mul]
  abel

/-- A line of a phrase, or a separator alone. -/
def line (p : Phrase) : Phrase :=
  .either (.row [p, .rule .separator]) (.rule .separator)

theorem first_line {p : Phrase} (proper : p.nullable = false) :
    (line p).first = p.first ++ separatorFirst :=
  congrArg (· ++ separatorFirst) (first_seq proper)

theorem nullable_line {p : Phrase} (proper : p.nullable = false) : (line p).nullable = false :=
  congrArg (· && _ || _) proper

end Grammar

namespace Parser

variable {α β : Type} {embedded : Token → Option (List Expr)} {n : Nat} {p q : Phrase}
  {m m' : List Terminal} {c : Cursor} {rules : Rules}

section

variable (exact : rules.Exact n)

include exact

/-! ## Simple statements -/

theorem assignment_exact : Exact rules.embedded n (.rule .assignment) exprMore (assignment rules) :=
  .rule ((expect_exact .name nofun).bind rfl fun _ _ ready =>
    assignOp?_exact (assignTail_exact exact _) ready)

theorem printItem?_steps : ExactSteps rules.embedded n
    (.row [.rule .printSeparator, .opt (.rule .expr)]) (exprFirst ++ exprMore)
    (printItem? rules) := by
  intro c ready
  have value : Exact rules.embedded n (.opt (.rule .expr)) (exprFirst ++ exprMore) (do
      return some (← expr? rules)) := (expr?_steps exact).opt.map
  refine .look ?_
  split
  · next isNext =>
    exact .takes isNext (by decide)
      (.then (.rule (.takeOne isNext nofun rfl)) ready rfl fun _ => value)
      (.bind fun _ => .bind fun _ => .some)
  · next isNext =>
    exact .takes isNext (by decide)
      (.then (.rule (.takeOne isNext nofun rfl)) ready rfl fun _ => value)
      (.bind fun _ => .bind fun _ => .some)
  · next noSemicolon noComma =>
    exact .idle rfl (forall_mem_cons.2 ⟨noSemicolon, forall_mem_singleton.2 noComma⟩)

theorem printStatement_exact (isNext : c.next? = some .kwPrint ∨ c.next? = some .question)
    (ready : c.Ready (n + 1)) :
    ExactAt rules.embedded (.rule .printStmt) inlineMore (printStatement rules) c := by
  have keyword : ExactAt rules.embedded (.any [.token .kwPrint, .token .question]) [] take c := by
    obtain isNext | isNext := isNext
    · exact .takeOne isNext nofun rfl
    · exact .takeOne isNext nofun rfl
  have list : (opt (.seq (.rule .expr) printTail)).words = (opt (.row [.rule .expr,
      .many (.row [.several (.rule .printSeparator), .rule .expr]),
      .many (.rule .printSeparator)])).words := by
    simp only [words_opt, row, words_seq, words_printTail]
  refine .rule (.here fun _ => keyword.step ready rfl rfl fun _ => .congr ?_ list)
  exact (expr?_steps exact).opt_bind rfl (by decide) rfl (fun _ => ⟨_, rfl⟩) fun _ =>
    (((printItem?_steps exact).collect rfl rfl).mono (by decide)).mapSince

theorem dimStatement_exact (isNext : c.next? = some .kwDim) (ready : c.Ready (n + 1)) :
    ExactAt rules.embedded (.rule .dimStmt) [] (dimStatement rules) c := by
  refine .rule (.here fun _ => (take_exact isNext nofun).step ready rfl rfl fun _ =>
    (expect_exact .name nofun).bind rfl fun _ => (expect_exact .leftBracket nofun).bind rfl fun _ =>
      .congr ((commaList_exact exact.expr rfl).bind rfl fun _ =>
        (expect_exact .rightBracket nofun).mapSince) ?_)
  simp only [row, words_seq, mul_assoc]

theorem simpleStatement_exact : Exact rules.embedded (n + 1) (.rule .inlineStatement) inlineMore
    (simpleStatement rules) := by
  intro c ready
  refine .rule (.here fun _ => .look ?_)
  split
  · next isNext =>
    exact .choose [.rule .printStmt] isNext rfl (printStatement_exact exact (.inl isNext) ready)
  · next isNext =>
    exact .choose [.rule .printStmt] isNext rfl (printStatement_exact exact (.inr isNext) ready)
  · next isNext =>
    exact .choose [.rule .exitStmt] isNext rfl
      (.rule (.mapSince (.mono (.takeOne isNext nofun rfl) nofun)))
  · next isNext =>
    exact .choose [.rule .exitStmt] isNext rfl
      (.rule (.mapSince (.mono (.takeOne isNext nofun rfl) nofun)))
  · next isNext =>
    refine .choose [.rule .returnStmt] isNext rfl
      (.rule ((take_exact isNext nofun).step ready rfl rfl fun _ => ?_))
    exact ((expr?_steps exact).opt.mono (by decide)).mapSince
  · next isNext =>
    refine .choose [.rule .throwStmt] isNext rfl
      (.rule ((take_exact isNext nofun).step ready rfl rfl fun _ => ?_))
    exact (exact.expr.mono (by decide)).mapSince
  · next isNext =>
    refine .choose [.rule .gotoStmt] isNext rfl
      (.rule ((take_exact isNext nofun).step ready rfl rfl fun _ => ?_))
    exact ((expect_exact .name nofun).mono nofun).mapSince
  · next isNext =>
    exact .choose [.rule .endStmt] isNext rfl
      (.rule ((take_exact isNext nofun).mono nofun).mapSince)
  · next isNext =>
    exact .choose [.rule .stopStmt] isNext rfl
      (.rule ((take_exact isNext nofun).mono nofun).mapSince)
  · next isNext =>
    exact .choose [.rule .dimStmt] isNext rfl ((dimStatement_exact exact isNext ready).mono nofun)
  · next =>
    refine .otherwise operandStatements [.kwPrint, .question, .exitFor, .exitWhile, .kwReturn,
      .kwThrow, .kwGoto, .kwEnd, .kwStop, .kwDim] rfl ?_
      ((operandStatement_exact exact c ready).mono (by decide))
    simp only [forall_mem_cons, not_mem_nil, false_imp_iff, implies_true, and_true]
    constructorm* _ ∧ _ <;> assumption

/-! ## Branches -/

omit exact in
theorem elseIfClause?_steps {clause : Position → Parser Clause}
    (exact : ∀ start, Exact embedded n q m (clause start)) :
    ExactSteps embedded n (.row [.token .elseIf, q]) m (elseIfClause? clause) :=
  clause_steps nofun fun _ => exact _

omit exact in
theorem elseClause?_exact {body : Parser Block} (exact : Exact embedded n q m body) :
    Exact embedded n (.opt (.row [.token .kwElse, q])) (.elseIf :: .kwElse :: m)
      (elseClause? body) :=
  (accept?_steps .kwElse nofun).opt_bind rfl (forall_mem_singleton.2 (by simp)) rfl
    (fun _ => ⟨_, rfl⟩)
    fun _ => (exact.mono fun _ => mem_cons_of_mem _ ∘ mem_cons_of_mem _).map

theorem blockClause_exact (start : Position) : Exact rules.embedded n Grammar.blockClause blockMore
    (blockClause rules start) :=
  exact.expr.bind rfl fun _ => (accept?_steps .kwThen nofun).opt.bind rfl fun _ =>
    separator_exact.bind rfl fun _ => exact.block.map

theorem blockIfTail_exact (start : Position) (condition : Expr) :
    Exact rules.embedded n Grammar.blockIfTail [] (blockIfTail rules start condition) :=
  exact.block.bind rfl fun _ =>
    ((elseIfClause?_steps (blockClause_exact exact)).collect rfl rfl).bind rfl fun _ =>
    (elseClause?_exact exact.block).bind rfl fun _ => .cursor fun _ =>
    (expect_exact .endIf nofun).mapSince

theorem lineBlock_exact : Exact rules.embedded n (.rule .inlineStatement) inlineMore
    (lineBlock rules) :=
  ((simpleStatement_exact exact).of_le n.le_succ).map

theorem lineClause_exact (start : Position) : Exact rules.embedded n Grammar.lineClause inlineMore
    (lineClause rules start) :=
  exact.expr.bind rfl fun _ => (expect_exact .kwThen nofun).bind rfl fun _ =>
    (lineBlock_exact exact).map

theorem lineIfTail_exact (start : Position) (condition : Expr) :
    Exact rules.embedded n Grammar.lineIfTail statementMore (lineIfTail rules start condition) :=
  (lineBlock_exact exact).bind rfl fun _ =>
    ((elseIfClause?_steps (lineClause_exact exact)).collect rfl rfl).bind rfl fun _ =>
      (elseClause?_exact (lineBlock_exact exact)).mapSince

omit exact in
theorem startsSeparator_iff {next : Option Terminal} :
    startsSeparator next = true ↔ ∃ t ∈ separatorFirst, next = some t := by
  cases next with
  | none => simp [startsSeparator]
  | some t => cases t <;> simp [startsSeparator, separatorFirst]

theorem ifStatement_exact (isNext : c.next? = some .kwIf) (ready : c.Ready (n + 1)) :
    ExactAt rules.embedded (.any [.rule .ifStmt, .rule .inlineIf]) statementMore
      (ifStatement rules) c := by
  refine .congr (.here fun start => (take_exact isNext nofun).step ready rfl rfl fun _ =>
    exact.expr.bind rfl fun condition c ready => ?_) words_if.symm
  have blocks : Exact rules.embedded n (.row [.rule .separator, Grammar.blockIfTail]) statementMore
      (separator >>= fun _ => blockIfTail rules start condition) :=
    separator_exact.bind rfl fun _ => (blockIfTail_exact exact start condition).mono nofun
  refine .accept? (fun isThen => ?_) fun noThen => ?_
  · refine .choose [.row [.token .kwThen, .any [.row [.rule .separator, Grammar.blockIfTail],
      Grammar.lineIfTail]]] isThen rfl
      ((take_exact isThen nofun).then ready rfl fun _ c ready => .look ?_)
    split
    · next separates =>
      obtain ⟨t, starts, isNext⟩ := startsSeparator_iff.1 separates
      have apart : ∀ t ∈ separatorFirst, t ∉ Grammar.lineIfTail.first := by decide
      refine .otherwise [.row [.rule .separator, Grammar.blockIfTail]] Grammar.lineIfTail.first rfl
        (fun s other isNext' => ?_) (blocks c ready)
      exact apart t starts (Option.some.inj (isNext.symm.trans isNext') ▸ other)
    · next other =>
      refine .otherwise [Grammar.lineIfTail] separatorFirst rfl (fun t starts isNext => ?_)
        (lineIfTail_exact exact start condition c ready)
      exact other (startsSeparator_iff.2 ⟨t, starts, isNext⟩)
  · exact .otherwise [.row [.rule .separator, Grammar.blockIfTail]] [.kwThen] rfl
      (forall_mem_singleton.2 noThen) (blocks c ready)

/-! ## Loops and handlers -/

theorem stepClause?_steps : ExactSteps rules.embedded n (.row [.token .kwStep, .rule .expr])
    exprMore (stepClause? rules) :=
  clause_steps nofun fun _ => exact.expr

theorem forStatement_exact (isNext : c.next? = some .kwFor) (ready : c.Ready (n + 1)) :
    ExactAt rules.embedded (.rule .forStmt) [] (forStatement rules) c :=
  .rule (.here fun _ => (take_exact isNext nofun).step ready rfl rfl fun _ =>
    (assignment_exact exact).bind rfl fun _ => (expect_exact .kwTo nofun).bind rfl fun _ =>
    exact.expr.bind rfl fun _ => (stepClause?_steps exact).opt.bind rfl fun _ =>
    separator_exact.bind rfl fun _ => exact.block.bind rfl fun _ =>
    (expect_exact .endFor nofun).mapSince)

theorem forEachStatement_exact (isNext : c.next? = some .forEach) (ready : c.Ready (n + 1)) :
    ExactAt rules.embedded (.rule .forEachStmt) [] (forEachStatement rules) c :=
  .rule (.here fun _ => (take_exact isNext nofun).step ready rfl rfl fun _ =>
    (expect_exact .name nofun).bind rfl fun _ => (expect_exact .kwIn nofun).bind rfl fun _ =>
    exact.expr.bind rfl fun _ => separator_exact.bind rfl fun _ =>
    exact.block.bind rfl fun _ => (expect_exact .endFor nofun).mapSince)

theorem whileStatement_exact (isNext : c.next? = some .kwWhile) (ready : c.Ready (n + 1)) :
    ExactAt rules.embedded (.rule .whileStmt) [] (whileStatement rules) c :=
  .rule (.here fun _ => (take_exact isNext nofun).step ready rfl rfl fun _ =>
    exact.expr.bind rfl fun _ => separator_exact.bind rfl fun _ =>
    exact.block.bind rfl fun _ => (expect_exact .endWhile nofun).mapSince)

theorem catchClause_exact :
    Exact rules.embedded n (.rule .catchClause) blockMore (catchClause rules) :=
  .rule ((expect_exact .kwCatch nofun).bind rfl fun _ =>
    (accept?_steps .name nofun).opt.bind rfl fun _ => separator_exact.bind rfl fun _ =>
    exact.block.mapSince)

theorem tryStatement_exact (isNext : c.next? = some .kwTry) (ready : c.Ready (n + 1)) :
    ExactAt rules.embedded (.rule .tryStmt) [] (tryStatement rules) c :=
  .rule (.here fun _ => (take_exact isNext nofun).step ready rfl rfl fun _ =>
    separator_exact.bind rfl fun _ => exact.block.bind rfl fun _ =>
    (catchClause_exact exact).bind rfl fun _ => (expect_exact .endTry nofun).mapSince)

theorem statement_exact : Exact rules.embedded (n + 1) (.rule .statement) statementMore
    (statement rules) := by
  intro c ready
  refine .rule (.look ?_)
  split
  · next isNext =>
    exact .choose [.rule .ifStmt, .rule .inlineIf] isNext rfl (ifStatement_exact exact isNext ready)
  · next isNext =>
    exact .choose [.rule .forStmt] isNext rfl ((forStatement_exact exact isNext ready).mono nofun)
  · next isNext =>
    exact .choose [.rule .forEachStmt] isNext rfl
      ((forEachStatement_exact exact isNext ready).mono nofun)
  · next isNext =>
    exact .choose [.rule .whileStmt] isNext rfl
      ((whileStatement_exact exact isNext ready).mono nofun)
  · next isNext =>
    exact .choose [.rule .tryStmt] isNext rfl ((tryStatement_exact exact isNext ready).mono nofun)
  · next isNext =>
    exact .choose [.rule .labelStmt] isNext rfl (.rule ((take_exact isNext nofun).mono nofun).map)
  · next =>
    have simple := (simpleStatement_exact exact c ready).congr (words_rule .inlineStatement)
    refine .otherwise [.rule .assignment, .rule .dottedSet, .rule .indexedSet,
      .rule .increment, .rule .callStmt, .rule .printStmt, .rule .exitStmt, .rule .returnStmt,
      .rule .throwStmt, .rule .gotoStmt, .rule .endStmt, .rule .stopStmt, .rule .dimStmt]
      [.kwIf, .kwFor, .forEach, .kwWhile, .kwTry, .label] rfl ?_ (simple.mono (by decide))
    simp only [forall_mem_cons, not_mem_nil, false_imp_iff, implies_true, and_true]
    constructorm* _ ∧ _ <;> assumption

end

/-! ## Blocks -/

section

variable {starts : Terminal → Bool} {item : Parser α} (exact : Exact embedded n p m item)
  (begins : ∀ t, starts t = true ↔ t ∈ p.first) (proper : p.nullable = false)
  (apart : ∀ t ∈ separatorFirst, t ∉ p.first) (joined : joins m (.rule .separator) [] = true)

include exact begins proper apart joined

theorem lineOf?_steps : ExactSteps embedded n (line p) [] (lineOf? starts item) := by
  intro c ready
  have first := first_line proper
  refine .look ?_
  split
  · next t isNext =>
    have only {ts : List Terminal} (other : t ∉ ts) : ∀ s ∈ ts, c.next? ≠ some s :=
      fun s listed isNext' => other (Option.some.inj (isNext.symm.trans isNext') ▸ listed)
    split
    · next separates =>
      obtain ⟨_, inside, ⟨⟩⟩ := startsSeparator_iff.1 separates
      have noItem := only (apart t inside)
      rw [← first_seq proper] at noItem
      exact .takes isNext (mem_append_right _ inside)
        ((separator_exact c ready).map.right noItem (nullable_line proper))
        (.bind fun _ => .some)
    · next noSeparator =>
      have noSeparator' : t ∉ separatorFirst := fun inside =>
        noSeparator (startsSeparator_iff.2 ⟨t, inside, rfl⟩)
      split
      · next startsItem =>
        refine .takes isNext (first.symm ▸ mem_append_left _ ((begins t).1 startsItem))
          (.left ?_ (only noSeparator') (nullable_line proper))
          (.bind fun _ => .bind fun _ => .some)
        exact (exact c ready).then ready joined fun _ => separator_exact.map
      · next other =>
        refine .idle rfl (only fun inside => ?_)
        rw [first] at inside
        exact (mem_append.1 inside).elim (fun starts => other ((begins t).2 starts))
          noSeparator'
  · next isNext =>
    refine .idle rfl fun t _ isNext' => ?_
    rw [isNext'] at isNext
    cases isNext

theorem linesOf_exact : Exact embedded n (lines p) (p.first ++ separatorFirst)
    (linesOf starts item) := by
  have steps := lineOf?_steps exact begins proper apart joined
  have collected := steps.collect (nullable_line proper) rfl
  rw [first_line proper, append_nil] at collected
  exact collected.map

end

theorem startsStatement_iff (t : Terminal) : startsStatement t = true ↔ t ∈ statementFirst := by
  cases t <;> decide

theorem blockLines_exact (exact : rules.Exact n) :
    Exact rules.embedded (n + 1) (.rule .block) blockMore (blockLines rules) := by
  have list := linesOf_exact (statement_exact exact) startsStatement_iff rfl (by decide) rfl
  refine .rule (.here fun start => .cursor fun before => .finish (list.mono (by decide)) ?_)
  intro statements c
  show ∃ b, (if c.rest.length = before.rest.length then _ else _ : Parser Block).run c = _
  split
  · exact ⟨_, rfl⟩
  · exact ⟨_, rfl⟩

/-- The rules are exact on fewer tokens than they may be nested. -/
theorem rulesUpTo_exact (embedded : Token → Option (List Expr)) (n : Nat) :
    (rulesUpTo embedded n).embedded = embedded ∧ (rulesUpTo embedded n).Exact n := by
  induction n with
  | zero => exact ⟨rfl, .zero, .zero⟩
  | succ n ih =>
    obtain ⟨same, exact⟩ := ih
    have expr := conditional_exact exact
    have block := blockLines_exact exact
    rw [same] at expr block
    exact ⟨rfl, expr, block⟩

end Parser

end ChannelLint
