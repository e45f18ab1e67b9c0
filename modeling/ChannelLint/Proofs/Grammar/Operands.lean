import ChannelLint.Proofs.Grammar.Expressions

/-!
# Statements that begin with an operand

Assignments, increments and calls begin alike. The grammar has a rule for each; the parser reads the
operand first and decides by what comes behind it and by what the operand ends with. Between them
stands `Ending.tail`: what may complete a statement behind an operand with a certain ending.
-/
namespace ChannelLint

open List Grammar

namespace Grammar

/-- An assignment behind its target. -/
def store : Phrase :=
  .row [assignSign, .rule .expr]

/-- What completes a statement behind an operand. -/
def operandTail : Phrase :=
  .seq (.many suffix) (.any [.row [.token .dot, .token .name, store],
    .row [.token .leftBracket, .rule .expr, .token .rightBracket, store], .token .incOp,
    .rule .callArgs])

/-- How an operand ends: a value can be stored to a target, and a call is a statement. -/
inductive Ending where
  | value
  | target
  | call

def Ending.tail : Ending → Phrase
  | value => operandTail
  | target => .any [operandTail, store]
  | call => .opt operandTail

/-- What completes a statement behind an operand, by its first token. -/
def tailCases : List Phrase :=
  [.token .incOp, .row [.token .dot, .token .name, Ending.target.tail],
    .row [.token .optionalDot, .token .name, Ending.value.tail],
    .row [.token .at, .token .name, Ending.value.tail],
    .row [.token .leftBracket, .rule .expr, .token .rightBracket, Ending.target.tail],
    .row [.rule .callArgs, Ending.call.tail]]

theorem words_operandTail : operandTail.words = (Phrase.any tailCases).words := by
  conv_lhs => rw [operandTail, Phrase.words_many_seq, ← operandTail]
  simp only [suffix, tailCases, Ending.tail, Phrase.any, Phrase.row, Phrase.words_seq,
    Phrase.words_either, Parser.words_opt, add_mul, mul_add, mul_assoc, mul_one]
  abel

/-- The statements that begin with an operand. -/
def operandStatements : List Phrase :=
  [.rule .assignment, .rule .dottedSet, .rule .indexedSet, .rule .increment, .rule .callStmt]

theorem words_operandStatements : (Phrase.any operandStatements).words =
    (Phrase.any [.row [.token .name, store], .row [.rule .atom, operandTail]]).words := by
  simp only [operandStatements, operandTail, store, grammar, Phrase.any, Phrase.row,
    Phrase.words_rule .assignment, Phrase.words_rule .dottedSet, Phrase.words_rule .indexedSet,
    Phrase.words_rule .increment, Phrase.words_rule .callStmt, Phrase.words_seq,
    Phrase.words_either, Phrase.words_many, words_operand, mul_add, mul_assoc]

/-- The operands that are no names. -/
def otherAtoms : List Phrase :=
  [.token .string, .token .template, .token .number, .token .kwTrue, .token .kwFalse,
    .token .kwInvalid, .row [.token .leftParen, .rule .expr, .token .rightParen], .rule .array,
    .rule .table, .rule .anonFunction, .rule .newExpr]

theorem words_namedStatements : (Phrase.any operandStatements).words =
    (Phrase.any [.row [.token .name, Ending.target.tail],
      .row [.any otherAtoms, Ending.value.tail]]).words := by
  have atom : (Phrase.rule .atom).words =
      (Phrase.token .name).words + (Phrase.any otherAtoms).words := by
    rw [Phrase.words_rule, ← Phrase.words_either]
    rfl
  rw [words_operandStatements]
  simp only [Ending.tail, Phrase.any, Phrase.row, Phrase.words_seq, Phrase.words_either, atom,
    add_mul, mul_add]
  abel

/-- What may belong to a statement behind a complete one that begins with an operand. -/
def operandMore : List Terminal :=
  .incOp :: exprMore

end Grammar

namespace Parser

variable {α β : Type} {embedded : Token → Option (List Expr)} {n : Nat} {p q : Phrase}
  {m m' : List Terminal} {c : Cursor} {rules : Rules}

theorem assignOp?_exact {f : AssignOp → Parser β} (exact : ∀ op, Exact embedded n q m (f op))
    (ready : c.Ready n) : ExactAt embedded (.seq assignSign q) m (do
      match ← assignOp? with
      | some op => f op
      | none => refuse) c := by
  rw [assignOp?, bind_assoc]
  refine .look ?_
  split
  · next isNext =>
    rw [bind_assoc]
    simp only [pure_bind]
    exact .then (.takeOne isNext nofun rfl) ready rfl fun _ => exact _
  · next isNext =>
    rw [bind_assoc]
    simp only [pure_bind]
    exact .then (.takeOne isNext nofun rfl) ready rfl fun _ => exact _
  · next noEquals noAssign =>
    exact .of_run (.refuse rfl (forall_mem_cons.2
      ⟨noEquals, forall_mem_singleton.2 noAssign⟩)) rfl

/-- The next token goes on with the operand. -/
theorem ending_exact {t : Terminal} {P : Parser α} (ending : Ending) (isNext : c.next? = some t)
    (starts : t ∈ operandTail.first) (exact : ExactAt embedded operandTail operandMore P c) :
    ExactAt embedded ending.tail operandMore P c := by
  cases ending with
  | value => exact exact
  | target =>
    refine .otherwise [operandTail] store.first rfl (fun s other isNext' => ?_) exact
    have apart : ∀ s ∈ store.first, s ∉ operandTail.first := by decide
    exact apart s other (Option.some.inj (isNext.symm.trans isNext') ▸ starts)
  | call =>
    have inside : ∀ s ∈ operandTail.first, s ∈ operandMore := by decide
    exact .present exact (words_opt _) ⟨t, inside t starts, isNext⟩

/-- How an operand ends. -/
def Suffix.ending : Suffix → Ending
  | field true _ => .target
  | field false _ => .value
  | item .. => .target
  | call .. => .call

def operandEnding (first : Expr) (suffixes : List Suffix) : Ending :=
  match suffixes.getLast?, first with
  | some last, _ => last.ending
  | none, .var .. => .target
  | none, _ => .value

/-- A statement behind its operand. -/
def operandEnd (rules : Rules) (first : Expr) (suffixes : List Suffix) : Parser Stmt := do
  match ← accept? .incOp with
  | some token =>
    let target := suffixes.foldl Suffix.apply first
    return .step target (stepOp token) ⟨target.range.start, token.range.stop⟩
  | none =>
    match suffixes.getLast? with
    | none => bareTail rules first
    | some last => suffixTail rules (suffixes.dropLast.foldl Suffix.apply first) last

theorem operandStatement_eq (rules : Rules) : operandStatement rules =
    (atom rules >>= fun first => collect (suffix? rules) >>= operandEnd rules first) :=
  rfl

theorem run_look (f : Option Terminal → Parser α) : (look >>= f).run c = (f c.next?).run c :=
  rfl

/-- An operand that does not begin with a name is no variable. -/
theorem operandEnding_atom {first : Expr} {c' : Cursor} (run : (atom rules).run c = .ok (first, c'))
    (other : c.next? ≠ some .name) : operandEnding first [] = .value := by
  have literal (kind : LiteralKind) : Gives (literal kind) (operandEnding · [] = .value) :=
    .bind fun _ => .pure rfl
  have template : Gives (template rules) (operandEnding · [] = .value) := by
    refine .bind fun k => ?_
    split
    · exact .pure rfl
    · exact .bind fun _ => .pure rfl
  rw [atom, run_look] at run
  split at run
  · next isNext => exact absurd isNext other
  all_goals refine (?_ : Gives _ (operandEnding · [] = .value)) first ⟨c, c', run⟩
  · exact literal _
  · exact literal _
  · exact literal _
  · exact literal _
  · exact literal _
  · exact template
  · exact .bind fun _ => .bind fun _ => .bind fun _ => .bind fun _ => .bind fun _ => .pure rfl
  · exact .bind fun _ => .bind fun _ => .bind fun _ => .bind fun _ => .pure rfl
  · exact .bind fun _ => .bind fun _ => .bind fun _ => .bind fun _ => .pure rfl
  · exact .bind fun _ => .bind fun _ => .pure rfl
  · exact .bind fun _ => .bind fun _ => .pure rfl
  · exact .bind fun _ => .bind fun _ => .bind fun _ => .bind fun _ => .bind fun _ => .bind fun _ =>
      .pure rfl
  · exact .refuse

section

variable (exact : rules.Exact n)

include exact

theorem assignTail_exact (name : Ident) (op : AssignOp) :
    Exact rules.embedded n (.rule .expr) exprMore (assignTail rules name op) :=
  exact.expr.mapSince

theorem storeTail_exact (object : Expr) {last : Suffix} (target : last.ending = .target)
    (op : AssignOp) :
    Exact rules.embedded n (.rule .expr) exprMore (storeTail rules object last op) := by
  cases last with
  | field => exact exact.expr.mapSince
  | item => exact exact.expr.mapSince
  | call => cases target

/-- Behind an operand without a further suffix. -/
theorem operandEnd_exact (first : Expr) (suffixes : List Suffix) (ready : c.Ready n)
    (other : ∀ t ∈ suffixFirst, c.next? ≠ some t) :
    ExactAt rules.embedded (operandEnding first suffixes).tail operandMore
      (operandEnd rules first suffixes) c := by
  refine .accept? (fun isNext => ?_) fun noInc => ?_
  · refine ending_exact _ isNext (by decide) (.congr ?_ words_operandTail.symm)
    exact .map (.mono (.takeOne isNext nofun rfl) nofun)
  · have none : ∀ t ∈ operandTail.first, c.next? ≠ some t := by
      have split : ∀ t ∈ operandTail.first, t ∈ suffixFirst ∨ t = .incOp := by decide
      intro t starts
      obtain inside | rfl := split t starts
      · exact other t inside
      · exact noInc
    have refused : ExactAt rules.embedded operandTail operandMore (refuse : Parser Stmt) c :=
      .refuse rfl none
    have stored {P : Parser Stmt} (exact : ExactAt rules.embedded store exprMore P c) :
        ExactAt rules.embedded Ending.target.tail operandMore P c :=
      .otherwise [store] operandTail.first rfl none (exact.mono (by decide))
    simp only [operandEnding]
    cases suffixes.getLast? with
    | none =>
      cases first with
      | var name =>
        exact stored (assignOp?_exact (fun op =>
          (assignTail_exact exact name op).map (g := Stmt.assign)) ready)
      | _ => exact refused
    | some last =>
      cases last with
      | field dotted name =>
        cases dotted with
        | true => exact stored (assignOp?_exact (storeTail_exact exact _ rfl) ready)
        | false => exact refused
      | item => exact stored (assignOp?_exact (storeTail_exact exact _ rfl) ready)
      | call => exact .absent rfl none

/-- Behind an operand with a further suffix. -/
theorem suffix?_exact {f : Option Suffix → Parser β} (ready : c.Ready n)
    (begins : ∃ t ∈ suffixFirst, c.next? = some t)
    (more : ∀ s c', c'.rest <:+ c.rest → c'.rest.length < c.rest.length →
      ExactAt rules.embedded s.ending.tail operandMore (f (some s)) c') :
    ExactAt rules.embedded operandTail operandMore (suffix? rules >>= f) c := by
  refine .congr ?_ words_operandTail.symm
  have field {t : Terminal} (isNext : c.next? = some t) (plain : t ≠ .template) (dotted : Bool) :
      ExactAt rules.embedded
        (.row [.token t, .token .name, (Suffix.field dotted default).ending.tail])
        operandMore (take >>= fun _ => expect .name >>= fun name =>
          f (some (.field dotted (ident name)))) c := by
    refine (take_exact isNext plain).bind rfl fun _ c₁ _ suffix₁ shorter => ?_
    refine (expect_exactAt .name nofun).bind rfl fun name c₂ _ suffix₂ _ => ?_
    have exact := more (.field dotted (ident name)) c₂ (suffix₂.trans suffix₁)
      (suffix₂.length_le.trans_lt (shorter rfl))
    cases dotted <;> exact exact
  rw [suffix?, bind_assoc]
  refine .look ?_
  split
  · next isNext =>
    refine .choose [.row [.token .dot, .token .name, Ending.target.tail]] isNext rfl ?_
    simp only [bind_assoc, pure_bind]
    exact field isNext (by decide) true
  · next isNext =>
    refine .choose [.row [.token .optionalDot, .token .name, Ending.value.tail]] isNext rfl ?_
    simp only [bind_assoc, pure_bind]
    exact field isNext (by decide) false
  · next isNext =>
    refine .choose [.row [.token .at, .token .name, Ending.value.tail]] isNext rfl ?_
    simp only [bind_assoc, pure_bind]
    exact field isNext (by decide) false
  · next isNext =>
    refine .choose [.row [.token .leftBracket, .rule .expr, .token .rightBracket,
      Ending.target.tail]] isNext rfl ?_
    simp only [bind_assoc, pure_bind]
    refine (take_exact isNext nofun).bind rfl fun _ c₁ _ suffix₁ shorter => ?_
    refine (exact.expr c₁ (ready.le suffix₁)).bind rfl fun key c₂ _ suffix₂ _ => ?_
    refine (expect_exactAt .rightBracket nofun).bind rfl fun _ c₃ _ suffix₃ _ => ?_
    exact more (.item key _) c₃ (suffix₃.trans (suffix₂.trans suffix₁))
      ((suffix₃.trans suffix₂).length_le.trans_lt (shorter rfl))
  · next isNext =>
    refine .choose [.row [.rule .callArgs, Ending.call.tail]] isNext rfl ?_
    simp only [bind_assoc, pure_bind]
    refine (arguments_exact exact c ready).bind rfl fun args c₁ _ suffix₁ shorter => .cursor ?_
    exact more (.call args _) c₁ suffix₁ (shorter rfl)
  · next =>
    exfalso
    obtain ⟨t, starts, isNext⟩ := begins
    revert t
    simp only [suffixFirst, forall_mem_cons, not_mem_nil, false_imp_iff, implies_true, and_true]
    constructorm* _ ∧ _ <;> assumption

theorem suffixes_exact (first : Expr) (k : Nat) (before : List Suffix) (ready : c.Ready n)
    (enough : c.rest.length < k) :
    ExactAt rules.embedded (operandEnding first before).tail operandMore (do
      let more ← collectUpTo (suffix? rules) k
      operandEnd rules first (before ++ more)) c := by
  induction k generalizing c before with
  | zero => cases enough
  | succ k ih =>
    rw [collectUpTo_succ_bind]
    cases suffix?_steps exact c ready with
    | idle run other =>
      refine .of_run (operandEnd_exact exact first before ready other) ?_
      rw [StateT.run_bind, run]
      show (operandEnd rules first (before ++ [])).run c = _
      rw [append_nil]
    | item begins =>
      obtain ⟨t, starts, isNext⟩ := begins
      have inside : ∀ t ∈ suffix.first, t ∈ suffixFirst ∧ t ∈ operandTail.first := by decide
      refine ending_exact _ isNext (inside t starts).2 ?_
      refine suffix?_exact exact ready ⟨t, (inside t starts).1, isNext⟩
        fun s c' suffix shorter => ?_
      have rest := ih (before ++ [s]) (ready.le suffix)
        (shorter.trans_le (Nat.lt_succ_iff.1 enough))
      simpa only [operandEnding, getLast?_concat, append_assoc, singleton_append]
        using rest

theorem operandStatement_exact : Exact rules.embedded (n + 1) (.any operandStatements) operandMore
    (operandStatement rules) := by
  intro c ready
  by_cases isNext : c.next? = some .name
  · refine .congr (.choose [.row [.token .name, Ending.target.tail]] isNext rfl ?_)
      words_namedStatements.symm
    have named : (operandStatement rules).run c = (take >>= fun k => collect (suffix? rules) >>=
        operandEnd rules (.var (ident k) false)).run c := by
      rw [operandStatement_eq, atom, bind_assoc, run_look, isNext]
      simp only [bind_assoc, pure_bind]
    refine .of_run (.step (take_exact isNext nofun) ready rfl rfl fun k c' ready' => ?_) named
    exact .of_run (suffixes_exact exact (.var (ident k) false) _ [] ready' (Nat.lt_succ_self _)) rfl
  · refine .congr (.otherwise [.row [.rule .atom, operandTail]] [.name] rfl
      (forall_mem_singleton.2 isNext) ?_) words_operandStatements.symm
    refine (atom_exact exact c ready).bind rfl fun first c' run suffix shorter => ?_
    have ready' : c'.Ready n := ready.of_suffix suffix
      ((shorter rfl).trans_le (Nat.lt_succ_iff.1 ready.short))
    have rest := suffixes_exact exact first _ [] ready' (Nat.lt_succ_self _)
    rw [operandEnding_atom run isNext] at rest
    exact rest.of_run rfl

end

end Parser

end ChannelLint
