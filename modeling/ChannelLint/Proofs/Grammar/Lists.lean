import ChannelLint.Proofs.Grammar.Exact

/-!
# Names, lists and functions follow the grammar

What expressions are put together from is exact for its phrase, if the rules that it may call again
are exact.
-/
namespace ChannelLint

open List Grammar Phrase

namespace Grammar

/-- What may follow an operand begins with these. -/
def suffixFirst : List Terminal :=
  [.dot, .optionalDot, .at, .leftBracket, .leftParen]

/-- What may belong to an expression behind a complete one. -/
def exprMore : List Terminal :=
  .question :: binaryTerminals ++ suffixFirst

/-- What may belong to a block behind a complete one. -/
def blockMore : List Terminal :=
  Nonterminal.block.first

/-- A function behind its keyword and its name. -/
def functionTail : Phrase :=
  .row [.rule .params, .opt (.rule .returnType), .rule .separator, .rule .block, .rule .functionEnd]

/-- The two kinds of lists, told apart by the bracket that ends them. -/
inductive ListKind where
  | array
  | table

namespace ListKind

def closing : ListKind → Terminal
  | array => .rightBracket
  | table => .rightBrace

def item : ListKind → Phrase
  | array => .rule .expr
  | table => .rule .tableMember

/-- What follows an item of a list. -/
def rest (kind : ListKind) : Phrase :=
  .row [.many (.row [.rule .listSeparator, kind.item]), .opt (.rule .listSeparator),
    .token kind.closing]

/-- What follows a separator of a list. -/
def next (kind : ListKind) : Phrase :=
  .any [.token kind.closing, .seq kind.item kind.rest]

/-- What follows an item begins with the closing bracket, a comma or a line feed. -/
def cases (kind : ListKind) : List Phrase :=
  [.token kind.closing, .row [.token .comma, .many (.token .newline), kind.next],
    .seq (.several (.token .newline)) kind.next]

theorem words_rest (kind : ListKind) : kind.rest.words = (Phrase.any kind.cases).words := by
  have algebra (s p c : Language Terminal) : KStar.kstar (s * p) * ((s + 1) * c) =
      c + s * (c + p * (KStar.kstar (s * p) * ((s + 1) * c))) := by
    conv_lhs => rw [kstar_mul_unfold]
    simp only [add_mul, mul_add, one_mul, mul_assoc]
    abel
  calc kind.rest.words
      = (Phrase.token kind.closing).words + (Phrase.rule .listSeparator).words *
          kind.next.words := by
        simp only [next, rest, Phrase.any, row, words_seq, words_either,
          words_many, Parser.words_opt]
        exact algebra ..
    _ = _ := by
        rw [words_rule, grammar, cases]
        simp only [Phrase.any, row, words_seq, words_either, add_mul, mul_assoc]

end ListKind

end Grammar

namespace Parser

variable {α β : Type} {embedded : Token → Option (List Expr)} {n : Nat} {p q : Phrase}
  {m m' : List Terminal} {c : Cursor}

/-- The rules that other rules may call again are exact if fewer than `n` tokens are left. -/
structure Rules.Exact (n : Nat) (rules : Rules) : Prop where
  expr : Parser.Exact rules.embedded n (.rule .expr) exprMore rules.expr
  block : Parser.Exact rules.embedded n (.rule .block) blockMore rules.block

theorem Rules.Exact.of_le {n' : Nat} {rules : Rules} (exact : rules.Exact n') (le : n ≤ n') :
    rules.Exact n :=
  ⟨exact.expr.of_le le, exact.block.of_le le⟩

theorem separator_exact : Exact embedded n (.rule .separator) [] separator := by
  intro c _
  refine .rule (.look ?_)
  split
  · next isNext => exact .map (.takeOne isNext nofun rfl)
  · next isNext => exact .map (.takeOne isNext nofun rfl)
  · next noNewline noColon =>
    exact .refuse rfl (forall_mem_cons.2 ⟨noNewline, forall_mem_singleton.2 noColon⟩)

/-- Steps that begin with a certain token. -/
theorem behind_steps {t : Terminal} {item : Token → Parser (Option α)} (plain : t ≠ .template)
    (exact : ∀ k, Exact embedded n q m (item k)) (gives : ∀ k, Gives (item k) (· ≠ none)) :
    ExactSteps embedded n (.seq (.token t) q) m (do
      match ← accept? t with
      | some k => item k
      | none => return none) := by
  intro c ready
  by_cases isNext : c.next? = some t
  · have taken : ExactAt embedded (.seq (.token t) q) m (take >>= item) c :=
      (take_exact isNext plain).then ready rfl exact
    have same : (accept? t >>= fun found => match found with
        | some k => item k
        | none => pure none).run c = (take >>= item).run c := by
      rw [StateT.run_bind, accept?_of_next isNext, StateT.run_bind, StateT.run_bind]
      cases take.run c <;> rfl
    exact .of_run (.takes isNext mem_cons_self taken (.bind gives)) same
  · refine .idle ?_ (forall_mem_singleton.2 isNext)
    rw [StateT.run_bind, accept?_of_other isNext]
    rfl

/-- A token that may be missing, and an item behind it. -/
theorem clause_steps {t : Terminal} {item : Token → Parser α} {g : α → β} (plain : t ≠ .template)
    (exact : ∀ k, Exact embedded n q m (item k)) : ExactSteps embedded n (.seq (.token t) q) m (do
      match ← accept? t with
      | some k => return some (g (← item k))
      | none => return none) :=
  behind_steps plain (fun k => (exact k).map)
    fun _ => .bind fun _ => .some

/-! ## Names and types -/

theorem namePart?_steps : ExactSteps embedded n (.row [.token .dot, .token .name]) [] namePart? :=
  clause_steps nofun fun _ => expect_exact .name nofun

theorem dottedNames_exact : Exact embedded n names [.dot] dottedNames :=
  (expect_exact .name nofun).bind rfl fun _ => (namePart?_steps.collect rfl rfl).map

theorem typeName_exact : Exact embedded n (.rule .typeRef) [.dot] typeName := by
  intro c ready
  refine .rule (.look ?_)
  split
  · next isNext => exact .map (.mono (.takeOne isNext nofun rfl) nofun)
  · next isNext => exact .map (.mono (.takeOne isNext nofun rfl) nofun)
  · next noFunction noSub =>
    exact .otherwise [names] [.kwFunction, .kwSub] rfl
      (forall_mem_cons.2 ⟨noFunction, forall_mem_singleton.2 noSub⟩)
      (dottedNames_exact c ready).map

theorem typeClause?_steps :
    ExactSteps embedded n (.row [.token .kwAs, .rule .typeRef]) [.dot] typeClause? :=
  clause_steps nofun fun _ => typeName_exact

/-! ## Lists -/

theorem commaList_exact {item : Parser α} (exact : Exact embedded n p m item)
    (joined : joins m (.many (.row [.token .comma, p])) (.comma :: m) = true) :
    Exact embedded n (.row [p, .many (.row [.token .comma, p])]) (.comma :: m) (commaList item) :=
  exact.bind joined fun _ =>
    ((clause_steps (t := .comma) nofun fun _ => exact).collect rfl joined).map

/-- A phrase that may be missing in front of another one. -/
theorem words_opt_seq (p q : Phrase) :
    (seq (.opt p) q).words = (Phrase.any [.seq p q, q]).words := by
  simp only [Phrase.any, words_seq, words_either, words_opt, add_mul, one_mul]

section

variable {kind : ListKind} {item : Parser α} {f : Option α → Parser β}
  (exact : Exact embedded n kind.item exprMore item)
  (stop : ∀ c, c.next? = some kind.closing → ExactAt embedded (.token kind.closing) [] (f none) c)

include exact stop

/-- Behind a separator of a list. -/
theorem listNext_exact (ready : c.Ready n) (more : ∀ a c', c'.rest <:+ c.rest →
      ExactAt embedded kind.rest [] (f (some a)) c') : ExactAt embedded kind.next [] (do
      let found ← (do if (← look) = some kind.closing then return none else return some (← item))
      f found) c := by
  rw [bind_assoc]
  refine .look ?_
  split
  · next isNext =>
    exact .choose [.token kind.closing] isNext (by cases kind <;> rfl) ((stop c isNext).of_run rfl)
  · next other =>
    refine .otherwise [.seq kind.item kind.rest] [kind.closing] (by cases kind <;> rfl)
      (forall_mem_singleton.2 other) ?_
    rw [bind_assoc]
    simp only [pure_bind]
    exact (exact c ready).bind (by cases kind <;> rfl) fun a c' _ suffix _ => more a c' suffix

theorem listItem?_exact (ready : c.Ready n) (more : ∀ a c', c'.rest <:+ c.rest →
      c'.rest.length < c.rest.length → ExactAt embedded kind.rest [] (f (some a)) c') :
    ExactAt embedded kind.rest [] (listItem? kind.closing item >>= f) c := by
  refine .congr ?_ kind.words_rest.symm
  rw [listItem?, bind_assoc]
  refine .look ?_
  split
  · next isNext =>
    exact .choose [.token kind.closing] isNext (by cases kind <;> rfl) ((stop c isNext).of_run rfl)
  · next other =>
    rw [listSeparator?, bind_assoc, bind_assoc]
    refine .look ?_
    split
    · next isNext =>
      refine .choose [.row [.token .comma, .many (.token .newline), kind.next]] isNext
        (by cases kind <;> rfl) ?_
      simp only [bind_assoc, pure_bind, if_true]
      refine (take_exact isNext nofun).bind rfl fun _ c₁ _ suffix₁ shorter => ?_
      refine (skipMany_exact .newline nofun c₁ (ready.le suffix₁)).bind (by cases kind <;> rfl)
        fun _ c₂ _ suffix₂ _ => ?_
      refine listNext_exact exact stop (ready.le (suffix₂.trans suffix₁)) fun a c' suffix => ?_
      exact more a c' (suffix.trans (suffix₂.trans suffix₁))
        ((suffix.trans suffix₂).length_le.trans_lt (shorter rfl))
    · next isNext =>
      refine .choose [.seq (.several (.token .newline)) kind.next] isNext
        (by cases kind <;> rfl) ?_
      simp only [bind_assoc, pure_bind, if_true]
      have lineFeeds : ExactAt embedded (.several (.token .newline)) [.newline]
          (skipMany .newline) c :=
        .finish (.cursor ((collectUpTo_exact (accept?_steps .newline nofun) rfl rfl _ ready
          (Nat.lt_succ_self _)).2 ⟨_, mem_singleton_self _, isNext⟩)) fun _ _ => ⟨_, rfl⟩
      refine lineFeeds.bind (by cases kind <;> rfl) fun _ c₁ _ suffix₁ shorter => ?_
      refine listNext_exact exact stop (ready.le suffix₁) fun a c' suffix => ?_
      exact more a c' (suffix.trans suffix₁) (suffix.length_le.trans_lt (shorter rfl))
    · next noComma noNewline =>
      have first : (Phrase.any kind.cases).first = [kind.closing, .comma, .newline] := by
        cases kind <;> rfl
      refine .of_run (.refuse (by cases kind <;> rfl) ?_) rfl
      rw [first]
      simp only [forall_mem_cons]
      exact ⟨other, noComma, noNewline, forall_mem_nil _⟩
end

theorem listLoop_exact {kind : ListKind} {item : Parser α}
    (exact : Exact embedded n kind.item exprMore item) (k : Nat) (f : List α → Parser β)
    (silent : ∀ as c, ∃ b, (f as).run c = .ok (b, c)) (ready : c.Ready n)
    (enough : c.rest.length < k) : ExactAt embedded kind.rest [] (do
      let more ← collectUpTo (listItem? kind.closing item) k
      let _ ← expect kind.closing
      f more) c := by
  induction k generalizing c f with
  | zero => cases enough
  | succ k ih =>
    rw [collectUpTo_succ_bind]
    refine listItem?_exact exact (fun c' isNext => ?_) ready fun a c' suffix shorter => ?_
    · exact (expect_exactAt _ (by cases kind <;> decide)).finish fun _ => silent []
    · exact ih (fun as => f (a :: as)) (fun as => silent (a :: as)) (ready.le suffix)
        (shorter.trans_le (Nat.lt_succ_iff.1 enough))

theorem listUpTo_exact (kind : ListKind) {item : Parser α}
    (exact : Exact embedded n kind.item exprMore item) :
    Exact embedded n (.row [.many (.token .newline), .opt (.row [kind.item,
      .many (.row [.rule .listSeparator, kind.item]), .opt (.rule .listSeparator)]),
      .token kind.closing]) [] (listUpTo kind.closing item) := by
  refine (skipMany_exact .newline nofun).bind (by cases kind <;> rfl) fun _ c ready => ?_
  have regroup : (row [.opt (.row [kind.item,
      .many (.row [.rule .listSeparator, kind.item]), .opt (.rule .listSeparator)]),
      .token kind.closing]).words =
        (Phrase.any [.token kind.closing, .seq kind.item kind.rest]).words := by
    rw [row, row, words_opt_seq]
    simp only [ListKind.rest, Phrase.any, row, words_seq, words_either, mul_assoc, add_comm]
  refine .congr (.look ?_) regroup.symm
  split
  · next isNext =>
    exact .choose [.token kind.closing] isNext (by cases kind <;> rfl)
      (take_exact isNext (by cases kind <;> decide)).map
  · next other =>
    refine .otherwise [.seq kind.item kind.rest] [kind.closing] (by cases kind <;> rfl)
      (forall_mem_singleton.2 other) ?_
    refine (exact c ready).bind (by cases kind <;> rfl) fun first c' _ suffix _ => ?_
    refine (listLoop_exact exact _ (fun more => pure (first :: more)) (fun _ _ => ⟨_, rfl⟩)
      (ready.le suffix) (Nat.lt_succ_self _)).of_run ?_
    rfl

/-! ## Functions -/

theorem functionKeyword_exact (isNext : c.next? = some .kwSub ∨ c.next? = some .kwFunction) :
    ExactAt embedded functionKeyword [] take c := by
  obtain isNext | isNext := isNext
  · exact .takeOne isNext nofun rfl
  · exact .takeOne isNext nofun rfl

section

variable {rules : Rules} (exact : rules.Exact n)

include exact

theorem valueClause?_steps : ExactSteps rules.embedded n (.row [.token .equals, .rule .expr])
    exprMore (valueClause? rules) :=
  clause_steps nofun fun _ => exact.expr

theorem param_exact : Exact rules.embedded n (.rule .param) (.kwAs :: .dot :: exprMore)
    (param rules) := by
  refine .rule ((expect_exact .name nofun).bind rfl fun _ =>
    (valueClause?_steps exact).opt.bind rfl fun _ => ?_)
  exact (typeClause?_steps.opt.mono (by decide)).map

theorem params_exact : Exact rules.embedded n (.rule .params) [] (params rules) := by
  refine .rule ((expect_exact .leftParen nofun).bind rfl fun _ c ready => ?_)
  refine .congr (.look ?_) (words_opt_seq _ _).symm
  split
  · next isNext => exact .map (.takeOne isNext nofun rfl)
  · next other =>
    refine .otherwise [.row [.row [.rule .param, .many (.row [.token .comma, .rule .param])],
      .token .rightParen]] [.rightParen] rfl (forall_mem_singleton.2 other) ?_
    exact ((commaList_exact (param_exact exact) rfl).bind rfl
      fun _ => (expect_exact .rightParen nofun).map) c ready

theorem functionTail_exact (start : Position) (keyword : Token) (name : Option Ident)
    (isMethod : Bool) : Exact rules.embedded n Grammar.functionTail []
      (functionTail rules start keyword name isMethod) := by
  refine (params_exact exact).bind rfl fun _ => (typeClause?_steps.rule rfl).opt.bind rfl fun _ =>
    .since fun _ => separator_exact.bind rfl fun _ => exact.block.bind rfl fun _ c ready =>
      .rule (.look ?_)
  split
  · next isNext => exact .mapSince (.takeOne isNext nofun rfl)
  · next isNext => exact .mapSince (.takeOne isNext nofun rfl)
  · next noSub noFunction =>
    exact .refuse rfl (forall_mem_cons.2 ⟨noSub, forall_mem_singleton.2 noFunction⟩)

/-! ## Arguments -/

theorem argument?_steps : ExactSteps rules.embedded n
    (.row [.token .comma, .many (.token .newline), .rule .expr]) exprMore (argument? rules) := by
  refine behind_steps nofun
    (fun _ => (skipMany_exact .newline nofun).bind rfl fun _ => exact.expr.map)
    fun _ => .bind fun _ => .bind fun _ => .pure ?_
  exact Option.some_ne_none _

theorem arguments_exact : Exact rules.embedded n (.rule .callArgs) [] (arguments rules) := by
  refine .rule ((expect_exact .leftParen nofun).bind rfl fun _ =>
    (skipMany_exact .newline nofun).bind rfl fun _ c ready => ?_)
  refine .congr (.look ?_) (words_opt_seq _ _).symm
  split
  · next isNext => exact .map (.takeOne isNext nofun rfl)
  · next other =>
    refine .otherwise [.row [.row [.rule .expr,
        .many (.row [.token .comma, .many (.token .newline), .rule .expr]),
        .many (.token .newline)], .token .rightParen]] [.rightParen] rfl
      (forall_mem_singleton.2 other) ?_
    have regrouped : Exact rules.embedded n (.row [.rule .expr,
        .many (.row [.token .comma, .many (.token .newline), .rule .expr]),
        .many (.token .newline), .token .rightParen]) [] (do
          let first ← rules.expr
          let more ← collect (argument? rules)
          skipMany .newline
          let _ ← expect .rightParen
          return first :: more) :=
      exact.expr.bind rfl fun _ => ((argument?_steps exact).collect rfl rfl).bind rfl fun _ =>
        (skipMany_exact .newline nofun).bind rfl fun _ => (expect_exact .rightParen nofun).map
    refine (regrouped c ready).congr ?_
    simp only [Phrase.any, row, words_seq, mul_assoc]

end

end Parser

end ChannelLint
