import ChannelLint.Proofs.Grammar.Statements
import ChannelLint.Script.Parser.Declarations

/-!
# Declarations and whole scripts follow the grammar

Methods and fields of a class begin alike, and so do the lines of a script, the last of which may
end without a separator. Nothing comes behind a script, so every token that is left must belong to
it: what may belong to it is any terminal.
-/
namespace ChannelLint

open List Grammar Phrase

namespace Grammar

/-- What may belong to a member of a class behind a complete one. -/
def memberMore : List Terminal :=
  .kwAs :: .dot :: exprMore

theorem words_classMember : (Phrase.rule .classMember).words =
    (row [.many (.token .modifier), .any [
      .row [functionKeyword, .any [.token .name, .token .kwNew], functionTail],
      .row [.token .name, .opt (.row [.token .kwAs, .rule .typeRef]),
        .opt (.row [.token .equals, .rule .expr])]]]).words := by
  simp only [words_rule .classMember, words_rule .methodDecl,
    words_rule .fieldDecl, grammar, functionTail, Phrase.any, row, words_seq,
    words_either, mul_add]

/-- A script is empty, or it goes on behind a separator or behind a declaration. -/
theorem words_start : (Phrase.rule .start).words = (opt (.any [
    .row [.rule .topItem, .opt (.row [.rule .separator, .rule .start])],
    .row [.rule .separator, .rule .start]])).words := by
  have unfolded : (Phrase.rule .start).words = (seq (lines (.rule .topItem))
      (.opt (.rule .topItem))).words := words_rule .start
  conv_lhs => rw [unfolded, lines, words_many_seq, ← lines, ← unfolded]
  simp only [Phrase.any, row, words_seq, words_either, Parser.words_opt,
    add_mul, mul_add, mul_one, mul_assoc]
  abel

end Grammar

namespace Parser

variable {α β : Type} {embedded : Token → Option (List Expr)} {n : Nat} {p q : Phrase}
  {m m' : List Terminal} {c : Cursor} {rules : Rules}

section

variable (exact : rules.Exact n)

include exact

theorem functionDeclaration_exact (isNext : c.next? = some .kwSub ∨ c.next? = some .kwFunction)
    (ready : c.Ready n) :
    ExactAt rules.embedded (.rule .functionDecl) [] (functionDeclaration rules) c :=
  .rule ((functionKeyword_exact isNext).then ready rfl fun _ =>
    (expect_exact .name nofun).bind rfl fun _ => (functionTail_exact exact _ _ _ _).map)

/-! ## Classes -/

omit exact in
theorem methodName_exact : Exact embedded n (.any [.token .name, .token .kwNew]) [] methodName := by
  intro c _
  refine .look ?_
  split
  · next isNext => exact .map (.takeOne isNext nofun rfl)
  · next isNext => exact .map (.takeOne isNext nofun rfl)
  · next noName noNew =>
    exact .refuse rfl (forall_mem_cons.2 ⟨noName, forall_mem_singleton.2 noNew⟩)

omit exact in
theorem startsFunction_iff {next : Option Terminal} : startsFunction next = true ↔
    next = some .kwSub ∨ next = some .kwFunction := by
  cases next with
  | none => simp [startsFunction]
  | some t => cases t <;> simp [startsFunction]

theorem classMember_exact : Exact rules.embedded n (.rule .classMember) memberMore
    (classMember rules) := by
  refine .congr (.here fun start => (skipMany_exact .modifier nofun).bind rfl fun _ c ready =>
    .look ?_) words_classMember.symm
  split
  · next isFunction =>
    have isNext := startsFunction_iff.1 isFunction
    refine .otherwise [.row [functionKeyword, .any [.token .name, .token .kwNew],
      Grammar.functionTail]] [.name] rfl ?_ ?_
    · refine forall_mem_singleton.2 fun isName => ?_
      rw [isName] at isNext
      simp at isNext
    · exact (functionKeyword_exact isNext).then ready rfl fun _ =>
        methodName_exact.bind rfl fun _ => ((functionTail_exact exact _ _ _ _).mono nofun).map
  · next other =>
    refine .otherwise [.row [.token .name, .opt (.row [.token .kwAs, .rule .typeRef]),
      .opt (.row [.token .equals, .rule .expr])]] [.kwSub, .kwFunction] rfl ?_ ?_
    · rw [startsFunction_iff, not_or] at other
      exact forall_mem_cons.2 ⟨other.1, forall_mem_singleton.2 other.2⟩
    · exact ((expect_exact .name nofun).bind rfl fun _ => typeClause?_steps.opt.bind rfl fun _ =>
        ((valueClause?_steps exact).opt.mono (by decide)).mapSince) c ready

omit exact in
theorem startsMember_iff (t : Terminal) :
    startsMember t = true ↔ t ∈ Nonterminal.classMember.first := by
  cases t <;> decide

omit exact in
theorem parentClause?_steps :
    ExactSteps embedded n (.row [.token .kwExtends, .rule .dottedName]) [.dot] parentClause? :=
  clause_steps nofun fun _ => .rule dottedNames_exact

theorem classDeclaration_exact (isNext : c.next? = some .kwClass) (ready : c.Ready n) :
    ExactAt rules.embedded (.rule .classDecl) [] (classDeclaration rules) c :=
  .rule (.here fun _ => (take_exact isNext nofun).then ready rfl fun _ =>
    (expect_exact .name nofun).bind rfl fun _ => parentClause?_steps.opt.bind rfl fun _ =>
    separator_exact.bind rfl fun _ =>
    (linesOf_exact (classMember_exact exact) startsMember_iff rfl (by decide) rfl).bind rfl fun _ =>
    (expect_exact .endClass nofun).mapSince)

/-! ## Constants, enumerations, imports -/

theorem constDeclaration_exact (isNext : c.next? = some .kwConst) (ready : c.Ready n) :
    ExactAt rules.embedded (.rule .constDecl) exprMore (constDeclaration rules) c :=
  .rule (.here fun _ => (take_exact isNext nofun).then ready rfl fun _ =>
    (expect_exact .name nofun).bind rfl fun _ => (expect_exact .equals nofun).bind rfl fun _ =>
    exact.expr.mapSince)

theorem enumMember_exact : Exact rules.embedded n (.rule .enumMember) exprMore (enumMember rules) :=
  .rule ((expect_exact .name nofun).bind rfl fun _ =>
    ((valueClause?_steps exact).opt.mono (by decide)).map)

theorem enumDeclaration_exact (isNext : c.next? = some .kwEnum) (ready : c.Ready n) :
    ExactAt rules.embedded (.rule .enumDecl) [] (enumDeclaration rules) c := by
  have starts (t : Terminal) : (t == .name) = true ↔ t ∈ Nonterminal.enumMember.first := by
    cases t <;> decide
  exact .rule (.here fun _ => (take_exact isNext nofun).then ready rfl fun _ =>
    (expect_exact .name nofun).bind rfl fun _ => separator_exact.bind rfl fun _ =>
      (linesOf_exact (enumMember_exact exact) starts rfl (by decide) rfl).bind rfl fun _ =>
        (expect_exact .endEnum nofun).mapSince)

omit exact in
theorem pathDeclaration_exact (build : String → Range → Decl) {t : Terminal}
    (isNext : c.next? = some t) (plain : t ≠ .template) (ready : c.Ready n) :
    ExactAt embedded (.row [.token t, .token .string]) [] (pathDeclaration build) c :=
  .here fun _ => (take_exact isNext plain).then ready rfl fun _ =>
    (expect_exact .string nofun).mapSince

end

/-! ## Declarations -/

theorem startsDeclaration_iff (t : Terminal) : startsDeclaration t = true ↔ t ∈ topItemFirst := by
  cases t <;> decide

theorem namespaceDeclaration_exact {inner : Parser Decl}
    (exact : Exact embedded n (.rule .topItem) exprMore inner)
    (isNext : c.next? = some .kwNamespace) (ready : c.Ready (n + 1)) :
    ExactAt embedded (.rule .namespaceDecl) [] (namespaceDeclaration inner) c :=
  .rule (.here fun _ => (take_exact isNext nofun).step ready rfl rfl fun _ =>
    (Exact.rule dottedNames_exact).bind rfl fun _ => separator_exact.bind rfl fun _ =>
      (linesOf_exact exact startsDeclaration_iff rfl (by decide) rfl).bind rfl fun _ =>
        (expect_exact .endNamespace nofun).mapSince)

theorem declarationUpTo_exact {k : Nat} (exact : rules.Exact n) (le : k ≤ n) :
    Exact rules.embedded k (.rule .topItem) exprMore (declarationUpTo rules k) := by
  induction k with
  | zero => exact .zero
  | succ k ih =>
    intro c ready
    have exact' := exact.of_le le
    refine .rule (.look ?_)
    split
    · next isNext =>
      exact .choose [.rule .functionDecl] isNext rfl
        ((functionDeclaration_exact exact' (.inl isNext) ready).mono nofun)
    · next isNext =>
      exact .choose [.rule .functionDecl] isNext rfl
        ((functionDeclaration_exact exact' (.inr isNext) ready).mono nofun)
    · next isNext =>
      exact .choose [.rule .classDecl] isNext rfl
        ((classDeclaration_exact exact' isNext ready).mono nofun)
    · next isNext =>
      exact .choose [.rule .namespaceDecl] isNext rfl
        ((namespaceDeclaration_exact (ih (Nat.le_of_succ_le le)) isNext ready).mono nofun)
    · next isNext =>
      exact .choose [.rule .constDecl] isNext rfl (constDeclaration_exact exact' isNext ready)
    · next isNext =>
      exact .choose [.rule .enumDecl] isNext rfl
        ((enumDeclaration_exact exact' isNext ready).mono nofun)
    · next isNext =>
      exact .choose [.rule .importStmt] isNext rfl
        (.rule ((pathDeclaration_exact _ isNext nofun ready).mono nofun))
    · next isNext =>
      exact .choose [.rule .libraryStmt] isNext rfl
        (.rule ((pathDeclaration_exact _ isNext nofun ready).mono nofun))
    · next =>
      refine .refuse rfl ?_
      show ∀ t ∈ topItemFirst, _
      simp only [topItemFirst, forall_mem_cons, not_mem_nil, false_imp_iff, implies_true, and_true]
      constructorm* _ ∧ _ <;> assumption

/-! ## Scripts -/

/-- What any terminal may belong to can be joined, empty or not. -/
theorem joins_of_apart (apart : ∀ t ∈ m, t ∉ q.first) (all : ∀ t, t ∈ m') :
    joins m q m' = true := by
  refine all_eq_true.2 fun t member => ?_
  have inside : m'.contains t = true := contains_iff_mem.2 (all t)
  have outside : q.first.contains t = false := by
    rw [contains_eq_mem, decide_eq_false_iff_not]
    exact apart t member
  rw [inside, outside, Bool.or_true]
  rfl

theorem topLines_end {declaration : Parser Decl} (isNext : c.next? = none) (k : Nat) :
    (collectUpTo (topLine? declaration) k).run c = .ok ([], c) := by
  cases k with
  | zero => rfl
  | succ k =>
    rw [collectUpTo, topLine?, bind_assoc, run_look, isNext]
    rfl

section

variable {declaration : Parser Decl}
  (exact : Exact embedded n (.rule .topItem) exprMore declaration) (all : ∀ t, t ∈ m)

include exact all

theorem topLines_exact (k : Nat) (ready : c.Ready n) (enough : c.rest.length < k) :
    ExactAt embedded (.rule .start) m (collectUpTo (topLine? declaration) k) c := by
  induction k generalizing c with
  | zero => cases enough
  | succ k ih =>
    have again {c' : Cursor} (suffix : c'.rest <:+ c.rest)
        (shorter : c'.rest.length < c.rest.length) :=
      ih (ready.le suffix) (shorter.trans_le (Nat.lt_succ_iff.1 enough))
    refine .congr ?_ words_start.symm
    rw [collectUpTo, topLine?, bind_assoc]
    refine .look ?_
    split
    · next isNext =>
      refine .absent rfl fun t _ isNext' => ?_
      rw [isNext'] at isNext
      cases isNext
    · next t isNext =>
      refine .present ?_ (words_opt _) ⟨t, all t, isNext⟩
      split
      · next separates =>
        simp only [bind_assoc, pure_bind]
        obtain ⟨_, inside, ⟨⟩⟩ := startsSeparator_iff.1 separates
        have apart : ∀ t ∈ separatorFirst, t ∉ topItemFirst := by decide
        refine .right ?_ (fun s starts isNext' => apart t inside ?_) rfl
        · exact (separator_exact c ready).bind rfl fun _ c' _ suffix shorter =>
            (again suffix (shorter rfl)).map
        · exact Option.some.inj (isNext.symm.trans isNext') ▸ starts
      · next other =>
        rw [bind_assoc]
        refine .left ?_ (fun s starts isNext' => other (startsSeparator_iff.2
          ⟨s, starts, isNext.symm.trans isNext'⟩)) rfl
        refine (exact c ready).bind (joins_of_apart (by decide) all)
          fun decl c₁ _ suffix₁ shorter => ?_
        rw [bind_assoc]
        refine .look ?_
        split
        · next more =>
          obtain ⟨t, isNext⟩ := Option.isSome_iff_exists.1 more
          refine .present ?_ (words_opt _) ⟨t, all t, isNext⟩
          simp only [bind_assoc, pure_bind]
          exact (separator_exact c₁ (ready.le suffix₁)).bind rfl fun _ c₂ _ suffix₂ _ =>
            (again (suffix₂.trans suffix₁) (suffix₂.length_le.trans_lt (shorter rfl))).map
        · next ended =>
          have isNext : c₁.next? = none := Option.not_isSome_iff_eq_none.1 ended
          refine .absent (a := [some decl]) ?_ fun t _ isNext' => ?_
          · simp only [pure_bind]
            rw [StateT.run_bind]
            show ((collectUpTo (topLine? declaration) k).run c₁ >>= _) = _
            rw [topLines_end isNext]
            rfl
          · rw [isNext'] at isNext
            cases isNext

theorem scriptLines_exact : Exact embedded n (.rule .start) m (scriptLines declaration) := by
  intro c ready
  exact .map (.cursor (topLines_exact exact all _ ready (Nat.lt_succ_self _)))

end

end Parser

end ChannelLint
