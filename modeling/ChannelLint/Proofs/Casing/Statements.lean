import ChannelLint.Proofs.Casing.Expressions

/-!
# Statements without their case

Each rule for statements reads without case what it reads; closing the circle of rules, so does
every rule.
-/
namespace ChannelLint.Parser

open List Text

variable {α : Type}

theorem filterMap_id_map (φ : α → α) (parts : List (Option α)) :
    (parts.map (Option.map φ)).filterMap id = (parts.filterMap id).map φ := by
  rw [filterMap_map, map_filterMap]
  rfl

/-! ## Assignments -/

theorem compoundOp?_uncased (text : String) : compoundOp? (uncased text) = compoundOp? text :=
  find?_symbol_uncased (fun op => op.symbol ++ "=") (by decide : ∀ op ∈ symbolOps, _) text

theorem assignOp?_reads : Blind .plain assignOp? := by
  refine .look fun t => ?_
  split
  · exact take_reads.bind fun _ => .pure rfl
  · exact take_reads.bind fun t => .pure (congrArg some (compoundOp?_uncased t.text))
  · exact .pure rfl

theorem storedValue_respell (op : AssignOp) (old value : Expr) (range : Range) :
    storedValue op (old.respell .uncase) (value.respell .uncase) range =
      (storedValue op old value range).respell .uncase := by
  cases op <;> rfl

theorem stepOp_uncase (t : Token) : stepOp t.uncase = stepOp t := by
  have same : (uncased t.text = "++") = (t.text = "++") :=
    propext (uncased_eq_iff (by decide) t.text)
  simp only [stepOp, Token.uncase, same]

def Clause.uncase (c : Clause) : Clause :=
  ⟨c.start, c.condition.respell .uncase, c.body.respell .uncase⟩

namespace Reading

abbrev clause : Reading Clause := Clause.uncase

abbrev «else» : Reading Else := Else.respell .uncase

abbrev «catch» : Reading Catch := Catch.respell .uncase

end Reading

section

variable {rules : Rules} (h : rules.Alike)

include h

theorem assignTail_reads {name : Ident} (op : AssignOp) : Reads .assign (assignTail rules name op)
      (assignTail rules (Respelling.uncase.name name) op) := by
  refine h.expr.bind fun value => ?_
  refine .since fun range => .pure ?_
  exact congrArg (Assign.mk _ · _ _) (storedValue_respell op (.var name false) value range)

theorem assignment_reads : Blind .assign (assignment rules) := by
  refine expect_reads.bind fun name => ?_
  refine assignOp?_reads.bind fun op => ?_
  cases op with
  | some op => exact assignTail_reads h op
  | none => exact .refuse

theorem storeTail_reads {object : Expr} {last : Suffix} (op : AssignOp) :
    Reads .stmt (storeTail rules object last op)
      (storeTail rules (object.respell .uncase) last.uncase op) := by
  refine h.expr.bind fun value => ?_
  rw [Expr.range_respell]
  refine .since fun range => ?_
  cases last with
  | field plain name =>
    have old := storedValue_respell op
      (.dot object name (.cover object.range name.range)) value range
    exact .pure (congrArg (Stmt.setField _ _ · _) old)
  | item key stop =>
    have old := storedValue_respell op
      (.index object key (.cover object.range key.range)) value range
    refine .pure ?_
    simp only [Expr.range_respell]
    exact congrArg (Stmt.setItem _ _ · _) old
  | call args stop => exact .refuse

theorem bareTail_reads {first : Expr} :
    Reads .stmt (bareTail rules first) (bareTail rules (first.respell .uncase)) := by
  cases first with
  | var name called =>
    refine assignOp?_reads.bind fun op => ?_
    cases op with
    | none => exact .refuse
    | some op => exact (assignTail_reads h op).bind fun a => .pure rfl
  | _ => exact .refuse

/-- An assignment to the last suffix, if there is an operator. -/
def storeOr (rules : Rules) (object : Expr) (last : Suffix) : Option AssignOp → Parser Stmt
  | some op => storeTail rules object last op
  | none => refuse

theorem suffixTail_reads {object : Expr} {last : Suffix} :
    Reads .stmt (suffixTail rules object last)
      (suffixTail rules (object.respell .uncase) last.uncase) := by
  have store : Reads .stmt
      (assignOp? >>= storeOr rules object last)
      (assignOp? >>= storeOr rules (object.respell .uncase) last.uncase) := by
    refine assignOp?_reads.bind fun op => ?_
    cases op with
    | none => exact .refuse
    | some op => exact storeTail_reads h op
  cases last with
  | call args stop =>
    have same := Suffix.apply_respell object (.call args stop)
    have range := Expr.range_respell .uncase ((Suffix.call args stop).apply object)
    exact .pure (congrArg₂ Stmt.perform same ((congrArg Expr.range same).trans range))
  | field plain name =>
    cases plain with
    | false => exact .refuse
    | true => exact store
  | item key stop => exact store

theorem operandStatement_reads : Blind .stmt (operandStatement rules) := by
  refine (atom_reads h).bind fun first => ?_
  refine (collect_reads (suffix?_reads h)).bind fun suffixes => ?_
  refine accept?_reads.bind fun found => ?_
  cases found with
  | some token =>
    have same := Suffix.foldl_respell first suffixes
    have range := (congrArg Expr.range same).trans (Expr.range_respell _ _)
    refine .pure ?_
    show Stmt.step _ (stepOp token.uncase) ⟨_, _⟩ = _
    rw [stepOp_uncase]
    exact congrArg₂ (fun target r => Stmt.step target _ ⟨r, token.range.stop⟩) same
      (congrArg Range.start range)
  | none =>
    have last : (suffixes.map Suffix.uncase).getLast? = suffixes.getLast?.map Suffix.uncase :=
      getLast?_map ..
    have before : (suffixes.map Suffix.uncase).dropLast = suffixes.dropLast.map Suffix.uncase :=
      map_dropLast.symm
    simp only [Option.map_none, last, before]
    cases suffixes.getLast? with
    | none => exact bareTail_reads h
    | some last =>
      simp only [Option.map_some, Suffix.foldl_respell]
      exact suffixTail_reads h

/-! ## Simple statements -/

theorem printItem?_reads : Blind Reading.expr.option.option (printItem? rules) := by
  refine .look fun t => ?_
  split
  · exact take_reads.bind fun _ => (expr?_reads h).bind fun e => .pure rfl
  · exact take_reads.bind fun _ => (expr?_reads h).bind fun e => .pure rfl
  · exact .pure rfl

theorem printStatement_reads : Blind .stmt (printStatement rules) := by
  refine .here fun start => ?_
  refine take_reads.bind fun _ => ?_
  refine (expr?_reads h).bind fun first => ?_
  cases first with
  | none => exact .since fun range => .pure rfl
  | some first =>
    refine (collect_reads (printItem?_reads h)).bind fun more => ?_
    refine .since fun range => .pure ?_
    have values := (congrArg (_ :: ·) (filterMap_id_map (Expr.respell .uncase) more)).trans
      (Expr.respellAll_eq .uncase (first :: more.filterMap id)).symm
    exact congrArg (Stmt.print · range) values

omit h in
theorem labelStatement_reads : Blind .stmt labelStatement := by
  refine take_reads.bind fun t => .pure ?_
  have text : String.ofList (uncased t.text).toList.dropLast =
      uncased (String.ofList t.text.toList.dropLast) := by
    rw [toList_uncased, uncased, String.toList_ofList, map_dropLast]
  exact congrArg (fun text => Stmt.label ⟨text, _⟩ t.range) text

theorem dimStatement_reads : Blind .stmt (dimStatement rules) := by
  refine .here fun start => ?_
  refine take_reads.bind fun _ => ?_
  refine expect_reads.bind fun name => ?_
  refine expect_reads.bind fun _ => ?_
  refine (commaList_reads h.expr).bind fun sizes => ?_
  refine expect_reads.bind fun _ => ?_
  refine .since fun range => .pure ?_
  exact congrArg (Stmt.dim _ · _) (Expr.respellAll_eq _ sizes).symm

omit h in
/-- A statement that consists of its keyword. -/
theorem keyword_reads {build : Range → Stmt} (start : Position)
    (same : ∀ range, (build range).respell .uncase = build range) :
    Reads .stmt (do let _ ← take; return build (← since start))
      (do let _ ← take; return build (← since start)) :=
  take_reads.bind fun _ => .since fun range => .pure (same range).symm

theorem simpleStatement_reads : Blind .stmt (simpleStatement rules) := by
  refine .here fun start => .look fun t => ?_
  split
  · exact printStatement_reads h
  · exact printStatement_reads h
  · exact keyword_reads start fun _ => rfl
  · exact keyword_reads start fun _ => rfl
  · refine take_reads.bind fun _ => ?_
    refine (expr?_reads h).bind fun value => .since fun range => .pure ?_
    exact congrArg (Stmt.ret · range) (Expr.respell?_eq _ value).symm
  · refine take_reads.bind fun _ => ?_
    exact h.expr.bind fun value => .since fun range => .pure rfl
  · refine take_reads.bind fun _ => ?_
    exact expect_reads.bind fun label => .since fun range => .pure rfl
  · exact keyword_reads start fun _ => rfl
  · exact keyword_reads start fun _ => rfl
  · exact dimStatement_reads h
  · exact operandStatement_reads h

/-! ## Branches -/

omit h in
theorem nestClauses_respell (inline : Bool) (stop : Position) (final : Else)
    (clauses : List Clause) :
    nestClauses inline stop (final.respell .uncase) (clauses.map Clause.uncase) =
      (nestClauses inline stop final clauses).respell .uncase := by
  induction clauses with
  | nil => rfl
  | cons clause rest ih =>
    rw [map_cons, nestClauses, ih]
    rfl

theorem blockClause_reads (start : Position) : Blind .clause (blockClause rules start) := by
  refine h.expr.bind fun condition => ?_
  refine accept?_reads.bind fun _ => ?_
  refine separator_reads.bind fun _ => ?_
  exact h.block.bind fun body => .pure rfl

omit h in
theorem elseIfClause?_reads {clause : Position → Parser Clause}
    (each : ∀ start, Blind .clause (clause start)) :
    Blind Reading.clause.option (elseIfClause? clause) := by
  exact .accepting (fun token => (each token.range.start).bind fun c => .pure rfl) (.pure rfl)

omit h in
theorem elseClause?_reads {body : Parser Block} (each : Blind .block body) :
    Blind .else (elseClause? body) := by
  exact .accepting (fun _ => each.bind fun b => .pure rfl) (.pure rfl)

theorem lineBlock_reads : Blind .block (lineBlock rules) := by
  refine (simpleStatement_reads h).bind fun s => .pure ?_
  exact congrArg (Block.mk [_] ·) (Stmt.range_respell .uncase s)

theorem lineClause_reads (start : Position) : Blind .clause (lineClause rules start) := by
  refine h.expr.bind fun condition => ?_
  refine expect_reads.bind fun _ => ?_
  exact (lineBlock_reads h).bind fun body => .pure rfl

theorem blockIfTail_reads {condition : Expr} (start : Position) :
    Reads .stmt (blockIfTail rules start condition)
      (blockIfTail rules start (condition.respell .uncase)) := by
  refine h.block.bind fun body => ?_
  refine (collect_reads (elseIfClause?_reads (blockClause_reads h))).bind fun clauses => ?_
  refine (elseClause?_reads h.block).bind fun final => ?_
  refine .cursor fun c => ?_
  refine expect_reads.bind fun _ => ?_
  refine .since fun range => .pure ?_
  exact congrArg (fun e => Stmt.ifThen ⟨_, _, e, _, _⟩) (nestClauses_respell ..)

theorem lineIfTail_reads {condition : Expr} (start : Position) :
    Reads .stmt (lineIfTail rules start condition)
      (lineIfTail rules start (condition.respell .uncase)) := by
  refine (lineBlock_reads h).bind fun body => ?_
  refine (collect_reads (elseIfClause?_reads (lineClause_reads h))).bind fun clauses => ?_
  refine (elseClause?_reads (lineBlock_reads h)).bind fun final => ?_
  refine .since fun range => .pure ?_
  exact congrArg (fun e => Stmt.ifThen ⟨_, _, e, _, _⟩) (nestClauses_respell ..)

theorem ifStatement_reads : Blind .stmt (ifStatement rules) := by
  refine .here fun start => ?_
  refine take_reads.bind fun _ => ?_
  refine h.expr.bind fun condition => ?_
  refine .accepting (fun _ => .look fun t => .ite ?_ (lineIfTail_reads h start)) ?_
  · exact separator_reads.bind fun _ => blockIfTail_reads h start
  · exact separator_reads.bind fun _ => blockIfTail_reads h start

/-! ## Loops and handlers -/

theorem stepClause?_reads : Blind Reading.expr.option (stepClause? rules) := by
  exact .accepting (fun _ => h.expr.bind fun e => .pure rfl) (.pure rfl)

theorem forStatement_reads : Blind .stmt (forStatement rules) := by
  refine .here fun start => ?_
  refine take_reads.bind fun _ => ?_
  refine (assignment_reads h).bind fun counter => ?_
  refine expect_reads.bind fun _ => ?_
  refine h.expr.bind fun limit => ?_
  refine (stepClause?_reads h).bind fun stride => ?_
  refine separator_reads.bind fun _ => ?_
  refine h.block.bind fun body => ?_
  refine expect_reads.bind fun _ => ?_
  refine .since fun range => .pure ?_
  exact congrArg (Stmt.forTo _ _ · _ _) (Expr.respell?_eq _ stride).symm

theorem forEachStatement_reads : Blind .stmt (forEachStatement rules) := by
  refine .here fun start => ?_
  refine take_reads.bind fun _ => ?_
  refine expect_reads.bind fun item => ?_
  refine expect_reads.bind fun _ => ?_
  refine h.expr.bind fun target => ?_
  refine separator_reads.bind fun _ => ?_
  refine h.block.bind fun body => ?_
  refine expect_reads.bind fun _ => ?_
  exact .since fun range => .pure rfl

theorem whileStatement_reads : Blind .stmt (whileStatement rules) := by
  refine .here fun start => ?_
  refine take_reads.bind fun _ => ?_
  refine h.expr.bind fun condition => ?_
  refine separator_reads.bind fun _ => ?_
  refine h.block.bind fun body => ?_
  refine expect_reads.bind fun _ => ?_
  exact .since fun range => .pure rfl

theorem catchClause_reads : Blind .catch (catchClause rules) := by
  refine expect_reads.bind fun keyword => ?_
  refine accept?_reads.bind fun caught => ?_
  refine separator_reads.bind fun _ => ?_
  refine h.block.bind fun body => ?_
  refine .since fun range => .pure ?_
  cases caught <;> rfl

theorem tryStatement_reads : Blind .stmt (tryStatement rules) := by
  refine .here fun start => ?_
  refine take_reads.bind fun _ => ?_
  refine separator_reads.bind fun _ => ?_
  refine h.block.bind fun body => ?_
  refine (catchClause_reads h).bind fun handler => ?_
  refine expect_reads.bind fun _ => ?_
  exact .since fun range => .pure rfl

/-! ## Blocks -/

theorem statement_reads : Blind .stmt (statement rules) := by
  refine .look fun t => ?_
  split
  · exact ifStatement_reads h
  · exact forStatement_reads h
  · exact forEachStatement_reads h
  · exact whileStatement_reads h
  · exact tryStatement_reads h
  · exact labelStatement_reads
  · exact simpleStatement_reads h

omit h in
theorem lineOf?_reads {r : Reading α} {item : Parser α} (starts : Terminal → Bool)
    (each : Blind r item) : Blind r.option.option (lineOf? starts item) := by
  refine .look fun t => ?_
  cases t with
  | none => exact .pure rfl
  | some t =>
    refine .ite ?_ (.ite ?_ ?_)
    · exact separator_reads.bind fun _ => .pure rfl
    · refine each.bind fun a => ?_
      exact separator_reads.bind fun _ => .pure rfl
    · exact .pure rfl

omit h in
theorem linesOf_reads {r : Reading α} {item : Parser α} (starts : Terminal → Bool)
    (each : Blind r item) : Blind r.list (linesOf starts item) := by
  refine (collect_reads (lineOf?_reads starts each)).bind fun lines => ?_
  exact .pure (filterMap_id_map r lines)

theorem blockLines_reads : Blind .block (blockLines rules) := by
  refine .here fun start => ?_
  refine .cursor fun c => ?_
  refine (linesOf_reads startsStatement (statement_reads h)).bind fun statements => ?_
  refine .cursor fun c' => ?_
  have same (c : Cursor) : c.uncase.rest.length = c.rest.length := length_map ..
  rw [same, same]
  refine .ite (.pure rfl) ?_
  refine .since fun range => .pure ?_
  exact congrArg (Block.mk · range) (Stmt.respellAll_eq _ statements).symm

end

/-! ## Closing the circle -/

/-- All rules read without case, if the expressions embedded in templates do. -/
theorem rulesUpTo_alike {embedded : Token → Option (List Expr)}
    (alike : ∀ token, embedded token.uncase =
      (embedded token).map (List.map (Expr.respell .uncase))) (n : Nat) :
    (rulesUpTo embedded n).Alike := by
  induction n with
  | zero => exact ⟨.refuse, .refuse, alike⟩
  | succ n ih => exact ⟨conditional_reads ih, blockLines_reads ih, alike⟩

end ChannelLint.Parser
