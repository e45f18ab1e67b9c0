import ChannelLint.Proofs.Spans.Expressions

/-!
# Where statements and blocks stand

Every rule for statements reads one that spans the tokens it takes. A compound assignment is kept as
an assignment of an operation on the old value: the operation ranges over the whole statement, and
the target stands in it. The branches of an `if` are nested in each other and all end where the last
one ends.
-/
namespace ChannelLint.Parser

open List

variable {α : Type} {t : String} {hi : Position} {c c' : Cursor} {m : Bool} {κ : α → List Part}

abbrev ReadsStmt (t : String) (hi : Position) : Parser Stmt → Prop :=
  ReadsPart t hi .stmt

/-! ## Assignments -/

theorem assignOp?_keeps : Keeps t hi false (fun _ => []) assignOp? := by
  refine .of_spans fun _ => .look fun kind => ?_
  split
  · exact take_keeps.skip fun _ => .loosened rfl
  · exact take_keeps.skip fun _ => .loosened rfl
  · exact .kept rfl

section

variable {rules : Rules} {c₀ c₁ c₂ : Cursor}

/-- A compound assignment stores an operation on the old value of its target. -/
theorem compound_spans {s : Stmt} {old right : Expr} {op : BinaryOp}
    (reads : c₀.Reads t hi m old.parts c')
    (stored : (Expr.binary old op right ⟨c₀.start, c'.reached⟩).Spans t hi c₀ c')
    (range : s.range = ⟨c₀.start, c'.reached⟩)
    (isCompound : s.compound? = some (.binary old op right ⟨c₀.start, c'.reached⟩))
    (noFunction : ∀ f, old ≠ .function f)
    (parts : s.parts = old.parts ++ [.expr (.binary old op right ⟨c₀.start, c'.reached⟩)]) :
    s.Spans t hi c₀ c' := by
  refine stored.reads.spans range (.of_between range (stored.reads.forward rfl) ?_ nofun ?_ ?_)
  · rw [Part.parts, parts]
    exact forall_mem_append.2 ⟨reads.held, stored.reads.held⟩
  · intro value isValue
    rw [isCompound] at isValue
    cases isValue
    exact ⟨old, op, right, _, rfl, noFunction, parts⟩
  · simp only [Part.line, isCompound, Option.elim]
    exact pairwise_singleton _ _

variable (placed : rules.Placed t hi)

include placed

theorem assignTail_spans {name : Ident} (named : (Part.ident name).Spans t hi c₀ c₁)
    (behind : c₁.Reads t hi m [] c) (op : AssignOp) :
    SpansAt (fun a c' => (Stmt.assign a).Spans t hi c₀ c') (assignTail rules name op) c := by
  refine (placed.expr c behind.stands).bind fun value c' isValue => ?_
  have start : name.range.start = c₀.start := named.start
  rw [start]
  refine .since (.pure ?_)
  have target := named.reads.skip behind
  cases op with
  | none =>
    exact (target.trans isValue.reads).node rfl
      (congrArg Option.isNone (if_neg (isValue.range_ne target _)))
  | some op =>
    have stored : (Expr.binary (.var name false) op value ⟨c₀.start, c'.reached⟩).Spans t hi c₀ c' :=
      (((var_spans named false).reads.skip behind).trans isValue.reads).node rfl rfl
    exact compound_spans (target.skip isValue.reads) stored rfl (if_pos rfl) nofun rfl

theorem assignment_spans (stands : c.Stands t hi) :
    SpansAt (fun a c' => (Stmt.assign a).Spans t hi c c') (assignment rules) c := by
  refine (expect_spans .name stands).bind fun name c₁ ⟨taken, isName⟩ => ?_
  refine (assignOp?_keeps c₁ taken.reads.stands).bind fun op c₂ behind => ?_
  cases op with
  | none => exact .refuse
  | some op => exact assignTail_spans placed (taken.named (.inl isName)) behind op

omit placed in
/-- What a compound assignment to an item makes up for the old value ends with the key. -/
theorem index_between {object key : Expr} (isObject : object.Spans t hi c₀ c₁)
    (isKey : c₁.Reads t hi m [.expr key] c₂) :
    (Part.expr (.index object key (.cover object.range key.range))).Between t c₀.start c₂.reached := by
  have both := isObject.reads.trans isKey
  have key' := isKey.held _ mem_cons_self
  obtain bare | inside := key'.placed
  · exact bare.elim
  have start : object.range.start = c₀.start := isObject.start
  have stop : object.range.stop = c₁.reached := isObject.stop
  have keyForward : key.range.start ≤ key.range.stop := key'.asRead.here.forward
  have between : c₁.reached ≤ key.range.start :=
    isObject.reads.stands.reached_le_start.trans inside.start
  have forward : c₀.start < key.range.start := (isObject.reads.forward rfl).trans_le between
  rw [Range.cover, start]
  refine ⟨.of_row rfl (forward.trans_le keyForward) (forall_mem_cons.2 ⟨⟨isObject.asRead, .inr
    ⟨start.ge, stop ▸ between.trans keyForward⟩⟩, forall_mem_singleton.2 ⟨key'.asRead, .inr
      ⟨forward.le, le_refl _⟩⟩⟩) both.row nofun trivial rfl, .inr ⟨le_refl _, inside.stop⟩⟩

theorem storeTail_spans {object : Expr} {last : Suffix} (isObject : object.Spans t hi c₀ c₁)
    (isLast : last.Spans t hi c₁ c₂) (behind : c₂.Reads t hi m [] c) (op : AssignOp) :
    SpansAt (fun s c' => s.Spans t hi c₀ c') (storeTail rules object last op) c := by
  refine (placed.expr c behind.stands).bind fun value c' isValue => ?_
  have start : object.range.start = c₀.start := isObject.start
  rw [start]
  refine .since ?_
  have target := (isObject.reads.trans isLast.reads).skip behind
  have later := isValue.range_ne target
  -- An operation on the old value, wherever that ends in the target.
  have stored {old : Expr} (op : BinaryOp) (isOld : c₀.Reads t hi true [.expr old] c₂) :
      (Expr.binary old op value ⟨c₀.start, c'.reached⟩).Spans t hi c₀ c' :=
    ((isOld.skip behind).trans isValue.reads).node rfl rfl
  cases last with
  | field plain name =>
    refine .pure ?_
    cases op with
    | none =>
      exact (target.trans isValue.reads).node rfl (congrArg Option.isNone (if_neg (later _)))
    | some op =>
      have old := (Suffix.apply_spans isObject isLast).reads
      exact compound_spans (target.skip isValue.reads) (stored op old) rfl (if_pos rfl) nofun rfl
  | item key stop =>
    refine .pure ?_
    cases op with
    | none =>
      exact (target.trans isValue.reads).node rfl (congrArg Option.isNone (if_neg (later _)))
    | some op =>
      have old := (isObject.reads.trans isLast.reads).part (index_between isObject isLast.reads)
      exact compound_spans (target.skip isValue.reads) (stored op old) rfl (if_pos rfl) nofun rfl
  | call args stop => exact .refuse

theorem bareTail_spans {first : Expr} (spans : first.Spans t hi c₀ c) :
    SpansAt (fun s c' => s.Spans t hi c₀ c') (bareTail rules first) c := by
  cases first with
  | var name called =>
    refine (assignOp?_keeps c spans.reads.stands).bind fun op c₁ behind => ?_
    cases op with
    | none => exact .refuse
    | some op =>
      exact (assignTail_spans placed (ident_spans_of_var spans) behind op).bind
        fun a c' isAssign => .pure isAssign
  | _ => exact .refuse

theorem suffixTail_spans {object : Expr} {last : Suffix} (isObject : object.Spans t hi c₀ c₁)
    (isLast : last.Spans t hi c₁ c) :
    SpansAt (fun s c' => s.Spans t hi c₀ c') (suffixTail rules object last) c := by
  have store : SpansAt (fun s c' => s.Spans t hi c₀ c')
      (assignOp? >>= storeOr rules object last) c := by
    refine (assignOp?_keeps c isLast.reads.stands).bind fun op c₃ behind => ?_
    cases op with
    | none => exact .refuse
    | some op => exact storeTail_spans placed isObject isLast behind op
  cases last with
  | field plain name =>
    cases plain with
    | false => exact .refuse
    | true => exact store
  | item key stop => exact store
  | call args stop =>
    have call := Suffix.apply_spans isObject isLast
    exact .pure (call.reads.node call.range rfl)

omit placed in
/-- The last item of a row, and the row in front of it. -/
theorem Row.unsnoc {R : Cursor → α → Cursor → Prop} {as : List α} {a : α}
    (row : Row R c (as ++ [a]) c') : ∃ d, Row R c as d ∧ R d a c' := by
  induction as generalizing c with
  | nil =>
    obtain _ | ⟨item, rest⟩ := row
    cases rest
    exact ⟨c, .nil c, item⟩
  | cons first as ih =>
    obtain _ | ⟨item, rest⟩ := row
    obtain ⟨d, front, last⟩ := ih rest
    exact ⟨d, .cons item front, last⟩

theorem operandStatement_spans : ReadsStmt t hi (operandStatement rules) := by
  intro c stands
  refine (atom_spans placed c stands).bind fun first c₁ isFirst => ?_
  refine (collect_row (fun _ => suffix?_spans placed) (·.reads.stands) isFirst.reads.stands).bind
    fun suffixes c₂ ⟨row, stands₂⟩ => ?_
  refine (accept?_spans .incOp stands₂).bind fun found c₃ post => ?_
  obtain ⟨rfl, rfl⟩ | ⟨k, rfl, -, taken⟩ := post
  · rcases suffixes.eq_nil_or_concat' with rfl | ⟨front, last, rfl⟩
    · cases row
      exact bareTail_spans placed isFirst
    · obtain ⟨d, before, isLast⟩ := row.unsnoc
      rw [getLast?_concat, dropLast_concat]
      exact suffixTail_spans placed (foldl_apply_spans isFirst before) isLast
  · have target := foldl_apply_spans isFirst row
    exact .pure ((target.reads.skip taken.reads).node
      (congrArg₂ Range.mk target.start (congrArg Range.stop taken.range)) rfl)

/-! ## Simple statements -/

omit placed in
theorem flatMap_filterMap_id (as : List (Option α)) :
    (as.filterMap id).flatMap κ = as.flatMap (parts? κ) := by
  induction as with
  | nil => rfl
  | cons a as ih =>
    cases a with
    | none => exact ih
    | some a => exact congrArg (κ a ++ ·) ih

theorem printItem?_keeps :
    Keeps t hi false (parts? (parts? fun e => [.expr e])) (printItem? rules) := by
  refine .of_spans fun _ => .look fun kind => ?_
  split
  · exact take_keeps.skip fun _ => (expr?_keeps placed).next fun _ => .loosened rfl
  · exact take_keeps.skip fun _ => (expr?_keeps placed).next fun _ => .loosened rfl
  · exact .kept rfl

theorem printStatement_spans : ReadsStmt t hi (printStatement rules) := by
  refine fun c stands => .here (.start stands (take_keeps.skip fun _ =>
    (expr?_keeps placed).next fun first => ?_))
  cases first with
  | none => exact .since fun _ reads => .pure (reads.node rfl rfl)
  | some first =>
    refine (collect_keeps (printItem?_keeps placed)).next fun more => .since fun _ reads => .pure ?_
    rw [← flatMap_filterMap_id, ← map_eq_flatMap] at reads
    exact reads.node rfl rfl

omit placed in
/-- The name of a label is its text without the colon. -/
theorem label_ident_between {k : Token} (taken : Taken t hi c c' k) (isLabel : k.terminal = .label) :
    (Part.ident ⟨String.ofList k.text.toList.dropLast, ⟨k.range.start,
      ⟨k.range.stop.line, k.range.stop.column - 1⟩⟩⟩).Between t c.start c'.reached := by
  obtain ⟨name, text, segment⟩ := taken.stands.label isLabel
  obtain ⟨before, behind, split, range⟩ := taken.stands.place
  rw [text, ← append_assoc] at range split
  have stop : Position.zero.after (before ++ name ++ [':']) =
      (Position.zero.after (before ++ name)).next ':' := Position.after_append ..
  have column : (⟨k.range.stop.line, k.range.stop.column - 1⟩ : Position) =
      Position.zero.after (before ++ name) := by
    rw [range, stop]
    rfl
  have start : k.range.start = Position.zero.after before := congrArg Range.start range
  have forward : Position.zero.after before < Position.zero.after (before ++ name) := by
    rw [Position.after_append]
    exact Position.lt_after _ fun empty => segment.nonempty (by rw [empty])
  have stands : StandsIn t ⟨String.ofList name, ⟨Position.zero.after before,
      Position.zero.after (before ++ name)⟩⟩ := by
    refine .of_place before ([':'] ++ behind) ?_ ?_ segment.nonempty segment.isName
    · rw [String.toList_ofList, split, append_assoc]
    · rw [String.toList_ofList]
  rw [column, start, text, dropLast_concat]
  refine ⟨.of_row rfl forward nofun .nil ?_ stands rfl, .inr ⟨?_, ?_⟩⟩
  · rintro _ ⟨⟩
    exact stands.text
  · exact (taken.start.symm.trans start).le
  · have reached : k.range.stop = c'.reached := congrArg Range.stop taken.range
    rw [← reached, range, stop]
    exact Position.le_next _ _

omit placed in
theorem labelStatement_spans (stands : c.Stands t hi) (isNext : c.next? = some .label) :
    SpansAt (fun s c' => s.Spans t hi c c') labelStatement c := by
  refine (take_spans stands).bind fun k c₁ taken => .pure ?_
  have isLabel : k.terminal = .label := Option.some.inj (taken.isNext.symm.trans isNext)
  exact (taken.reads.part (label_ident_between taken isLabel)).node taken.range rfl

theorem dimStatement_spans : ReadsStmt t hi (dimStatement rules) :=
  fun _ stands => .here (.start stands (take_keeps.skip fun _ => name_keeps.next fun _ =>
    expect_keeps.skip fun _ => (commaList_keeps placed.expr.keeps).map.next fun _ =>
      expect_keeps.skip fun _ => .since fun _ reads => .pure (reads.node rfl rfl)))

theorem simpleStatement_spans : ReadsStmt t hi (simpleStatement rules) := by
  refine fun c stands => .here (.look ?_)
  split
  · exact printStatement_spans placed c stands
  · exact printStatement_spans placed c stands
  · exact .start stands (take_keeps.skip fun _ => .since fun _ reads => .pure (reads.node rfl rfl))
  · exact .start stands (take_keeps.skip fun _ => .since fun _ reads => .pure (reads.node rfl rfl))
  · exact .start stands (take_keeps.skip fun _ => (expr?_keeps placed).option.next fun _ =>
      .since fun _ reads => .pure (reads.node rfl rfl))
  · exact .start stands (take_keeps.skip fun _ => placed.expr.keeps.next fun _ =>
      .since fun _ reads => .pure (reads.node rfl rfl))
  · exact .start stands (take_keeps.skip fun _ => name_keeps.next fun _ =>
      .since fun _ reads => .pure (reads.node rfl rfl))
  · exact .start stands (take_keeps.skip fun _ => .since fun _ reads => .pure (reads.node rfl rfl))
  · exact .start stands (take_keeps.skip fun _ => .since fun _ reads => .pure (reads.node rfl rfl))
  · exact dimStatement_spans placed c stands
  · exact operandStatement_spans placed c stands

/-! ## Branches -/

/-- The parts of a condition with what follows it. -/
def Clause.parts (clause : Clause) : List Part :=
  [.expr clause.condition, .block clause.body]

/-- A clause that begins at a cursor. -/
structure Clause.Opens (t : String) (hi : Position) (c c' : Cursor) (clause : Clause) : Prop where
  start : clause.start = c.start
  reads : c.Reads t hi true clause.parts c'

omit placed in
/-- The clauses behind an `if` all end with the last one. -/
theorem nestClauses_reads {final : Else} {clauses : List Clause} (inline : Bool)
    (row : Row (fun c clause c' => Clause.Opens t hi c c' clause) c clauses c₁)
    (isFinal : c₁.Reads t hi false final.parts c') :
    c.Reads t hi false (nestClauses inline c'.reached final clauses).parts c' := by
  induction row with
  | nil => exact isFinal
  | @cons c c₂ c₁ clause clauses opens _ ih =>
    have branch : (Stmt.ifThen ⟨clause.condition, clause.body,
        nestClauses inline c'.reached final clauses, ⟨clause.start, c'.reached⟩, inline⟩).Spans
          t hi c c' :=
      (opens.reads.trans (ih isFinal)).node (congrArg (Range.mk · c'.reached) opens.start) rfl
    exact branch.reads.loosen

omit placed in
theorem elseIfClause?_spans {clause : Position → Parser Clause}
    (reads : ∀ start c, c.Stands t hi → SpansAt (fun clause c' =>
      clause.start = start ∧ c.Reads t hi true clause.parts c') (clause start) c)
    (stands : c.Stands t hi) :
    SpansAt (StepPost (fun c clause c' => Clause.Opens t hi c c' clause) c)
      (elseIfClause? clause) c := by
  refine (accept?_spans .elseIf stands).bind fun found c₁ post => ?_
  obtain ⟨rfl, same⟩ | ⟨k, rfl, -, taken⟩ := post
  · exact .pure same
  · exact (reads _ c₁ taken.reads.stands).bind fun clause c₂ ⟨start, own⟩ =>
      .pure ⟨start.trans taken.start, taken.reads.trans own⟩

omit placed in
theorem elseClause?_keeps {body : Parser Block} (keeps : Keeps t hi m (fun b => [.block b]) body) :
    Keeps t hi false Else.parts (elseClause? body) :=
  .of_spans fun _ => .accept? .kwElse (.kept rfl)
    fun _ => keeps.next fun _ => .loosened rfl

theorem blockClause_spans (start : Position) (stands : c.Stands t hi) :
    SpansAt (fun clause c' => clause.start = start ∧ c.Reads t hi true clause.parts c')
      (blockClause rules start) c :=
  .start stands (placed.expr.keeps.next fun _ => accept?_keeps.skip fun _ =>
    separator_keeps.skip fun _ => placed.block.next fun _ => .pure fun _ reads => ⟨rfl, reads⟩)

theorem lineBlock_keeps : Keeps t hi true (fun b => [.block b]) (lineBlock rules) := by
  refine fun c stands => (simpleStatement_spans placed c stands).bind fun s c₁ spans => .pure ?_
  have block : (Part.block ⟨[s], s.range⟩).Spans t hi c c₁ := spans.reads.node spans.range rfl
  exact block.reads

theorem lineClause_spans (start : Position) (stands : c.Stands t hi) :
    SpansAt (fun clause c' => clause.start = start ∧ c.Reads t hi true clause.parts c')
      (lineClause rules start) c :=
  .start stands (placed.expr.keeps.next fun _ => expect_keeps.skip fun _ =>
    (lineBlock_keeps placed).next fun _ => .pure fun _ reads => ⟨rfl, reads⟩)

theorem blockIfTail_spans (condition : Expr) :
    SpansFrom t hi c₀ true [.expr condition] (fun s c' => s.Spans t hi c₀ c')
      (blockIfTail rules c₀.start condition) := by
  refine placed.block.next fun body c₁ reads => ?_
  refine (collect_row (fun _ => elseIfClause?_spans fun start _ => blockClause_spans placed start)
    (·.reads.stands) reads.stands).bind fun clauses c₂ ⟨row, stands₂⟩ => ?_
  refine (elseClause?_keeps placed.block c₂ stands₂).bind fun final c₃ isFinal => .cursor ?_
  have whole := reads.trans (nestClauses_reads false row isFinal)
  exact (expect_keeps c₃ whole.stands).bind fun _ c₄ closes =>
    .since (.pure ((whole.skip closes).node rfl rfl))

theorem lineIfTail_spans (condition : Expr) :
    SpansFrom t hi c₀ true [.expr condition] (fun s c' => s.Spans t hi c₀ c')
      (lineIfTail rules c₀.start condition) := by
  refine (lineBlock_keeps placed).next fun body c₁ reads => ?_
  refine (collect_row (fun _ => elseIfClause?_spans fun start _ => lineClause_spans placed start)
    (·.reads.stands) reads.stands).bind fun clauses c₂ ⟨row, stands₂⟩ => ?_
  refine (elseClause?_keeps (lineBlock_keeps placed) c₂ stands₂).bind fun final c₃ isFinal => ?_
  exact .since (.pure ((reads.trans (nestClauses_reads true row isFinal)).node rfl rfl))

theorem ifStatement_spans : ReadsStmt t hi (ifStatement rules) := by
  refine fun c stands => .here (.start stands (take_keeps.skip fun _ =>
    placed.expr.keeps.next fun condition => .accept? .kwThen ?_ fun _ => .look fun kind => ?_))
  · exact separator_keeps.skip fun _ => blockIfTail_spans placed condition
  · split
    · exact separator_keeps.skip fun _ => blockIfTail_spans placed condition
    · exact lineIfTail_spans placed condition

/-! ## Loops and handlers -/

theorem forStatement_spans : ReadsStmt t hi (forStatement rules) := by
  have counter : Keeps t hi true (fun a => [.stmt (.assign a)]) (assignment rules) :=
    fun c stands => (assignment_spans placed stands).mono fun _ _ spans => spans.reads
  have stepClause : Keeps t hi false (fun e => e.toList.map .expr) (stepClause? rules) :=
    (behind_keeps .kwStep placed.expr.keeps).option
  exact fun c stands => .here (.start stands (take_keeps.skip fun _ => counter.next fun _ =>
    expect_keeps.skip fun _ => placed.expr.keeps.next fun _ => stepClause.next fun _ =>
      separator_keeps.skip fun _ => placed.block.next fun _ => expect_keeps.skip fun _ =>
        .since fun _ reads => .pure (reads.node rfl rfl)))

theorem forEachStatement_spans : ReadsStmt t hi (forEachStatement rules) :=
  fun _ stands => .here (.start stands (take_keeps.skip fun _ => name_keeps.next fun _ =>
    expect_keeps.skip fun _ => placed.expr.keeps.next fun _ => separator_keeps.skip fun _ =>
      placed.block.next fun _ => expect_keeps.skip fun _ =>
        .since fun _ reads => .pure (reads.node rfl rfl)))

theorem whileStatement_spans : ReadsStmt t hi (whileStatement rules) :=
  fun _ stands => .here (.start stands (take_keeps.skip fun _ => placed.expr.keeps.next fun _ =>
    separator_keeps.skip fun _ => placed.block.next fun _ => expect_keeps.skip fun _ =>
      .since fun _ reads => .pure (reads.node rfl rfl)))

theorem catchClause_keeps : Keeps t hi true (fun h => [.handler h]) (catchClause rules) := by
  have caught : Keeps t hi false (fun k => (k.map ident).toList.map .ident) (accept? .name) := by
    refine fun c stands => (accept?_spans .name stands).mono fun found c' post => ?_
    obtain ⟨rfl, rfl⟩ | ⟨k, rfl, isName, taken⟩ := post
    · exact .refl stands
    · exact (taken.named (.inl isName)).reads.loosen
  refine fun c stands => (expect_spans _ stands).bind fun keyword c₁ ⟨opens, _⟩ => ?_
  refine .start opens.reads.stands ?_
  refine caught.next fun found => separator_keeps.skip fun _ => placed.block.next fun body =>
    .since fun c₂ reads => .pure ?_
  have whole := opens.reads.trans reads
  have range : (⟨keyword.range.start, c₂.reached⟩ : Range) = ⟨c.start, c₂.reached⟩ :=
    congrArg (Range.mk · c₂.reached) opens.start
  have handler : (Part.handler ⟨found.map ident, body, ⟨keyword.range.start, c₂.reached⟩⟩).Spans
      t hi c c₂ := by
    refine whole.spans range (.of_row range (whole.forward rfl) whole.held whole.row nofun
      (fun q member => ?_) rfl)
    exact (reads.held q member).placed.imp_right fun inside => opens.start ▸
      ((opens.reads.forward rfl).trans_le opens.reads.stands.reached_le_start).trans_le inside.start
  exact handler.reads

theorem tryStatement_spans : ReadsStmt t hi (tryStatement rules) :=
  fun _ stands => .here (.start stands (take_keeps.skip fun _ => separator_keeps.skip fun _ =>
    placed.block.next fun _ => (catchClause_keeps placed).next fun _ => expect_keeps.skip fun _ =>
      .since fun _ reads => .pure (reads.node rfl rfl)))

/-! ## Blocks -/

theorem statement_spans : ReadsStmt t hi (statement rules) := by
  intro c stands
  refine .look ?_
  split
  · exact ifStatement_spans placed c stands
  · exact forStatement_spans placed c stands
  · exact forEachStatement_spans placed c stands
  · exact whileStatement_spans placed c stands
  · exact tryStatement_spans placed c stands
  · next isNext => exact labelStatement_spans stands isNext
  · exact simpleStatement_spans placed c stands

omit placed in
theorem linesOf_keeps (starts : Terminal → Bool) {item : Parser α} (keeps : Keeps t hi m κ item) :
    Keeps t hi false (List.flatMap κ) (linesOf starts item) := by
  have line : Keeps t hi false (parts? (parts? κ)) (lineOf? starts item) := by
    refine .of_spans fun _ => .look fun kind => ?_
    split
    · split
      · exact separator_keeps.skip fun _ => .loosened rfl
      · split
        · exact keeps.next fun _ => separator_keeps.skip fun _ => .loosened rfl
        · exact .kept rfl
    · exact .kept rfl
  exact .of_spans fun _ => (collect_keeps line).next fun as => .pure fun _ reads => by
    rwa [flatMap_filterMap_id]

theorem blockLines_keeps : Keeps t hi false (fun b => [.block b]) (blockLines rules) := by
  refine fun c stands => .here (.cursor ?_)
  refine ((linesOf_keeps startsStatement (statement_spans placed).keeps).map c stands).bind
    fun statements c' reads => .cursor ?_
  split
  · refine .pure (reads.part ⟨.intro ⟨⟨le_refl _, nofun, ?_, nofun⟩, trivial, .nil,
      .inl ⟨rfl, rfl⟩⟩ nofun, .inl ⟨rfl, rfl⟩⟩)
    rintro _ ⟨⟩
    exact .nil
  · next differs =>
    have moved := reads.moved fun same => differs (congrArg List.length same)
    have block : (Part.block ⟨statements, ⟨c.start, c'.reached⟩⟩).Spans t hi c c' :=
      moved.node rfl rfl
    exact .since (.pure block.reads.loosen)

end

/-- All rules place what they read, if what is embedded in templates is placed. -/
theorem rulesUpTo_placed {embedded : Token → Option (List Expr)}
    (inside : ∀ k parts, k.Stands t → embedded k = some parts →
      (∀ e ∈ parts, (Part.expr e).Between t k.range.start k.range.stop) ∧
        (parts.map .expr).Pairwise Part.Before) (n : Nat) : (rulesUpTo embedded n).Placed t hi := by
  induction n with
  | zero => exact ⟨fun _ _ => .refuse, fun _ _ => .refuse, inside⟩
  | succ n ih => exact ⟨conditional_spans ih, blockLines_keeps ih, inside⟩

end ChannelLint.Parser
