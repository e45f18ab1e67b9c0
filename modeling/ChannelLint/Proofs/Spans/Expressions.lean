import ChannelLint.Proofs.Spans.Cursor

/-!
# Where expressions stand

Every rule for expressions reads one that spans the tokens it takes, if the rules that it may call
again do. What is joined afterwards, from operands and operators or from an operand and what follows
it, begins with its first operand and ends with the last token that was taken.
-/
namespace ChannelLint.Parser

variable {α : Type} {t : String} {hi : Position} {c c' c₀ c₁ : Cursor} {m : Bool} {κ : α → List Part}

abbrev ReadsExpr (t : String) (hi : Position) : Parser Expr → Prop :=
  ReadsPart t hi .expr

/-- What is asked of the rules that other rules may call again. -/
structure Rules.Placed (t : String) (hi : Position) (rules : Rules) : Prop where
  expr : ReadsExpr t hi rules.expr
  block : Keeps t hi false (fun b => [.block b]) rules.block
  embedded : ∀ k parts, k.Stands t → rules.embedded k = some parts →
    (∀ e ∈ parts, (Part.expr e).Between t k.range.start k.range.stop) ∧
      (parts.map .expr).Pairwise Part.Before

/-! ## Repetition -/

theorem accept?_keeps {kind : Terminal} : Keeps t hi false (parts? fun _ => []) (accept? kind) := by
  refine fun c stands => (accept?_spans kind stands).mono fun found c' post => ?_
  obtain ⟨rfl, rfl⟩ | ⟨k, rfl, -, taken⟩ := post
  · exact .refl stands
  · exact taken.reads.loosen

theorem skipMany_keeps {kind : Terminal} : Keeps t hi false (fun _ => []) (skipMany kind) :=
  .of_spans fun _ => (collect_keeps accept?_keeps).skip fun _ => .kept rfl

/-- Something behind a token that may be missing. -/
theorem behind_keeps (kind : Terminal) {item : Parser α} (keeps : Keeps t hi m κ item) :
    Keeps t hi false (parts? κ) (do
      match ← accept? kind with
      | some _ => return some (← item)
      | none => return none) :=
  .of_spans fun _ => .accept? kind (.kept rfl)
    fun _ => keeps.next fun _ => .loosened rfl

theorem Keeps.map {κ : α → Part} {p : Parser (List α)}
    (keeps : Keeps t hi m (List.flatMap fun a => [κ a]) p) : Keeps t hi m (List.map κ) p :=
  fun c stands => (keeps c stands).mono fun _ _ reads => by rwa [List.map_eq_flatMap]

theorem Keeps.option {κ : α → Part} {p : Parser (Option α)}
    (keeps : Keeps t hi m (parts? fun a => [κ a]) p) :
    Keeps t hi m (fun found => found.toList.map κ) p :=
  fun c stands => (keeps c stands).mono fun found _ reads => by cases found <;> exact reads

/-! ## Operators -/

theorem operatorTail?_spans (ops : List BinaryOp) {operand : Parser Expr}
    (reads : ReadsExpr t hi operand) (stands : c.Stands t hi) :
    SpansAt (StepPost (fun c tail c' => c.Reads t hi true [.expr tail.2] c' ∧
      tail.2.range.stop = c'.reached) c) (operatorTail? ops operand) c := by
  refine .peek ?_
  split
  · split
    · refine (take_spans stands).bind fun _ c₁ taken => ?_
      exact (reads c₁ taken.reads.stands).bind fun e c₂ spans =>
        .pure ⟨taken.reads.trans spans.reads, spans.stop⟩
    · exact .pure rfl
  · exact .pure rfl

theorem leftChain_spans (ops : List BinaryOp) {operand : Parser Expr}
    (reads : ReadsExpr t hi operand) : ReadsExpr t hi (leftChain ops operand) := by
  intro c stands
  refine (reads c stands).bind fun first c₁ spans => ?_
  refine (collect_row (fun _ => operatorTail?_spans ops reads) (·.1.stands)
    spans.reads.stands).bind fun tails c₂ ⟨row, _⟩ => .pure ?_
  refine row.foldl (Q := fun e d => Expr.Spans t hi c d e) spans fun left tail d d' isLeft item => ?_
  exact (isLeft.reads.trans item.1).node (congrArg₂ Range.mk isLeft.start item.2) rfl

theorem levels_spans {operand : Parser Expr} (reads : ReadsExpr t hi operand)
    (ops : List (List BinaryOp)) : ReadsExpr t hi (levels operand ops) := by
  induction ops with
  | nil => exact reads
  | cons ops tighter ih => exact leftChain_spans ops ih

theorem prefixed_spans (kind : Terminal) {operand : Parser Expr} (reads : ReadsExpr t hi operand) :
    ReadsExpr t hi (prefixed kind operand) := by
  intro c stands
  have sign (c : Cursor) (stands : c.Stands t hi) :
      SpansAt (StepPost (fun c k c' => Taken t hi c c' k) c) (accept? kind) c := by
    refine (accept?_spans kind stands).mono fun found c' post => ?_
    obtain ⟨rfl, same⟩ | ⟨k, rfl, -, taken⟩ := post
    · exact same
    · exact taken
  refine (collect_row sign (·.reads.stands) stands).bind fun signs c₁ post => ?_
  obtain ⟨row, stands₁⟩ := post
  refine (reads c₁ stands₁).bind fun e c₂ spans => .pure ?_
  clear sign stands stands₁
  -- From the last sign to the first one, each stands in front of what was read behind it.
  induction row with
  | nil => exact spans
  | cons taken _ ih =>
    have operand := ih spans
    exact (taken.reads.trans operand.reads).node (congrArg₂ Range.mk taken.start operand.stop) rfl

/-! ## Lists -/

theorem listSeparator?_keeps : Keeps t hi false (fun _ => []) listSeparator? := by
  refine .of_spans fun _ => .look fun kind => ?_
  split
  · exact take_keeps.skip fun _ => skipMany_keeps.skip fun _ => .loosened rfl
  · exact skipMany_keeps.skip fun _ => .kept rfl
  · exact .kept rfl

theorem listItem?_keeps (close : Terminal) {item : Parser α} (keeps : Keeps t hi m κ item) :
    Keeps t hi false (parts? κ) (listItem? close item) := by
  refine .of_spans fun _ => .look fun kind => ?_
  split
  · exact .kept rfl
  · refine listSeparator?_keeps.skip fun found => ?_
    split
    · refine .look fun kind => ?_
      split
      · exact .kept rfl
      · exact keeps.next fun _ => .loosened rfl
    · exact .refuse

theorem listUpTo_keeps (close : Terminal) {item : Parser α} (keeps : Keeps t hi m κ item) :
    Keeps t hi false (List.flatMap κ) (listUpTo close item) := by
  refine .of_spans fun _ => skipMany_keeps.skip fun _ => .look fun kind => ?_
  split
  · exact take_keeps.skip fun _ => .loosened rfl
  · exact keeps.next fun first => (collect_keeps (listItem?_keeps close keeps)).next
      fun more => expect_keeps.skip fun _ => .loosened rfl

theorem commaList_keeps {item : Parser α} (keeps : Keeps t hi m κ item) :
    Keeps t hi false (List.flatMap κ) (commaList item) :=
  .of_spans fun _ => keeps.next fun _ => (collect_keeps (behind_keeps .comma keeps)).next
    fun _ => .loosened rfl

/-! ## Functions -/

theorem separator_keeps : Keeps t hi true (fun _ => []) separator := by
  refine .of_spans fun _ => .look fun kind => ?_
  split
  · exact take_keeps.skip fun _ => .kept rfl
  · exact take_keeps.skip fun _ => .kept rfl
  · exact .refuse

theorem namePart?_spans (stands : c.Stands t hi) :
    SpansAt (StepPost (fun c k c' => c.Reads t hi true (nameParts k) c' ∧
      k.range.stop = c'.reached) c) namePart? c := by
  refine (accept?_spans .dot stands).bind fun found c₁ post => ?_
  obtain ⟨rfl, same⟩ | ⟨k, rfl, -, dot⟩ := post
  · exact .pure same
  · exact (expect_spans .name dot.reads.stands).bind fun k c₂ ⟨taken, isName⟩ =>
      .pure ⟨dot.reads.trans (taken.named (.inl isName)).reads, congrArg Range.stop taken.range⟩

theorem dottedNames_spans (stands : c.Stands t hi) :
    SpansAt (fun names c' => names ≠ [] ∧ c.Reads t hi true (names.flatMap nameParts) c')
      dottedNames c :=
  .start stands (name_keeps.next fun _ => (collect_keeps (behind_keeps .dot name_keeps)).next
    fun _ => .pure fun _ reads => ⟨List.cons_ne_nil _ _, reads⟩)

theorem dottedNames_keeps : Keeps t hi true (List.flatMap nameParts) dottedNames :=
  fun _ stands => (dottedNames_spans stands).mono fun _ _ post => post.2

theorem typeClause?_keeps : Keeps t hi false (fun _ => []) typeClause? := by
  have typeName : Keeps t hi true (fun _ => []) typeName := by
    refine .of_spans fun _ => .look fun kind => ?_
    split
    · exact take_keeps.skip fun _ => .kept rfl
    · exact take_keeps.skip fun _ => .kept rfl
    · exact dottedNames_keeps.skip fun _ => .kept rfl
  exact .of_spans fun _ => .accept? .kwAs (.kept rfl)
    fun _ => typeName.skip fun _ => .loosened rfl

section

variable {rules : Rules} (placed : rules.Placed t hi)

include placed

theorem valueClause?_keeps :
    Keeps t hi false (fun value => value.toList.map .expr) (valueClause? rules) :=
  (behind_keeps .equals placed.expr.keeps).option

theorem params_keeps : Keeps t hi true (List.flatMap Param.parts) (params rules) := by
  have param : Keeps t hi true Param.parts (param rules) :=
    .of_spans fun _ => name_keeps.next fun _ => (valueClause?_keeps placed).next
      fun _ => typeClause?_keeps.skip fun _ => .kept rfl
  refine .of_spans fun _ => expect_keeps.skip fun _ => .look fun kind => ?_
  split
  · exact take_keeps.skip fun _ => .kept rfl
  · exact (commaList_keeps param).next fun _ => expect_keeps.skip
      fun _ => .kept rfl

/-- A function begins at the cursor `c₀`, and its keyword ends at `c₁`. -/
theorem functionTail_spans (keyword : Token) (name : Option Ident) (isMethod : Bool)
    (front : c₀.Reads t hi true [] c₁) (start : c₀.start ≤ keyword.range.start)
    (stop : keyword.range.start < c₁.reached) : SpansFrom t hi c₁ m (name.toList.map .ident)
      (fun f c' => (Expr.function f).Spans t hi c₀ c' ∧ f.name = name)
      (functionTail rules c₀.start keyword name isMethod) := by
  refine (params_keeps placed).next fun params => typeClause?_keeps.skip fun returnType =>
    .since fun c₂ inner => ?_
  have tail (body : Block) : SpansFrom t hi c₂ true [.block body]
      (fun f c' => (Expr.function f).Spans t hi c₀ c' ∧ f.name = name) (do
      let _ ← take
      return { keyword := Text.lower keyword.text, params, body, range := ← since c₀.start,
               signature := ⟨keyword.range.start, c₂.reached⟩, returnType, name, isMethod,
               nspace := none }) := by
    refine take_keeps.skip fun _ => .since fun c₃ behind => .pure ⟨?_, rfl⟩
    have line := inner.trans behind
    have whole := front.trans line
    have range : (⟨c₀.start, c₃.reached⟩ : Range) = ⟨c₀.start, c₃.reached⟩ := rfl
    refine whole.spans range (.of_between range (whole.forward rfl)
      (List.forall_mem_cons.2 ⟨⟨?_, ?_⟩, whole.held⟩) nofun ⟨rfl, fun q member => ?_⟩ line.row)
    · exact .of_row rfl (stop.trans_le inner.reached) nofun .nil nofun trivial rfl
    · exact .inr ⟨start, behind.reached⟩
    · exact (line.held q member).placed.imp_right fun inside =>
        (stop.trans_le front.stands.reached_le_start).trans_le inside.start
  refine .start inner.stands (separator_keeps.skip fun _ => placed.block.next fun body =>
    .look fun kind => ?_)
  split
  · exact tail body
  · exact tail body
  · exact .refuse

/-! ## Operands -/

/-- The parts of what follows an operand. -/
def Suffix.parts : Suffix → List Part
  | field _ name => [.ident name]
  | item key _ => [.expr key]
  | call args _ => args.map .expr

def Suffix.stop : Suffix → Position
  | field _ name => name.range.stop
  | item _ stop | call _ stop => stop

/-- What follows an operand, from one cursor to another. -/
structure Suffix.Spans (t : String) (hi : Position) (c c' : Cursor) (s : Suffix) : Prop where
  reads : c.Reads t hi true s.parts c'
  stop : s.stop = c'.reached

omit placed

theorem var_spans {name : Ident} (spans : (Part.ident name).Spans t hi c c') (called : Bool) :
    (Expr.var name called).Spans t hi c c' :=
  spans.reads.node spans.range rfl

/-- The name of a variable is all there is to it. -/
theorem ident_spans_of_var {name : Ident} {called : Bool}
    (spans : (Expr.var name called).Spans t hi c c') : (Part.ident name).Spans t hi c c' :=
  spans.reads.spans spans.range (spans.asRead.parts _ List.mem_cons_self)

theorem Suffix.apply_spans {object : Expr} {s : Suffix} (first : object.Spans t hi c₀ c)
    (second : s.Spans t hi c c') : (s.apply object).Spans t hi c₀ c' := by
  have range : (⟨object.range.start, s.stop⟩ : Range) = ⟨c₀.start, c'.reached⟩ :=
    congrArg₂ Range.mk first.start second.stop
  cases s with
  | field | item => exact (first.reads.trans second.reads).node range rfl
  | call args stop =>
    have callee : (markCalled object).Spans t hi c₀ c := by
      cases object with
      | var name called => exact var_spans (ident_spans_of_var first) true
      | _ => exact first
    exact (callee.reads.trans second.reads).node range rfl

/-- Any number of suffixes behind an operand. -/
theorem foldl_apply_spans {first : Expr} {suffixes : List Suffix} (spans : first.Spans t hi c₀ c)
    (row : Row (fun c s c' => Suffix.Spans t hi c c' s) c suffixes c') :
    (suffixes.foldl Suffix.apply first).Spans t hi c₀ c' :=
  row.foldl (Q := fun e d => Expr.Spans t hi c₀ d e) spans
    fun _ _ _ _ object suffix => Suffix.apply_spans object suffix

include placed

theorem arguments_keeps : Keeps t hi true (List.map .expr) (arguments rules) := by
  have argument : Keeps t hi false (parts? fun e => [.expr e]) (argument? rules) :=
    .of_spans fun _ => .accept? .comma (.kept rfl) fun _ =>
      skipMany_keeps.skip fun _ => placed.expr.keeps.next fun _ => .loosened rfl
  refine .of_spans fun _ => expect_keeps.skip fun _ => skipMany_keeps.skip fun _ =>
    .look fun kind => ?_
  split
  · exact take_keeps.skip fun _ => .kept rfl
  · exact placed.expr.keeps.next fun _ => (collect_keeps argument).map.next fun _ =>
      skipMany_keeps.skip fun _ => expect_keeps.skip fun _ => .kept rfl

theorem suffix?_spans (stands : c.Stands t hi) :
    SpansAt (StepPost (fun c s c' => Suffix.Spans t hi c c' s) c) (suffix? rules) c := by
  have field (plain : Bool) : SpansAt (StepPost (fun c s c' => Suffix.Spans t hi c c' s) c) (do
        let _ ← take
        return some (.field plain (ident (← expect .name)))) c := by
    refine (take_spans stands).bind fun _ c₁ dot => ?_
    exact (expect_spans .name dot.reads.stands).bind fun k c₂ ⟨taken, isName⟩ =>
      .pure ⟨dot.reads.trans (taken.named (.inl isName)).reads, congrArg Range.stop taken.range⟩
  refine .look ?_
  split
  · exact field true
  · exact field false
  · exact field false
  · refine .start stands (take_keeps.skip fun _ => placed.expr.keeps.next fun key c₁ reads => ?_)
    exact (expect_spans _ reads.stands).bind fun close c₂ ⟨taken, _⟩ =>
      .pure ⟨reads.skip taken.reads, congrArg Range.stop taken.range⟩
  · exact (arguments_keeps placed c stands).bind fun args c₁ reads => .cursor (.pure ⟨reads, rfl⟩)
  · exact .pure rfl

theorem newObject_spans : ReadsExpr t hi (newObject rules) := by
  intro c stands
  refine .here ((expect_spans _ stands).bind fun _ c₁ ⟨opens, _⟩ => ?_)
  refine (expect_spans .name opens.reads.stands).bind fun first c₂ ⟨taken, isName⟩ => ?_
  refine (collect_row (fun _ => namePart?_spans) (·.1.stands) taken.reads.stands).bind
    fun more c₃ ⟨row, _⟩ => ?_
  have callee : (more.foldl joinNamePart (.var (ident first) more.isEmpty)).Spans t hi c₁ c₃ := by
    refine row.foldl (Q := fun e d => Expr.Spans t hi c₁ d e)
      (var_spans (taken.named (.inl isName)) _) fun object k d d' isObject part => ?_
    exact (isObject.reads.trans part.1).node (congrArg₂ Range.mk isObject.start part.2) rfl
  refine (arguments_keeps placed c₃ callee.reads.stands).bind fun args c₄ held => .since (.pure ?_)
  have call : (Expr.call (more.foldl joinNamePart (.var (ident first) more.isEmpty)) args
      ⟨(more.foldl joinNamePart (.var (ident first) more.isEmpty)).range.start,
        c₄.reached⟩).Spans t hi c₁ c₄ :=
    (callee.reads.trans held).node (congrArg (Range.mk · c₄.reached) callee.start) rfl
  exact (opens.reads.trans call.reads).node rfl rfl

theorem member_keeps : Keeps t hi true (fun m => [.expr m.value]) (member rules) := by
  have pair : ∀ c₀, SpansFrom t hi c₀ false []
      (fun (m : Member) c' => c₀.Reads t hi true [.expr m.value] c') (do
        let key ← take
        let _ ← expect .colon
        return ⟨unquote key.text, ← rules.expr⟩) :=
    fun _ => take_keeps.skip fun _ => expect_keeps.skip fun _ =>
      placed.expr.keeps.next fun _ => .kept rfl
  refine .of_spans fun c₀ => .look fun kind => ?_
  split
  · exact pair c₀
  · exact pair c₀
  · exact .refuse

omit placed in
theorem literal_spans (kind : LiteralKind) (stands : c.Stands t hi)
    (isString : kind = .string → c.next? = some .string) :
    SpansAt (fun e c' => e.Spans t hi c c') (literal kind) c := by
  refine (take_spans stands).bind fun k c₁ taken => .pure ?_
  have forward := taken.reads.forward rfl
  have text : ∀ text ∈ some k.text, textAt t k.range = text := by
    rintro _ ⟨⟩
    exact taken.stands.textAt
  cases kind with
  | string =>
    have terminal := Option.some.inj (taken.isNext.symm.trans (isString rfl))
    exact taken.reads.spans taken.range (.of_row taken.range forward nofun .nil text
      (taken.stands.string terminal) rfl)
  | number =>
    exact taken.reads.spans taken.range (.of_row taken.range forward nofun .nil text trivial rfl)
  | boolean | invalid => exact taken.reads.node taken.range rfl

theorem template_spans : ReadsExpr t hi (template rules) := by
  intro c stands
  refine (take_spans stands).bind fun k c₁ taken => ?_
  have whole (parts : List Expr)
      (each : ∀ e ∈ parts, (Part.expr e).Between t k.range.start k.range.stop)
      (row : (parts.map Part.expr).Pairwise Part.Before) :
      (Part.expr (.template k.text parts k.range)).All (Part.AsRead t) := by
    refine .of_row rfl taken.stands.forward (List.forall_mem_map.2 each) row ?_ trivial rfl
    rintro _ ⟨⟩
    exact taken.stands.textAt
  split
  · next parts found =>
    obtain ⟨each, row⟩ := placed.embedded k parts taken.stands found
    exact .pure (taken.reads.spans taken.range (whole parts each row))
  · intro e c₂ run
    cases run
    have reads : c.Reads t hi true [] { c₁ with badTemplate := true } :=
      ⟨⟨taken.reads.stands.tokens, taken.reads.stands.ordered, taken.reads.stands.behind,
        taken.reads.stands.bounded⟩, taken.reads.reached, taken.reads.start, taken.reads.passes,
        taken.reads.forward, nofun, .nil⟩
    exact reads.spans taken.range (whole [] nofun .nil)

theorem group_spans : ReadsExpr t hi (group rules) :=
  fun _ stands => .here (.start stands (expect_keeps.skip fun _ => placed.expr.keeps.next fun _ =>
    expect_keeps.skip fun _ => .since fun _ reads => .pure (reads.node rfl rfl)))

theorem array_spans : ReadsExpr t hi (array rules) :=
  fun _ stands => .here (.start stands (expect_keeps.skip fun _ =>
    (listUpTo_keeps _ placed.expr.keeps).map.next fun _ =>
      .since fun _ reads => .pure (reads.node rfl rfl)))

theorem table_spans : ReadsExpr t hi (table rules) :=
  fun _ stands => .here (.start stands (expect_keeps.skip fun _ =>
    (listUpTo_keeps _ (member_keeps placed)).map.next fun _ =>
      .since fun _ reads => .pure (reads.node rfl rfl)))

theorem anonymousFunction_spans : ReadsExpr t hi (anonymousFunction rules) := by
  intro c stands
  refine (take_spans stands).bind fun k c₁ taken => ?_
  have tail := functionTail_spans placed k none false taken.reads taken.start.ge
    (taken.start ▸ taken.reads.forward rfl) (m := false)
  rw [← taken.start] at tail
  exact (SpansAt.start taken.reads.stands tail).bind fun f c₂ post => .pure post.1

theorem atom_spans : ReadsExpr t hi (atom rules) := by
  intro c stands
  refine .look ?_
  split
  · next isName => exact (take_spans stands).bind fun k _ taken => .pure (var_spans (taken.named
      (.inl (Option.some.inj (taken.isNext.symm.trans isName)))) _)
  · next isString => exact literal_spans .string stands fun _ => isString
  · exact literal_spans .number stands nofun
  · exact literal_spans .boolean stands nofun
  · exact literal_spans .boolean stands nofun
  · exact literal_spans .invalid stands nofun
  · exact template_spans placed c stands
  · exact group_spans placed c stands
  · exact array_spans placed c stands
  · exact table_spans placed c stands
  · exact anonymousFunction_spans placed c stands
  · exact anonymousFunction_spans placed c stands
  · exact newObject_spans placed c stands
  · exact .refuse

theorem chain_spans : ReadsExpr t hi (chain rules) := by
  intro c stands
  refine (atom_spans placed c stands).bind fun first c₁ spans => ?_
  exact (collect_row (fun _ => suffix?_spans placed) (·.reads.stands) spans.reads.stands).bind
    fun suffixes c₂ ⟨row, _⟩ => .pure (foldl_apply_spans spans row)

/-! ## Expressions -/

theorem comparison_spans : ReadsExpr t hi (comparison rules) :=
  levels_spans (prefixed_spans _ (chain_spans placed)) _

theorem conditional_spans : ReadsExpr t hi (conditional rules) := by
  intro c stands
  refine (levels_spans (prefixed_spans _ (comparison_spans placed)) _ c stands).bind
    fun test c₁ isTest => ?_
  refine (accept?_spans .question isTest.reads.stands).bind fun found c₂ post => ?_
  obtain ⟨rfl, rfl⟩ | ⟨k, rfl, -, taken⟩ := post
  · exact .pure isTest
  · refine placed.expr.keeps.next (fun onTrue => expect_keeps.skip fun _ c₃ reads => ?_) c₂
      (isTest.reads.skip taken.reads)
    exact (placed.expr c₃ reads.stands).bind fun onFalse c₄ isFalse => .pure
      ((reads.trans isFalse.reads).node (congrArg₂ Range.mk isTest.start isFalse.stop) rfl)

theorem expr?_keeps : Keeps t hi false (parts? fun e => [.expr e]) (expr? rules) := by
  refine .of_spans fun _ => .look fun kind => ?_
  split
  · split
    · exact placed.expr.keeps.next fun _ => .loosened rfl
    · exact .kept rfl
  · exact .kept rfl

end

end ChannelLint.Parser
