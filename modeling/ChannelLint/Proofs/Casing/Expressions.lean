import ChannelLint.Proofs.Casing.Cursor

/-!
# Expressions without their case

Each rule for expressions reads without case what it reads, provided that the rules it may call
again do so.
-/
namespace ChannelLint.Parser

open List Text

variable {α β : Type}

variable {operand : Parser Expr}

/-- The rules that other rules may call again read without case. -/
structure Rules.Alike (rules : Rules) : Prop where
  expr : Blind .expr rules.expr
  block : Blind .block rules.block
  embedded : ∀ token, rules.embedded token.uncase =
    (rules.embedded token).map (List.map (Expr.respell .uncase))

/-! ## Folds -/

theorem foldl_map_hom {φ : α → α} {ψ : β → β} {f : α → β → α}
    (h : ∀ a b, f (φ a) (ψ b) = φ (f a b)) (a : α) (bs : List β) :
    (bs.map ψ).foldl f (φ a) = φ (bs.foldl f a) := by
  rw [foldl_map]
  exact foldl_hom φ fun a b => h a b

/-! ## Operators -/

theorem find?_symbol_uncased {ops : List BinaryOp} (f : BinaryOp → String)
    (signs : ∀ op ∈ ops, (f op).toList.all isSign) (text : String) :
    ops.find? (fun op => f op == uncased text) = ops.find? (fun op => f op == text) := by
  induction ops with
  | nil => rfl
  | cons op ops ih =>
    have same : (f op == uncased text) = (f op == text) := by
      rw [Bool.eq_iff_iff, beq_iff_eq, beq_iff_eq, eq_comm, uncased_eq_iff
        (signs op mem_cons_self), eq_comm]
    rw [find?_cons, find?_cons, same, ih fun op' h => signs op' (mem_cons_of_mem _ h)]

theorem binaryOp?_uncase (t : Token) : binaryOp? t.uncase = binaryOp? t := by
  obtain ⟨terminal, text, range⟩ := t
  have same := find?_symbol_uncased BinaryOp.symbol (by decide : ∀ op ∈ symbolOps, _) text
  cases terminal <;> first | rfl | exact same

/-- An operator with its right operand. -/
abbrev Reading.tail : Reading (BinaryOp × Expr) :=
  fun tail => (tail.1, tail.2.respell .uncase)

theorem operatorTail?_reads (ops : List BinaryOp) (h : Blind .expr operand) :
    Blind Reading.tail.option (operatorTail? ops operand) := by
  refine Reads.peek fun t => ?_
  have same : (t.map Token.uncase).bind binaryOp? = t.bind binaryOp? := by
    cases t with
    | none => rfl
    | some t => exact binaryOp?_uncase t
  simp only [same]
  split
  · refine .ite ?_ ?_
    · refine take_reads.bind fun _ => ?_
      refine h.bind fun e => ?_
      exact .pure rfl
    · exact .pure rfl
  · exact .pure rfl

theorem joinBinary_respell (e : Expr) (tail : BinaryOp × Expr) :
    joinBinary (e.respell .uncase) (tail.1, tail.2.respell .uncase) =
      (joinBinary e tail).respell .uncase := by
  simp only [joinBinary, Expr.range_respell]
  rfl

theorem leftChain_reads (ops : List BinaryOp) (h : Blind .expr operand) :
    Blind .expr (leftChain ops operand) := by
  refine h.bind fun first => ?_
  refine (collect_reads (operatorTail?_reads ops h)).bind fun tails => ?_
  exact .pure (foldl_map_hom joinBinary_respell first tails)

theorem levels_reads (h : Blind .expr operand) (ops : List (List BinaryOp)) :
    Blind .expr (levels operand ops) := by
  induction ops with
  | nil => exact h
  | cons ops tighter ih => exact leftChain_reads ops ih

theorem unaryOp_uncase (t : Token) : unaryOp t.uncase = unaryOp t := by
  have same : (uncased t.text = "-") = (t.text = "-") :=
    propext (uncased_eq_iff (by decide) t.text)
  rw [unaryOp, unaryOp]
  simp only [Token.uncase, same]

theorem joinUnary_respell (t : Token) (e : Expr) :
    joinUnary t.uncase (e.respell .uncase) = (joinUnary t e).respell .uncase := by
  simp only [joinUnary, unaryOp_uncase, Expr.range_respell]
  rfl

theorem prefixed_reads (t : Terminal) (h : Blind .expr operand) :
    Blind .expr (prefixed t operand) := by
  refine (collect_reads accept?_reads).bind fun signs => ?_
  refine h.bind fun e => ?_
  refine .pure ?_
  show (signs.map Token.uncase).foldr joinUnary (e.respell .uncase) = _
  rw [foldr_map]
  exact foldr_hom (Expr.respell .uncase) fun t e => joinUnary_respell t e

/-! ## Lists -/

theorem listSeparator?_reads : Blind .plain listSeparator? := by
  refine .look fun t => ?_
  split
  · refine take_reads.bind fun _ => ?_
    exact skipMany_reads.bind fun _ => .pure rfl
  · exact skipMany_reads.bind fun _ => .pure rfl
  · exact .pure rfl

section

variable {r : Reading α} {item : Parser α} (h : Blind r item)

include h

theorem listItem?_reads (close : Terminal) : Blind r.option (listItem? close item) := by
  refine .look fun t => .ite (.pure rfl) ?_
  refine listSeparator?_reads.bind fun found => .ite ?_ .refuse
  refine .look fun t => .ite (.pure rfl) ?_
  exact h.bind fun a => .pure rfl

theorem listUpTo_reads (close : Terminal) : Blind r.list (listUpTo close item) := by
  refine skipMany_reads.bind fun _ => ?_
  refine .look fun t => .ite ?_ ?_
  · exact take_reads.bind fun _ => .pure rfl
  · refine h.bind fun first => ?_
    refine (collect_reads (listItem?_reads h close)).bind fun more => ?_
    exact expect_reads.bind fun _ => .pure rfl

theorem commaItem?_reads : Blind r.option (commaItem? item) := by
  exact .accepting (fun _ => h.bind fun a => .pure rfl) (.pure rfl)

theorem commaList_reads : Blind r.list (commaList item) := by
  refine h.bind fun first => ?_
  exact (collect_reads (commaItem?_reads h)).bind fun more => .pure rfl

end

/-! ## Functions -/

theorem separator_reads : Blind .plain separator := by
  refine .look fun t => ?_
  split
  · exact take_reads.bind fun _ => .pure rfl
  · exact take_reads.bind fun _ => .pure rfl
  · exact .refuse

theorem namePart?_reads : Blind Reading.token.option namePart? := by
  exact .accepting (fun _ => expect_reads.bind fun t => .pure rfl) (.pure rfl)

theorem dottedNames_reads : Blind Reading.token.list dottedNames := by
  refine expect_reads.bind fun first => ?_
  exact (collect_reads namePart?_reads).bind fun more => .pure rfl

theorem uncased_intercalate {separator : String} (same : uncased separator = separator)
    (texts : List String) :
    separator.intercalate (texts.map uncased) = uncased (separator.intercalate texts) := by
  have step (sep : List Char) (ls : List (List Char)) : (sep.intercalate ls).map uncase =
      (sep.map uncase).intercalate (ls.map (List.map uncase)) := by
    induction ls with
    | nil => rfl
    | cons l ls ih =>
      cases ls with
      | nil => simp [List.intercalate]
      | cons l' ls =>
        simp only [List.intercalate, map_cons, intersperse_cons_cons, flatten_cons,
          map_append] at ih ⊢
        rw [ih]
  apply String.toList_inj.1
  rw [toList_uncased, String.toList_intercalate, String.toList_intercalate, step,
    ← toList_uncased, same, map_map, map_map]
  congr 1
  exact map_congr_left fun text _ => toList_uncased text

theorem dottedText_uncase (names : List Token) :
    dottedText (names.map Token.uncase) = uncased (dottedText names) := by
  rw [dottedText, dottedText, ← uncased_intercalate rfl, map_map, map_map]
  rfl

theorem typeName_reads : Blind .plain typeName := by
  refine .look fun t => ?_
  split
  · exact take_reads.bind fun t => .pure (lower_uncased t.text)
  · exact take_reads.bind fun t => .pure (lower_uncased t.text)
  · refine dottedNames_reads.bind fun names => .pure ?_
    exact (congrArg lower (dottedText_uncase names)).trans (lower_uncased _)

theorem typeClause?_reads : Blind .plain typeClause? := by
  exact .accepting (fun _ => typeName_reads.bind fun t => .pure rfl) (.pure rfl)

section

variable {rules : Rules} (h : rules.Alike)

include h

theorem valueClause?_reads : Blind Reading.expr.option (valueClause? rules) := by
  exact .accepting (fun _ => h.expr.bind fun e => .pure rfl) (.pure rfl)

theorem param_reads : Blind .param (param rules) := by
  refine expect_reads.bind fun name => ?_
  refine (valueClause?_reads h).bind fun value => ?_
  refine typeClause?_reads.bind fun type => ?_
  exact .pure rfl

theorem params_reads : Blind Reading.param.list (params rules) := by
  refine expect_reads.bind fun _ => ?_
  refine .look fun t => .ite ?_ ?_
  · exact take_reads.bind fun _ => .pure rfl
  · refine (commaList_reads (param_reads h)).bind fun list => ?_
    exact expect_reads.bind fun _ => .pure rfl

theorem functionTail_reads (start : Position) (keyword : Token) (name : Option Ident)
    (isMethod : Bool) : Reads .func (functionTail rules start keyword name isMethod)
      (functionTail rules start keyword.uncase (name.map Respelling.uncase.label) isMethod) := by
  refine (params_reads h).bind fun ps => ?_
  have result (body : Block) (range signature : Range) (returnType : Option String) :
      (⟨lower keyword.uncase.text, ps.map (·.respell .uncase), body.respell .uncase, range,
        signature, returnType, name.map Respelling.uncase.label, isMethod, none⟩ : Func) =
      Func.respell .uncase ⟨lower keyword.text, ps, body, range, signature, returnType, name,
        isMethod, none⟩ := by
    rw [Func.respell, Param.respellAll_eq]
    exact congrArg (Func.mk · _ _ _ _ _ _ _ _) (lower_uncased keyword.text)
  refine typeClause?_reads.bind fun returnType => ?_
  refine .since fun signature => ?_
  refine separator_reads.bind fun _ => ?_
  refine h.block.bind fun body => ?_
  refine .look fun t => ?_
  split
  · exact take_reads.bind fun _ => .since fun range => .pure (result ..)
  · exact take_reads.bind fun _ => .since fun range => .pure (result ..)
  · exact .refuse

end

/-! ## Operands -/

def Suffix.uncase : Suffix → Suffix
  | field plain name => field plain (Respelling.uncase.label name)
  | item key stop => item (key.respell .uncase) stop
  | call args stop => call (args.map (·.respell .uncase)) stop

abbrev Reading.suffix : Reading Suffix := Suffix.uncase

theorem markCalled_respell (e : Expr) :
    markCalled (e.respell .uncase) = (markCalled e).respell .uncase := by
  cases e <;> rfl

theorem Suffix.apply_respell (object : Expr) (s : Suffix) :
    s.uncase.apply (object.respell .uncase) = (s.apply object).respell .uncase := by
  cases s with
  | field plain name => simp only [uncase, apply, Expr.range_respell]; rfl
  | item key stop => simp only [uncase, apply, Expr.range_respell]; rfl
  | call args stop =>
    simp only [uncase, apply, Expr.range_respell, markCalled_respell, ← Expr.respellAll_eq]
    rfl

theorem Suffix.foldl_respell (e : Expr) (suffixes : List Suffix) :
    (suffixes.map Suffix.uncase).foldl Suffix.apply (e.respell .uncase) =
      (suffixes.foldl Suffix.apply e).respell .uncase :=
  foldl_map_hom Suffix.apply_respell e suffixes

/-! A string loses its quotes and its case in either order. -/

theorem undouble_cons {c : Char} {cs : List Char} (h : c = '"' → cs.head? ≠ some '"') :
    undouble (c :: cs) = c :: undouble cs := by
  by_cases quote : c = '"'
  · cases cs with
    | nil => simp [undouble]
    | cons d cs =>
      have other : d ≠ '"' := fun e => h quote (congrArg some e)
      simp [undouble, other]
  · simp [undouble, quote]

theorem undouble_map (cs : List Char) : undouble (cs.map uncase) = (undouble cs).map uncase := by
  have same : uncase '"' = '"' := rfl
  fun_induction undouble cs with
  | case1 cs ih => rw [map_cons, map_cons, same, undouble, ih, map_cons, same]
  | case2 c cs notDouble ih =>
    have single : uncase c = '"' → (cs.map uncase).head? ≠ some '"' := by
      intro quote
      cases cs with
      | nil => exact nofun
      | cons d cs =>
        rw [map_cons, head?_cons, ne_eq, Option.some.injEq, uncase_eq_iff (by decide)]
        exact fun e => notDouble cs ((uncase_eq_iff (by decide) c).1 quote) (e ▸ rfl)
    rw [map_cons, undouble_cons single, ih, map_cons]
  | case3 => rfl

theorem getLast?_map_uncase (cs : List Char) :
    (cs.map uncase).getLast? = some '"' ↔ cs.getLast? = some '"' := by
  rw [getLast?_map, Option.map_eq_some_iff]
  simp only [uncase_eq_iff (by decide : isSign '"'), exists_eq_right]

theorem unquote_uncased (text : String) : unquote (uncased text) = uncased (unquote text) := by
  unfold unquote
  rw [toList_uncased]
  cases text.toList with
  | nil => rfl
  | cons c inner =>
    by_cases quote : c = '"'
    · subst quote
      have same : uncase '"' = '"' := rfl
      simp only [map_cons, same, getLast?_map_uncase]
      split
      · rw [← map_dropLast, undouble_map, uncased, String.toList_ofList]
      · rfl
    · have other : uncase c ≠ '"' := fun e => quote ((uncase_eq_iff (by decide) c).1 e)
      simp [quote, other]

theorem literal_reads (kind : LiteralKind) : Blind .expr (literal kind) := by
  refine take_reads.bind fun t => .pure ?_
  cases kind with
  | boolean => exact congrArg (Expr.literal _ · _) (lower_uncased t.text)
  | _ => rfl

section

variable {rules : Rules} (h : rules.Alike)

include h

theorem argument?_reads : Blind Reading.expr.option (argument? rules) := by
  refine .accepting (fun _ => ?_) (.pure rfl)
  refine skipMany_reads.bind fun _ => ?_
  exact h.expr.bind fun e => .pure rfl

theorem arguments_reads : Blind Reading.expr.list (arguments rules) := by
  refine expect_reads.bind fun _ => ?_
  refine skipMany_reads.bind fun _ => ?_
  refine .look fun t => .ite ?_ ?_
  · exact take_reads.bind fun _ => .pure rfl
  · refine h.expr.bind fun first => ?_
    refine (collect_reads (argument?_reads h)).bind fun more => ?_
    refine skipMany_reads.bind fun _ => ?_
    exact expect_reads.bind fun _ => .pure rfl

theorem suffix?_reads : Blind Reading.suffix.option (suffix? rules) := by
  refine .look fun t => ?_
  split
  · refine take_reads.bind fun _ => ?_
    exact expect_reads.bind fun name => .pure rfl
  · refine take_reads.bind fun _ => ?_
    exact expect_reads.bind fun name => .pure rfl
  · refine take_reads.bind fun _ => ?_
    exact expect_reads.bind fun name => .pure rfl
  · refine take_reads.bind fun _ => ?_
    refine h.expr.bind fun key => ?_
    exact expect_reads.bind fun close => .pure rfl
  · refine (arguments_reads h).bind fun args => ?_
    exact .cursor fun c => .pure rfl
  · exact .pure rfl

theorem newObject_reads : Blind .expr (newObject rules) := by
  refine .here fun start => ?_
  refine expect_reads.bind fun _ => ?_
  refine expect_reads.bind fun first => ?_
  refine (collect_reads namePart?_reads).bind fun more => ?_
  refine (arguments_reads h).bind fun args => ?_
  refine .since fun range => ?_
  have callee : (more.map Token.uncase).foldl joinNamePart
        (.var (ident first.uncase) (more.map Token.uncase).isEmpty) =
      (more.foldl joinNamePart (.var (ident first) more.isEmpty)).respell .uncase := by
    rw [isEmpty_map]
    have step (e : Expr) (t : Token) : joinNamePart (e.respell .uncase) t.uncase =
        (joinNamePart e t).respell .uncase := by
      simp only [joinNamePart, Expr.range_respell]
      rfl
    exact foldl_map_hom step (.var (ident first) more.isEmpty) more
  refine .pure ?_
  simp only [callee, Expr.range_respell]
  exact congrArg (Expr.new _ · _ _) (Expr.respellAll_eq _ args).symm

theorem member_reads : Blind .member (member rules) := by
  refine .look fun t => ?_
  have item : Reads .member
      (do let key ← take; let _ ← expect .colon; return ⟨unquote key.text, ← rules.expr⟩)
      (do let key ← take; let _ ← expect .colon; return ⟨unquote key.text, ← rules.expr⟩) := by
    refine take_reads.bind fun key => ?_
    refine expect_reads.bind fun _ => ?_
    refine h.expr.bind fun value => .pure ?_
    exact congrArg (Member.mk · _) (unquote_uncased key.text)
  split
  · exact item
  · exact item
  · exact .refuse

theorem group_reads : Blind .expr (group rules) := by
  refine .here fun start => ?_
  refine expect_reads.bind fun _ => ?_
  refine h.expr.bind fun inner => ?_
  refine expect_reads.bind fun _ => ?_
  exact .since fun range => .pure rfl

theorem array_reads : Blind .expr (array rules) := by
  refine .here fun start => ?_
  refine expect_reads.bind fun _ => ?_
  refine (listUpTo_reads h.expr _).bind fun items => ?_
  refine .since fun range => .pure ?_
  exact congrArg (Expr.array · range) (Expr.respellAll_eq _ items).symm

theorem table_reads : Blind .expr (table rules) := by
  refine .here fun start => ?_
  refine expect_reads.bind fun _ => ?_
  refine (listUpTo_reads (member_reads h) _).bind fun members => ?_
  refine .since fun range => .pure ?_
  exact congrArg (Expr.table · range) (Member.respellAll_eq _ members).symm

theorem anonymousFunction_reads : Blind .expr (anonymousFunction rules) := by
  refine take_reads.bind fun keyword => ?_
  exact (functionTail_reads h keyword.range.start keyword none false).bind fun f =>
    .pure rfl

theorem template_reads : Blind .expr (template rules) := by
  refine take_reads.bind fun t => ?_
  simp only [h.embedded]
  cases rules.embedded t with
  | none => exact fun _ => rfl
  | some parts =>
    exact .pure (congrArg (Expr.template _ · _) (Expr.respellAll_eq _ parts).symm)

theorem atom_reads : Blind .expr (atom rules) := by
  refine .look fun t => ?_
  split
  · exact take_reads.bind fun t => .pure rfl
  · exact literal_reads _
  · exact literal_reads _
  · exact literal_reads _
  · exact literal_reads _
  · exact literal_reads _
  · exact template_reads h
  · exact group_reads h
  · exact array_reads h
  · exact table_reads h
  · exact anonymousFunction_reads h
  · exact anonymousFunction_reads h
  · exact newObject_reads h
  · exact .refuse

theorem chain_reads : Blind .expr (chain rules) := by
  refine (atom_reads h).bind fun first => ?_
  refine (collect_reads (suffix?_reads h)).bind fun suffixes => ?_
  exact .pure (Suffix.foldl_respell first suffixes)

/-! ## Expressions -/

theorem comparison_reads : Blind .expr (comparison rules) :=
  levels_reads (prefixed_reads _ (chain_reads h)) _

theorem conditional_reads : Blind .expr (conditional rules) := by
  refine (levels_reads (prefixed_reads _ (comparison_reads h)) _).bind fun test => ?_
  refine .accepting (fun _ => ?_) (.pure rfl)
  refine h.expr.bind fun onTrue => ?_
  refine expect_reads.bind fun _ => ?_
  refine h.expr.bind fun onFalse => ?_
  refine .pure ?_
  simp only [Reading.expr, Expr.range_respell]
  rfl

theorem expr?_reads : Blind Reading.expr.option (expr? rules) := by
  refine .look fun t => ?_
  cases t with
  | none => exact .pure rfl
  | some t => exact .ite (h.expr.bind fun e => .pure rfl) (.pure rfl)

end

end ChannelLint.Parser
