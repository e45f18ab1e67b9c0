import ChannelLint.Proofs.Rendering.Runs

/-!
# Reading the words of an expression

Every rule of the grammar reads back the words of the expressions of its level. A rule calls another
only at a tighter level, or between brackets, where fewer words are left; so as many rules inside
each other as there are words are enough.
-/
namespace ChannelLint.Parser

open List

variable {α : Type} {rules : Rules} {k : Nat} {range : Range}

/-! ## Operators -/

variable {op : BinaryOp}

/-- The operators of a level. -/
def opsAt : Nat → List BinaryOp
  | 1 => [.coalesce]
  | 2 => [.or]
  | 3 => [.and]
  | 5 => [.equal, .notEqual, .lessEqual, .greaterEqual, .less, .greater]
  | 6 => [.shiftLeft, .shiftRight]
  | 7 => [.add, .subtract]
  | 8 => [.multiply, .divide, .integerDivide, .modulo]
  | 9 => [.power]
  | _ => []

theorem mem_opsAt (op : BinaryOp) : op ∈ opsAt op.level := by
  cases op <;> decide

theorem level_of_mem_opsAt (member : op ∈ opsAt k) : op.level = k := by
  unfold opsAt at member
  split at member
  case h_9 => cases member
  all_goals
    revert op
    decide

theorem binaryOp?_of_word {t : Token} (isOp : t.word = op.word) : binaryOp? t = some op := by
  obtain ⟨terminal, text, range⟩ := t
  obtain ⟨rfl, rfl⟩ := Word.mk.inj isOp
  cases op <;> rfl

theorem level?_word (op : BinaryOp) : op.word.level? = some op.level := by
  cases op <;> rfl

theorem level?_of_binaryOp? {t : Token} (isOp : binaryOp? t = some op) :
    t.word.level? = some op.level := by
  obtain ⟨terminal, text, range⟩ := t
  have same : binaryOp? ⟨terminal, text, .empty⟩ = some op := isOp
  unfold Word.level? Token.word
  rw [same]

/-- An operator and its right operand. -/
theorem reads_operatorTail {operand : Parser Expr} {left right : Expr}
    (reads : ReadsWords operand right.words k (·.bare = right.bare)) :
    ReadsWords (operatorTail? (opsAt op.level) operand) (op.word :: right.words) k fun b =>
      ∃ b', b = some b' ∧ ∀ object : Expr, object.bare = left.bare →
        (joinBinary object b').bare = (Expr.binary left op right range).bare := by
  refine .peek fun t isOp => ?_
  rw [Option.bind_some, binaryOp?_of_word isOp]
  dsimp only
  rw [if_pos (mem_opsAt op)]
  refine .take fun _ _ => .last reads fun right' same => .done ⟨_, rfl, fun object isLeft => ?_⟩
  rw [joinBinary, Expr.bare, Expr.bare, isLeft, same]

/-- No operator of the level comes next. -/
theorem runs_operatorTail_none {operand : Parser Expr} {tail : List Token} (stops : Stops k tail)
    (reached : Position) (bad : Bool) :
    Runs (operatorTail? (opsAt k) operand) ⟨tail, reached, bad⟩ none ⟨tail, reached, bad⟩ := by
  refine .bind (runs_peek _) ?_
  cases isNext : tail.head?.bind binaryOp? with
  | none => exact .pure _ _
  | some op =>
    obtain ⟨t, first, isOp⟩ := Option.bind_eq_some_iff.1 isNext
    have other : op ∉ opsAt k := by
      intro member
      have looser := stops t first op.level (level?_of_binaryOp? isOp)
      rw [level_of_mem_opsAt member] at looser
      exact Nat.lt_irrefl k looser
    dsimp only
    rw [if_neg other]
    exact .pure _ _

/-! ## Lists -/

/-- A rule reads the words of an item back, and they begin like an expression. -/
structure ReadsItem (item : Parser α) (words : α → List Word) (bare : α → α) (x : α) : Prop where
  reads : ReadsWords item (words x) 0 (bare · = bare x)
  head : ∃ w rest, words x = w :: rest ∧ Expr.startsAt 0 w.terminal

section

variable {β : Type} {item : Parser α} {words : α → List Word} {bare : α → α} {x : α} {xs : List α}

variable {step : Parser (Option α)} {w : Word}

theorem listed_cons (part : List Word) (parts : List (List Word)) :
    Word.listed (part :: parts) = part ++ parts.flatMap (Word.comma :: ·) := by
  induction parts generalizing part with
  | nil => simp [Word.listed]
  | cons next rest ih =>
    calc Word.listed (part :: next :: rest)
        = part ++ [Word.comma] ++ Word.listed (next :: rest) := intercalate_cons_cons
      _ = part ++ Word.comma :: (next ++ rest.flatMap (Word.comma :: ·)) := by
        rw [ih next, append_assoc, singleton_append]

/-- A list of items is closed, or it goes on behind a comma: no expression goes on there. -/
theorem stops_items {tokens tail : List Token}
    (spelled : tokens.map Token.word = xs.flatMap (Word.comma :: words ·)) (stops : Stops 0 tail) :
    Stops 0 (tokens ++ tail) := by
  cases xs with
  | nil =>
    obtain rfl := map_eq_nil_iff.1 spelled
    exact stops
  | cons x xs => exact stops_of_words spelled nofun

/-- Steps that each read a comma and an item. -/
theorem steps_items {tail : List Token}
    (each : ∀ x ∈ xs, ReadsWords step (Word.comma :: words x) 0 fun b =>
      ∃ a, b = some a ∧ bare a = bare x) {tokens : List Token}
    (spelled : tokens.map Token.word = xs.flatMap (Word.comma :: words ·)) (stops : Stops 0 tail)
    (reached : Position) (bad : Bool) :
    ∃ as reached', Steps step ⟨tokens ++ tail, reached, bad⟩ as ⟨tail, reached', bad⟩ ∧
      as.map bare = xs.map bare := by
  induction xs generalizing tokens reached with
  | nil =>
    obtain rfl := map_eq_nil_iff.1 spelled
    exact ⟨[], reached, .done, rfl⟩
  | cons x xs ih =>
    obtain ⟨first, others⟩ := forall_mem_cons.1 each
    obtain ⟨front, behind, rfl, isFirst, isNext⟩ := map_eq_append_iff.1 spelled
    obtain ⟨_, reached', run, a, rfl, same⟩ :=
      first front (behind ++ tail) reached bad isFirst (stops_items isNext stops)
    obtain ⟨as, reached'', steps, same'⟩ := ih others isNext reached'
    refine ⟨a :: as, reached'', ?_, by rw [map_cons, map_cons, same, same']⟩
    rw [append_assoc]
    exact .more run (length_lt_of_words isFirst) steps

/-- An item, more items behind commas, and a bracket at which the step gives nothing. -/
theorem reads_items {f : List α → Parser β} {ws : List Word} {holds : β → Prop}
    (first : ReadsItem item words bare x)
    (each : ∀ x ∈ xs, ReadsWords step (Word.comma :: words x) 0 fun b =>
      ∃ a, b = some a ∧ bare a = bare x) (closes : w.level? = none)
    (stop : ∀ token rest reached bad, token.word = w →
      Runs step ⟨token :: rest, reached, bad⟩ none ⟨token :: rest, reached, bad⟩)
    (next : ∀ as, as.map bare = (x :: xs).map bare → ReadsWords (f as) (w :: ws) k holds) :
    ReadsWords (do
      let first ← item
      let more ← collect step
      f (first :: more)) (Word.listed ((x :: xs).map words) ++ w :: ws) k holds := by
  intro tokens tail reached bad spelled stops
  rw [map_cons, listed_cons, flatMap_map, append_assoc] at spelled
  obtain ⟨front, rest, rfl, isFirst, isRest⟩ := map_eq_append_iff.1 spelled
  obtain ⟨middle, behind, rfl, isMore, isBehind⟩ := map_eq_append_iff.1 isRest
  have closed : Stops 0 (behind ++ tail) := by
    refine stops_of_words isBehind ?_
    rw [closes]
    nofun
  obtain ⟨a, reached₁, run, same⟩ :=
    first.reads front (middle ++ (behind ++ tail)) reached bad isFirst (stops_items isMore closed)
  obtain ⟨as, reached₂, steps, same'⟩ := steps_items each isMore closed reached₁ bad
  obtain ⟨b, reached₃, run', result⟩ :=
    next (a :: as) (by rw [map_cons, map_cons, same, same']) behind tail reached₂ bad
      isBehind stops
  obtain ⟨t, others, rfl, isClose, -⟩ := map_eq_cons_iff.1 isBehind
  refine ⟨b, reached₃, ?_, result⟩
  rw [append_assoc, append_assoc]
  exact run.bind ((runs_collect steps (stop t _ _ _ isClose)).bind run')

/-- A comma between two items. -/
theorem reads_listSeparator {f : Bool → Parser β} {ws : List Word} {holds : β → Prop}
    (noLine : w.terminal ≠ .newline) (next : ReadsWords (f true) (w :: ws) k holds) :
    ReadsWords (listSeparator? >>= f) (Word.comma :: w :: ws) k holds := by
  intro tokens tail reached bad spelled stops
  obtain ⟨t, more, rfl, isComma, isMore⟩ := map_eq_cons_iff.1 spelled
  obtain ⟨b, reached', run, result⟩ := next more tail t.range.stop bad isMore stops
  obtain ⟨t', others, rfl, rfl, -⟩ := map_eq_cons_iff.1 isMore
  refine ⟨b, reached', .bind (.bind (runs_look_of (congrArg Word.terminal isComma)) ?_) run, result⟩
  exact .bind runs_take
    (.bind (runs_skipMany fun isLine => noLine (Option.some.inj isLine)) (.pure _ _))

theorem noLine_of_starts (starts : Expr.startsAt 0 w.terminal) : w.terminal ≠ .newline := by
  intro isLine
  rw [isLine] at starts
  cases starts

/-- A bracket at which a list ends. -/
structure Closes (w : Word) : Prop where
  level : w.level? = none
  noLine : w.terminal ≠ .newline
  noComma : w.terminal ≠ .comma
  noStart : ¬ Expr.startsAt 0 w.terminal

theorem closes_rightParen : Closes Word.rightParen :=
  ⟨rfl, by decide, by decide, by decide⟩

theorem closes_rightBracket : Closes Word.rightBracket :=
  ⟨rfl, by decide, by decide, by decide⟩

theorem closes_rightBrace : Closes Word.rightBrace :=
  ⟨rfl, by decide, by decide, by decide⟩

variable {close : Word}

theorem Closes.ne_of_starts {w : Word} (closes : Closes close)
    (starts : Expr.startsAt 0 w.terminal) : some w.terminal ≠ some close.terminal := by
  intro isClose
  rw [Option.some.inj isClose] at starts
  exact closes.noStart starts

theorem reads_listItem (closes : Closes close) (reads : ReadsItem item words bare x) :
    ReadsWords (listItem? close.terminal item) (Word.comma :: words x) 0 fun b =>
      ∃ a, b = some a ∧ bare a = bare x := by
  have noComma : some Word.comma.terminal ≠ some close.terminal :=
    fun isClose => closes.noComma (Option.some.inj isClose).symm
  obtain ⟨w, rest, isWord, starts⟩ := reads.head
  have reads := reads.reads
  rw [isWord] at reads ⊢
  refine .look ?_
  rw [if_neg noComma]
  refine reads_listSeparator (noLine_of_starts starts) (.look ?_)
  rw [if_neg (closes.ne_of_starts starts)]
  exact .last reads fun a same => .done ⟨a, rfl, same⟩

theorem runs_listItem_none {token : Token} {rest : List Token} (isClose : token.word = close)
    (reached : Position) (bad : Bool) :
    Runs (listItem? close.terminal item) ⟨token :: rest, reached, bad⟩ none
      ⟨token :: rest, reached, bad⟩ := by
  refine .bind (runs_look_of (congrArg Word.terminal isClose)) ?_
  rw [if_pos rfl]
  exact .pure _ _

/-- The items of a list and the bracket that ends it. -/
theorem reads_listUpTo (closes : Closes close) (each : ∀ x ∈ xs, ReadsItem item words bare x) :
    ReadsWords (listUpTo close.terminal item) (Word.listed (xs.map words) ++ [close]) k fun as =>
      as.map bare = xs.map bare := by
  cases xs with
  | nil =>
    refine .skip closes.noLine (.look ?_)
    rw [if_pos rfl]
    exact .take fun _ _ => .done rfl
  | cons x xs =>
    obtain ⟨first, others⟩ := forall_mem_cons.1 each
    have reads := reads_items first (fun x member => reads_listItem closes (others x member))
      closes.level (fun _ _ _ _ isClose => runs_listItem_none isClose _ _)
      (fun as same => (.expect rfl fun _ _ => .done same :
        ReadsWords (do let _ ← expect close.terminal; return as) [close] k fun as =>
          as.map bare = (x :: xs).map bare))
    obtain ⟨w, rest, isWord, starts⟩ := first.head
    rw [map_cons, listed_cons, isWord] at reads ⊢
    refine .skip (noLine_of_starts starts) (.look ?_)
    rw [if_neg (closes.ne_of_starts starts)]
    exact reads

end

/-! ## Arguments -/

variable {e : Expr} {args : List Expr}

theorem reads_argument (reads : ReadsItem rules.expr Expr.words Expr.bare e) :
    ReadsWords (argument? rules) (Word.comma :: e.words) 0 fun b =>
      ∃ a, b = some a ∧ a.bare = e.bare := by
  obtain ⟨w, rest, isWord, starts⟩ := reads.head
  have reads := reads.reads
  rw [isWord] at reads ⊢
  refine .accept rfl fun _ _ => .skip (noLine_of_starts starts) ?_
  exact .last reads fun a same => .done ⟨a, rfl, same⟩

theorem runs_argument_none {token : Token} {rest : List Token}
    (isClose : token.word = Word.rightParen) (reached : Position) (bad : Bool) :
    Runs (argument? rules) ⟨token :: rest, reached, bad⟩ none ⟨token :: rest, reached, bad⟩ :=
  .bind (runs_accept?_none (next?_ne_of_word isClose closes_rightParen.noComma)) (.pure _ _)

theorem reads_arguments (each : ∀ a ∈ args, ReadsItem rules.expr Expr.words Expr.bare a) :
    ReadsWords (arguments rules)
      (Word.leftParen :: Word.listed (args.map Expr.words) ++ [Word.rightParen]) k fun as =>
        as.map Expr.bare = args.map Expr.bare := by
  refine .expect rfl fun _ _ => ?_
  cases args with
  | nil =>
    refine .skip (by decide) (.look ?_)
    exact .take fun _ _ => .done rfl
  | cons x xs =>
    obtain ⟨first, others⟩ := forall_mem_cons.1 each
    have reads := reads_items first (fun x member => reads_argument (others x member))
      closes_rightParen.level (fun _ _ _ _ isClose => runs_argument_none isClose _ _)
      (fun as same => (.skip (by decide) (.expect rfl fun _ _ => .done same) :
        ReadsWords (do skipMany .newline; let _ ← expect .rightParen; return as) [Word.rightParen] k
          fun as => as.map Expr.bare = (x :: xs).map Expr.bare))
    obtain ⟨w, rest, isWord, starts⟩ := first.head
    rw [map_cons, listed_cons, isWord] at reads ⊢
    refine .skip (noLine_of_starts starts) (.look ?_)
    have noClose : some w.terminal ≠ some .rightParen := closes_rightParen.ne_of_starts starts
    rw [if_neg noClose]
    exact reads

/-! ## Suffixes -/

theorem bare_markCalled {e e' : Expr} (same : e.bare = e'.bare) :
    (markCalled e).bare = (markCalled e').bare := by
  have swap (e : Expr) : (markCalled e).bare = markCalled e.bare := by cases e <;> rfl
  rw [swap, swap, same]

theorem markCalled_of_not_var (other : e.isVar = false) : markCalled e = e := by
  cases e <;> first | rfl | cases other

theorem reads_field {left : Expr} {name : Ident} :
    ReadsWords (suffix? rules) [Word.dot, name.word] k fun b => ∃ b', b = some b' ∧
      ∀ object : Expr, object.bare = left.bare →
        (b'.apply object).bare = (Expr.dot left name range).bare := by
  refine .look (.take fun _ _ => .expect rfl fun token isName => .done ⟨_, rfl, ?_⟩)
  intro object same
  obtain ⟨-, text⟩ := Word.mk.inj isName
  rw [Suffix.apply, Expr.bare, Expr.bare, same, ident, text]

theorem reads_key {left key : Expr}
    (reads : ReadsWords rules.expr key.words 0 (·.bare = key.bare)) :
    ReadsWords (suffix? rules) (Word.leftBracket :: key.words ++ [Word.rightBracket]) k fun b =>
      ∃ b', b = some b' ∧ ∀ object : Expr, object.bare = left.bare →
        (b'.apply object).bare = (Expr.index left key range).bare := by
  refine .look (.take fun _ _ => .bind reads nofun fun key' isKey => ?_)
  refine .expect rfl fun _ _ => .done ⟨_, rfl, fun object same => ?_⟩
  rw [Suffix.apply, Expr.bare, Expr.bare, same, isKey]

theorem reads_call {left : Expr} (each : ∀ a ∈ args, ReadsItem rules.expr Expr.words Expr.bare a) :
    ReadsWords (suffix? rules)
      (Word.leftParen :: Word.listed (args.map Expr.words) ++ [Word.rightParen]) k fun b =>
        ∃ b', b = some b' ∧ ∀ object : Expr, object.bare = left.bare →
          (b'.apply object).bare = (Expr.call (markCalled left) args range).bare := by
  refine .look (.last (reads_arguments each) fun args' isArgs => ?_)
  refine .still (fun c => ⟨c, runs_get c⟩) fun c => .done ⟨_, rfl, fun object same => ?_⟩
  rw [Suffix.apply, Expr.bare, Expr.bare, bare_markCalled same, Expr.bareAll_eq, Expr.bareAll_eq,
    isArgs]

theorem runs_suffix_none {tail : List Token} (stops : Stops 11 tail) (reached : Position)
    (bad : Bool) : Runs (suffix? rules) ⟨tail, reached, bad⟩ none ⟨tail, reached, bad⟩ := by
  have other {t : Terminal} (joins : ∀ text, (Word.mk t text).level? = some 11) :
      (⟨tail, reached, bad⟩ : Cursor).next? ≠ some t :=
    stops.next?_ne joins le_rfl
  refine .bind (runs_look _) ?_
  split
  case h_1 isNext => exact absurd isNext (other fun _ => rfl)
  case h_2 isNext => exact absurd isNext (other fun _ => rfl)
  case h_3 isNext => exact absurd isNext (other fun _ => rfl)
  case h_4 isNext => exact absurd isNext (other fun _ => rfl)
  case h_5 isNext => exact absurd isNext (other fun _ => rfl)
  case h_6 => exact .pure _ _

/-! ## Operands -/

theorem reads_var {name : Ident} :
    ReadsWords (atom rules) [name.word] k (·.bare = (Expr.var name false).bare) := by
  refine .look (.take fun token isName => .done ?_)
  obtain ⟨-, text⟩ := Word.mk.inj isName
  rw [Expr.bare, Expr.bare, ident, text]

theorem reads_literal {kind : LiteralKind} {text : String}
    (isBoolean : kind = .boolean → text = "true" ∨ text = "false")
    (isInvalid : kind = .invalid → text = "invalid") : ReadsWords (atom rules) [kind.word text] k
      (·.bare = (Expr.literal kind text range).bare) := by
  have reads : ReadsWords (literal kind) [kind.word text] k
      (·.bare = (Expr.literal kind text range).bare) := by
    refine .take fun token isWord => .done ?_
    obtain ⟨-, isText⟩ := Word.mk.inj isWord
    rw [Expr.bare, Expr.bare, isText]
    cases kind with
    | string | number => rfl
    | boolean => rcases isBoolean rfl with rfl | rfl <;> rfl
    | invalid => rw [isInvalid rfl]
  refine .look ?_
  cases kind with
  | string | number | invalid => exact reads
  | boolean => rcases isBoolean rfl with rfl | rfl <;> exact reads

theorem reads_group {inner : Expr}
    (reads : ReadsWords rules.expr inner.words 0 (·.bare = inner.bare)) :
    ReadsWords (atom rules) (Expr.group inner range).words k
      (·.bare = (Expr.group inner range).bare) := by
  refine .look (.here fun _ => .expect rfl fun _ _ => .bind reads nofun fun inner' same => ?_)
  refine .expect rfl fun _ _ => .since fun _ => .done ?_
  rw [Expr.bare, Expr.bare, same]

theorem reads_array {items : List Expr}
    (each : ∀ e ∈ items, ReadsItem rules.expr Expr.words Expr.bare e) :
    ReadsWords (atom rules) (Expr.array items range).words k
      (·.bare = (Expr.array items range).bare) := by
  rw [Expr.words, Expr.wordsOf_eq]
  refine .look (.here fun _ => .expect rfl fun _ _ => ?_)
  refine .last (reads_listUpTo closes_rightBracket each) fun items' same => ?_
  refine .since fun _ => .done ?_
  rw [Expr.bare, Expr.bare, Expr.bareAll_eq, Expr.bareAll_eq, same]

/-! ### Members -/

theorem undouble_doubled (cs : List Char) : undouble (doubled cs) = cs := by
  induction cs with
  | nil => rfl
  | cons c cs ih =>
    rw [doubled, flatMap_cons]
    by_cases isQuote : c = '"'
    · rw [if_pos isQuote, isQuote]
      exact congrArg ('"' :: ·) ih
    · rw [if_neg isQuote]
      show undouble (c :: doubled cs) = c :: cs
      rw [undouble, ih]
      rintro _ rfl
      exact absurd rfl isQuote

theorem unquote_stringText (s : String) : unquote (stringText s) = s := by
  rw [unquote, stringText, String.toList_ofList]
  show (if (doubled s.toList ++ ['"']).getLast? = some '"' then
    String.ofList (undouble (doubled s.toList ++ ['"']).dropLast) else _) = s
  rw [if_pos getLast?_concat, dropLast_concat, undouble_doubled, String.ofList_toList]

theorem reads_member {m : Member}
    (reads : ReadsWords rules.expr m.value.words 0 (·.bare = m.value.bare)) :
    ReadsItem (member rules) Member.words Member.bare m where
  reads := by
    refine .look (.take fun token isKey => .expect rfl fun _ _ => ?_)
    refine .last reads fun value same => .done ?_
    obtain ⟨-, text⟩ := Word.mk.inj isKey
    rw [Member.bare, Member.bare, same, text, unquote_stringText]
  head := ⟨_, _, rfl, rfl⟩

theorem reads_table {members : List Member}
    (each : ∀ m ∈ members, ReadsItem (member rules) Member.words Member.bare m) :
    ReadsWords (atom rules) (Expr.table members range).words k
      (·.bare = (Expr.table members range).bare) := by
  rw [Expr.words, Member.wordsOf_eq]
  refine .look (.here fun _ => .expect rfl fun _ _ => ?_)
  refine .last (reads_listUpTo closes_rightBrace each) fun members' same => ?_
  refine .since fun _ => .done ?_
  rw [Expr.bare, Expr.bare, Member.bareAll_eq, Member.bareAll_eq, same]

/-! ### New objects -/

/-- A name, and more of them behind dots. -/
theorem runs_dotted (dotted : e.Dotted) {tokens : List Token}
    (spelled : tokens.map Token.word = e.words) (tail : List Token) (reached : Position)
    (bad : Bool) :
    ∃ first c more reached', Runs (expect .name) ⟨tokens ++ tail, reached, bad⟩ first c ∧
      Steps namePart? c more ⟨tail, reached', bad⟩ ∧ more.isEmpty = e.isVar ∧
      (more.foldl joinNamePart (.var (ident first) false)).bare = e.bare := by
  induction dotted generalizing tokens tail with
  | first =>
    obtain ⟨t, rfl, isName⟩ := map_eq_singleton_iff.1 spelled
    obtain ⟨terminal, text⟩ := Word.mk.inj isName
    refine ⟨t, _, [], _, runs_expect terminal, .done, rfl, ?_⟩
    rw [foldl_nil, Expr.bare, Expr.bare, ident, text]
  | @next object name range _ _ ih =>
    obtain ⟨front, behind, rfl, isObject, isField⟩ := map_eq_append_iff.1 spelled
    obtain ⟨dot, part, rfl, isDot, isPart⟩ := map_eq_cons_iff.1 isField
    obtain ⟨t, rfl, isName⟩ := map_eq_singleton_iff.1 isPart
    obtain ⟨terminal, text⟩ := Word.mk.inj isName
    obtain ⟨first, c, more, reached', run, steps, -, same⟩ := ih isObject (dot :: t :: tail)
    have step : Runs namePart? ⟨dot :: t :: tail, reached', bad⟩ (some t)
        ⟨tail, t.range.stop, bad⟩ :=
      .bind (runs_accept? (congrArg Word.terminal isDot)) (.bind (runs_expect terminal) (.pure _ _))
    refine ⟨first, c, more ++ [t], _, ?_, steps.append (.more step ?_ .done), ?_, ?_⟩
    · rw [append_assoc]
      exact run
    · exact Nat.lt_add_of_pos_right Nat.two_pos
    · cases more <;> rfl
    · rw [foldl_append, foldl_cons, foldl_nil, joinNamePart, Expr.bare, Expr.bare,
        same, ident, text]

/-- What an object is made of, in front of its arguments. Only a name alone counts as called. -/
theorem reads_creates {β : Type} {f : Token → List Token → Parser β} {w : Word} {ws : List Word}
    {holds : β → Prop} (creates : e.Creates) (noDot : w.terminal ≠ .dot) (next : ∀ first more,
      (more.foldl joinNamePart (.var (ident first) more.isEmpty)).bare = e.bare →
        ReadsWords (f first more) (w :: ws) k holds) : ReadsWords (do
      let first ← expect .name
      let more ← collect namePart?
      f first more) (e.words ++ w :: ws) k holds := by
  have stop (token : Token) (rest reached bad) (isWord : token.word = w) :
      Runs namePart? ⟨token :: rest, reached, bad⟩ none ⟨token :: rest, reached, bad⟩ :=
    .bind (runs_accept?_none (next?_ne_of_word isWord noDot)) (.pure _ _)
  cases creates with
  | name =>
    refine .expect rfl fun first isName => .before (fun token rest reached bad isWord =>
      runs_collect .done (stop token rest reached bad isWord)) (next first [] ?_)
    obtain ⟨-, text⟩ := Word.mk.inj isName
    rw [foldl_nil, isEmpty_nil, Expr.bare, Expr.bare, ident, text]
  | @dotted object name range dotted free =>
    intro tokens tail reached bad spelled stops
    obtain ⟨front, behind, rfl, isFront, isBehind⟩ := map_eq_append_iff.1 spelled
    obtain ⟨first, c, more, reached', run, steps, isMore, same⟩ :=
      runs_dotted (.next dotted free) isFront (behind ++ tail) reached bad
    have called : (more.foldl joinNamePart (.var (ident first) more.isEmpty)).bare =
        (Expr.dot object name range).bare := by
      rw [isMore]
      exact same
    obtain ⟨b, reached'', run', result⟩ :=
      next first more called behind tail reached' bad isBehind stops
    obtain ⟨t, others, rfl, isWord, -⟩ := map_eq_cons_iff.1 isBehind
    refine ⟨b, reached'', ?_, result⟩
    rw [append_assoc]
    exact run.bind ((runs_collect steps (stop t _ _ _ isWord)).bind run')

theorem reads_new {callee : Expr} {callRange : Range} (creates : callee.Creates)
    (each : ∀ a ∈ args, ReadsItem rules.expr Expr.words Expr.bare a) :
    ReadsWords (atom rules) (Expr.new callee args callRange range).words k
      (·.bare = (Expr.new callee args callRange range).bare) := by
  rw [Expr.words, Expr.wordsOf_eq, append_assoc]
  refine .look (.here fun _ => .expect rfl fun _ _ => ?_)
  refine reads_creates creates (by decide) fun first more isCallee => ?_
  refine .last (reads_arguments each) fun args' isArgs => .since fun _ => .done ?_
  rw [Expr.bare, Expr.bare, Expr.bareAll_eq, Expr.bareAll_eq, isCallee, isArgs]

/-! ## Levels -/

/-- The rule for the expressions of a level. -/
def levelParser (rules : Rules) (k : Nat) : Parser Expr :=
  if k = 0 then conditional rules
  else if k ≤ 4 then levels (prefixed .kwNot (comparison rules)) (looseLevels.drop (k - 1))
  else if k ≤ 10 then levels (prefixed .addOp (chain rules)) (tightLevels.drop (k - 5))
  else chain rules

theorem levelParser_level (op : BinaryOp) : levelParser rules op.level =
      leftChain (opsAt op.level) (levelParser rules (op.level + 1)) := by
  cases op <;> rfl

/-- How far the rule of a level has come when it has read an expression. -/
def LevelReads (rules : Rules) (k : Nat) (e : Expr) : Prop :=
  match k with
  | 0 => ReadsWords (conditional rules) e.words 0 (·.bare = e.bare)
  | 4 => ReadsPrefixed .kwNot (levelParser rules 5) 5 e
  | 10 => ReadsPrefixed .addOp (levelParser rules 11) 11 e
  | 11 => ReadsSpine (atom rules) (suffix? rules) Suffix.apply 12 e
  | k =>
    ReadsSpine (levelParser rules (k + 1)) (operatorTail? (opsAt k) (levelParser rules (k + 1)))
      joinBinary (k + 1) e

/-- What stands at a level of the grammar. -/
theorem level_cases (le : k ≤ 11) :
    k = 0 ∨ k = 4 ∨ k = 10 ∨ k = 11 ∨ ∃ op : BinaryOp, op.level = k :=
  match k, le with
  | 0, _ => .inl rfl
  | 1, _ => .inr (.inr (.inr (.inr ⟨.coalesce, rfl⟩)))
  | 2, _ => .inr (.inr (.inr (.inr ⟨.or, rfl⟩)))
  | 3, _ => .inr (.inr (.inr (.inr ⟨.and, rfl⟩)))
  | 4, _ => .inr (.inl rfl)
  | 5, _ => .inr (.inr (.inr (.inr ⟨.equal, rfl⟩)))
  | 6, _ => .inr (.inr (.inr (.inr ⟨.shiftLeft, rfl⟩)))
  | 7, _ => .inr (.inr (.inr (.inr ⟨.add, rfl⟩)))
  | 8, _ => .inr (.inr (.inr (.inr ⟨.multiply, rfl⟩)))
  | 9, _ => .inr (.inr (.inr (.inr ⟨.power, rfl⟩)))
  | 10, _ => .inr (.inr (.inl rfl))
  | 11, _ => .inr (.inr (.inr (.inl rfl)))

theorem levelReads_level {op : BinaryOp} : LevelReads rules op.level e ↔
      ReadsSpine (levelParser rules (op.level + 1))
        (operatorTail? (opsAt op.level) (levelParser rules (op.level + 1))) joinBinary
        (op.level + 1) e := by
  cases op <;> exact Iff.rfl

/-- The rule of a level reads the expressions of the level. -/
theorem LevelReads.reads (le : k ≤ 11) (reads : LevelReads rules k e) :
    ReadsWords (levelParser rules k) e.words k (·.bare = e.bare) := by
  obtain rfl | rfl | rfl | rfl | ⟨op, rfl⟩ := level_cases le
  · exact reads
  · exact (ReadsPrefixed.reads reads).mono (Nat.le_succ 4)
  · exact (ReadsPrefixed.reads reads).mono (Nat.le_succ 10)
  · exact ReadsSpine.reads reads fun _ _ _ stops => runs_suffix_none stops _ _
  · rw [levelParser_level]
    exact (levelReads_level.1 reads).reads fun _ _ _ stops => runs_operatorTail_none stops _ _

/-- An expression of a tighter level. -/
theorem LevelReads.of_tighter (le : k ≤ 10)
    (reads : ReadsWords (levelParser rules (k + 1)) e.words (k + 1) (·.bare = e.bare))
    (head : ∃ w rest, e.words = w :: rest ∧ Expr.startsAt (k + 1) w.terminal) :
    LevelReads rules k e := by
  have noSign {t : Terminal} (other : ¬ Expr.startsAt (k + 1) t) :
      ∃ w rest, e.words = w :: rest ∧ w.terminal ≠ t := by
    obtain ⟨w, rest, words, starts⟩ := head
    exact ⟨w, rest, words, fun isSign => other (isSign ▸ starts)⟩
  obtain rfl | rfl | rfl | rfl | ⟨op, rfl⟩ := level_cases (le.trans (Nat.le_succ 10))
  · intro tokens tail reached bad spelled stops
    obtain ⟨test, reached', run, same⟩ :=
      reads tokens tail reached bad spelled (stops.mono (Nat.zero_le 1))
    have noTest : (⟨tail, reached', bad⟩ : Cursor).next? ≠ some .question :=
      stops.next?_ne (fun _ => rfl) le_rfl
    exact ⟨test, reached', run.bind ((runs_accept?_none noTest).bind (.pure _ _)), same⟩
  · exact ReadsPrefixed.of_operand reads (noSign (by decide))
  · exact ReadsPrefixed.of_operand reads (noSign (by decide))
  · exact absurd le (by decide)
  · exact levelReads_level.2 (.of_operand reads)

/-- A condition with its two results. -/
theorem reads_ternary {test onTrue onFalse : Expr}
    (isTest : ReadsWords (levelParser rules 1) test.words 1 (·.bare = test.bare))
    (isTrue : ReadsWords rules.expr onTrue.words 0 (·.bare = onTrue.bare))
    (isFalse : ReadsWords rules.expr onFalse.words 0 (·.bare = onFalse.bare)) :
    ReadsWords (conditional rules) (Expr.ternary test onTrue onFalse range).words 0
      (·.bare = (Expr.ternary test onTrue onFalse range).bare) := by
  rw [Expr.words, append_assoc]
  refine .bind isTest ?_ fun test' same => .accept rfl fun _ _ => ?_
  · rintro _ ⟨⟩
    exact Nat.zero_lt_one
  refine .bind isTrue (by rintro _ ⟨⟩) fun onTrue' same' => .expect rfl fun _ _ => ?_
  refine .last isFalse fun onFalse' same'' => .done ?_
  rw [Expr.bare, Expr.bare, same, same', same'']

theorem unaryOp_of_word {t : Token} {op : UnaryOp} (isOp : t.word = op.word) : unaryOp t = op := by
  obtain ⟨terminal, text, range⟩ := t
  obtain ⟨rfl, rfl⟩ := Word.mk.inj isOp
  cases op <;> rfl

theorem length_le_listed {part : List Word} {parts : List (List Word)} (member : part ∈ parts) :
    part.length ≤ (Word.listed parts).length := by
  cases parts with
  | nil => cases member
  | cons first others =>
    rw [listed_cons, length_append]
    rcases mem_cons.1 member with rfl | isOther
    · exact Nat.le_add_right _ _
    · have within : (Word.comma :: part).Sublist (others.flatMap (Word.comma :: ·)) :=
        sublist_flatten_of_mem (mem_map_of_mem isOther)
      have fewer := within.length_le
      rw [length_cons] at fewer
      omega

/-! ## Whole expressions -/

/-- An expression is read back by the rule of a level, with as many rules inside each other as there
are words. -/
def ReadsBack (embedded : Token → Option (List Expr)) (k : Nat) (e : Expr) : Prop :=
  ∀ n, e.words.length ≤ n → LevelReads (rulesUpTo embedded n) k e

variable {embedded : Token → Option (List Expr)} {n : Nat}

/-- Between brackets fewer words are left, and one rule less. -/
theorem ReadsBack.inner (back : ReadsBack embedded 0 e) (fewer : e.words.length < n) :
    ReadsWords (rulesUpTo embedded n).expr e.words 0 (·.bare = e.bare) := by
  cases n with
  | zero => exact absurd fewer (Nat.not_lt_zero _)
  | succ m => exact back m (Nat.le_of_lt_succ fewer)

theorem ReadsBack.items {es : List Expr} (fits : ∀ e ∈ es, e.Fits 0)
    (back : ∀ e ∈ es, ReadsBack embedded 0 e)
    (fewer : (Word.listed (es.map Expr.words)).length < n) :
    ∀ e ∈ es, ReadsItem (rulesUpTo embedded n).expr Expr.words Expr.bare e := by
  intro e member
  refine ⟨(back e member).inner ?_, (fits e member).head⟩
  exact (length_le_listed (mem_map_of_mem member)).trans_lt fewer

theorem ReadsBack.members {ms : List Member} (back : ∀ m ∈ ms, ReadsBack embedded 0 m.value)
    (fewer : (Word.listed (ms.map Member.words)).length < n) :
    ∀ m ∈ ms, ReadsItem (member (rulesUpTo embedded n)) Member.words Member.bare m := by
  intro m isMember
  have le : m.words.length ≤ (Word.listed (ms.map Member.words)).length :=
    length_le_listed (mem_map_of_mem isMember)
  rw [Member.words, length_cons, length_cons] at le
  exact reads_member ((back m isMember).inner (by omega))

/-- One more suffix behind an operand. -/
theorem LevelReads.suffix {left : Expr} {w : Word} {ws : List Word}
    (object : LevelReads rules 11 left) (words : e.words = left.words ++ w :: ws)
    (isSuffix : w.level? = some 11)
    (reads : ReadsWords (suffix? rules) (w :: ws) 12 fun b => ∃ b', b = some b' ∧
      ∀ object : Expr, object.bare = left.bare → (b'.apply object).bare = e.bare) :
    LevelReads rules 11 e := by
  refine ReadsSpine.extend object words ⟨w, ws, rfl, ?_⟩ reads
  rw [isSuffix]
  rintro _ ⟨⟩
  decide

/-- Arguments behind an operand, which is called if it is a name. -/
theorem ReadsBack.call {left : Expr} {args : List Expr} (object : ReadsBack embedded 11 left)
    (fits : ∀ a ∈ args, a.Fits 0) (back : ∀ a ∈ args, ReadsBack embedded 0 a) :
    ReadsBack embedded 11 (.call (markCalled left) args range) := by
  have words : (Expr.call (markCalled left) args range).words =
      left.words ++ (Word.leftParen :: Word.listed (args.map Expr.words) ++ [Word.rightParen]) := by
    have same : (markCalled left).words = left.words := by cases left <;> rfl
    rw [Expr.words, Expr.wordsOf_eq, same, append_assoc]
  intro n enough
  rw [words] at enough
  simp only [length_append, length_cons] at enough
  exact (object n (by omega)).suffix words rfl (reads_call (ReadsBack.items fits back (by omega)))

/-- An expression is read back from its words. -/
theorem readsBack_of_fits (fits : e.Fits k) : ReadsBack embedded k e := by
  induction fits with
  | tighter fits ih =>
    intro n enough
    exact .of_tighter (Nat.le_of_succ_le_succ fits.level_le) ((ih n enough).reads fits.level_le)
      fits.head
  | ternary fits _ _ test onTrue onFalse =>
    intro n enough
    rw [Expr.words] at enough
    simp only [length_append, length_cons] at enough
    exact reads_ternary ((test n (by omega)).reads fits.level_le) (onTrue.inner (by omega))
      (onFalse.inner (by omega))
  | @binary left right op range _ fits isLeft isRight =>
    intro n enough
    rw [Expr.words, length_append, length_cons] at enough
    have reads := (isRight n (by omega)).reads fits.level_le
    refine levelReads_level.2 ?_
    refine (levelReads_level.1 (isLeft n (by omega))).extend rfl ⟨_, _, rfl, ?_⟩
      (reads_operatorTail reads)
    rw [level?_word]
    rintro _ ⟨⟩
    exact Nat.lt_succ_self _
  | negation _ operand =>
    intro n enough
    exact ReadsPrefixed.sign (operand n (Nat.le_of_succ_le enough)) rfl fun _ => unaryOp_of_word
  | @sign op _ _ isSign _ operand =>
    intro n enough
    have terminal : op.word.terminal = .addOp := by
      cases op with
      | not => exact absurd rfl isSign
      | plus | minus => rfl
    exact ReadsPrefixed.sign (operand n (Nat.le_of_succ_le enough)) terminal
      fun _ => unaryOp_of_word
  | dot _ free object =>
    intro n enough
    rw [Expr.words, length_append] at enough
    exact (object n (by omega)).suffix rfl rfl reads_field
  | index _ _ object key =>
    intro n enough
    rw [Expr.words] at enough
    simp only [length_append, length_cons] at enough
    exact (object n (by omega)).suffix (append_assoc _ _ _) rfl
      (reads_key (key.inner (by omega)))
  | @callName name _ _ free fits args =>
    have object : ReadsBack embedded 11 (.var name false) := fun _ _ => .of_operand reads_var
    exact object.call fits args
  | @call callee _ _ _ noVar fits object args =>
    rw [← markCalled_of_not_var noVar]
    exact object.call fits args
  | var free => exact fun _ _ => .of_operand reads_var
  | number isNumber => exact fun _ _ => .of_operand (reads_literal (by simp) (by simp))
  | string oneLine => exact fun _ _ => .of_operand (reads_literal (by simp) (by simp))
  | boolean isBoolean => exact fun _ _ => .of_operand (reads_literal (fun _ => isBoolean) (by simp))
  | invalid => exact fun _ _ => .of_operand (reads_literal (by simp) fun _ => rfl)
  | group _ ih =>
    intro n enough
    rw [Expr.words, length_append, length_cons] at enough
    exact .of_operand (reads_group (ih.inner (by omega)))
  | new creates fits args =>
    intro n enough
    rw [Expr.words, Expr.wordsOf_eq] at enough
    simp only [length_append, length_cons] at enough
    exact .of_operand (reads_new creates (ReadsBack.items fits args (by omega)))
  | array fits items =>
    intro n enough
    rw [Expr.words, Expr.wordsOf_eq, length_append, length_cons] at enough
    exact .of_operand (reads_array (ReadsBack.items fits items (by omega)))
  | table _ _ members =>
    intro n enough
    rw [Expr.words, Member.wordsOf_eq, length_append, length_cons] at enough
    exact .of_operand (reads_table (ReadsBack.members members (by omega)))

end ChannelLint.Parser
