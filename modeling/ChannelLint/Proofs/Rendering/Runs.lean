import ChannelLint.Proofs.Casing.Cursor
import ChannelLint.Proofs.Rendering.Words

/-!
# Running a parser over known tokens

`Runs` follows a parser from one cursor to another, and `Steps` follows the repetitions of a step.
`ReadsWords` says what a parser reads from tokens that spell given words, whatever stands behind
them, as long as it does not go on with an expression of some level. Rules that group from the left
read an operand and then join more to it, rules for signs take the signs first; `ReadsSpine` and
`ReadsPrefixed` say how far such a rule has come.
-/
namespace ChannelLint

open List

variable {k : Terminal} {tail tokens : List Token} {reached : Position} {w : Word}

/-- The level of the expressions that go on with a word. -/
def Word.level? (w : Word) : Option Nat :=
  match Parser.binaryOp? ⟨w.terminal, w.text, .empty⟩ with
  | some op => some op.level
  | none =>
    match w.terminal with
    | .question => some 0
    | .dot | .optionalDot | .at | .leftBracket | .leftParen => some 11
    | _ => none

namespace Parser

variable {α β : Type}

/-! ## Runs -/

/-- A parser gives a result and moves from one cursor to another. -/
def Runs (p : Parser α) (c : Cursor) (a : α) (c' : Cursor) : Prop :=
  p.run c = .ok (a, c')

section

variable {p : Parser α} {f : α → Parser β} {c c' c'' : Cursor} {a : α} {b : β} {t : Token}
  {rest : List Token} {bad : Bool}

theorem Runs.bind (first : Runs p c a c') (next : Runs (f a) c' b c'') :
    Runs (p >>= f) c b c'' := by
  unfold Runs at first next ⊢
  rw [StateT.run_bind, first]
  exact next

theorem Runs.pure (a : α) (c : Cursor) : Runs (Pure.pure a) c a c :=
  rfl

theorem runs_look (c : Cursor) : Runs look c c.next? c :=
  rfl

theorem runs_look_of (isNext : t.terminal = k) :
    Runs look ⟨t :: rest, reached, bad⟩ (some k) ⟨t :: rest, reached, bad⟩ :=
  isNext ▸ rfl

theorem runs_peek (c : Cursor) : Runs peek? c c.rest.head? c :=
  rfl

theorem runs_get (c : Cursor) : Runs get c c c :=
  rfl

theorem runs_here (c : Cursor) : ∃ p, Runs here c p c :=
  ⟨_, rfl⟩

theorem runs_since (start : Position) (c : Cursor) : Runs (since start) c ⟨start, c.reached⟩ c :=
  rfl

theorem runs_take : Runs take ⟨t :: rest, reached, bad⟩ t ⟨rest, t.range.stop, bad⟩ :=
  rfl

theorem runs_expect (isNext : t.terminal = k) :
    Runs (expect k) ⟨t :: rest, reached, bad⟩ t ⟨rest, t.range.stop, bad⟩ := by
  refine .bind (runs_look_of isNext) ?_
  rw [if_pos rfl]
  exact runs_take

theorem runs_accept? (isNext : t.terminal = k) :
    Runs (accept? k) ⟨t :: rest, reached, bad⟩ (some t) ⟨rest, t.range.stop, bad⟩ := by
  refine .bind (runs_look_of isNext) ?_
  rw [if_pos rfl]
  exact .bind runs_take (.pure _ _)

theorem runs_accept?_none (other : c.next? ≠ some k) : Runs (accept? k) c none c := by
  refine .bind (runs_look c) ?_
  rw [if_neg other]
  exact .pure _ _

end

/-! ## Repetitions -/

/-- What a step gives when it is repeated; each time it takes a token. -/
inductive Steps (step : Parser (Option α)) : Cursor → List α → Cursor → Prop
  | done {c : Cursor} : Steps step c [] c
  | more {c c' c'' : Cursor} {a : α} {as : List α} : Runs step c (some a) c' →
    c'.rest.length < c.rest.length → Steps step c' as c'' → Steps step c (a :: as) c''

section

variable {step : Parser (Option α)} {c c' c'' : Cursor} {a : α} {as bs : List α}

theorem Steps.append (first : Steps step c as c') (second : Steps step c' bs c'') :
    Steps step c (as ++ bs) c'' := by
  induction first with
  | done => exact second
  | more run shorter _ ih => exact .more run shorter (ih second)

theorem Steps.length_le (steps : Steps step c as c') : as.length ≤ c.rest.length := by
  induction steps with
  | done => exact Nat.zero_le _
  | more _ shorter _ ih =>
    rw [length_cons]
    omega

theorem runs_collectUpTo (steps : Steps step c as c') (stop : Runs step c' none c'') {n : Nat}
    (enough : as.length < n) : Runs (collectUpTo step n) c as c'' := by
  induction steps generalizing n with
  | done =>
    cases n with
    | zero => exact absurd enough (Nat.not_lt_zero _)
    | succ n => exact .bind stop (.pure _ _)
  | more run _ _ ih =>
    cases n with
    | zero => exact absurd enough (Nat.not_lt_zero _)
    | succ n =>
      exact .bind run (.bind (ih stop (Nat.lt_of_succ_lt_succ enough)) (.pure _ _))

/-- Steps up to one that gives nothing are collected. -/
theorem runs_collect (steps : Steps step c as c') (stop : Runs step c' none c'') :
    Runs (collect step) c as c'' :=
  .bind (runs_get c) (runs_collectUpTo steps stop (Nat.lt_succ_of_le steps.length_le))

theorem runs_skipMany (other : c.next? ≠ some k) : Runs (skipMany k) c () c :=
  .bind (runs_collect .done (runs_accept?_none other)) (.pure _ _)

end

/-! ## Reading words -/

/-- No expression of level `k`, or of a tighter one, goes on with the next token. -/
def Stops (k : Nat) (tail : List Token) : Prop :=
  ∀ t ∈ tail.head?, ∀ j ∈ t.word.level?, j < k

theorem Stops.mono {j k : Nat} (stops : Stops j tail) (le : j ≤ k) : Stops k tail :=
  fun t first i joins => (stops t first i joins).trans_le le

/-- The next token is none that an expression of the level would go on with. -/
theorem Stops.next?_ne {j k : Nat} {bad : Bool}
    {t : Terminal} (stops : Stops k tail) (joins : ∀ text, (Word.mk t text).level? = some j)
    (le : k ≤ j) : (⟨tail, reached, bad⟩ : Cursor).next? ≠ some t := by
  intro isNext
  obtain ⟨token, first, rfl⟩ := Option.map_eq_some_iff.1 isNext
  exact absurd (stops token first j (joins token.text)) (Nat.not_lt.2 le)

theorem next?_ne_of_word {token : Token} {rest : List Token} {bad : Bool} {t : Terminal}
    (isWord : token.word = w) (other : w.terminal ≠ t) :
    (⟨token :: rest, reached, bad⟩ : Cursor).next? ≠ some t :=
  fun isNext => other (isWord ▸ Option.some.inj isNext)

/-- No expression goes on with the first of the words. -/
theorem stops_of_words {k : Nat} {ws : List Word}
    (spelled : tokens.map Token.word = w :: ws) (looser : ∀ j ∈ w.level?, j < k) :
    Stops k (tokens ++ tail) := by
  obtain ⟨t, rest, rfl, rfl, -⟩ := map_eq_cons_iff.1 spelled
  rintro _ ⟨⟩
  exact looser

theorem length_lt_of_words {ws : List Word}
    (spelled : tokens.map Token.word = w :: ws) : tail.length < (tokens ++ tail).length := by
  have filled := congrArg List.length spelled
  rw [length_map, length_cons] at filled
  rw [length_append]
  omega

/-- From tokens that spell the words a parser reads something with the given property, and stops
behind them, if no expression of level `k` goes on there. -/
def ReadsWords (p : Parser α) (words : List Word) (k : Nat) (holds : α → Prop) : Prop :=
  ∀ tokens tail reached bad, tokens.map Token.word = words → Stops k tail →
    ∃ a reached', Runs p ⟨tokens ++ tail, reached, bad⟩ a ⟨tail, reached', bad⟩ ∧ holds a

namespace ReadsWords

variable {p : Parser α} {f : α → Parser β} {ws vs : List Word} {j k : Nat} {t : Terminal}
  {holds : α → Prop} {holds' : β → Prop}

theorem mono (reads : ReadsWords p ws k holds) (le : j ≤ k) : ReadsWords p ws j holds :=
  fun tokens tail reached bad spelled stops =>
    reads tokens tail reached bad spelled (stops.mono le)

theorem done {a : α} (result : holds a) : ReadsWords (Pure.pure a) [] k holds := by
  intro tokens tail reached bad spelled stops
  obtain rfl := map_eq_nil_iff.1 spelled
  exact ⟨a, reached, .pure _ _, result⟩

/-- A rule reads some words and goes on with others behind them. -/
theorem bind (first : ReadsWords p ws j holds) (looser : ∀ i ∈ w.level?, i < j)
    (next : ∀ a, holds a → ReadsWords (f a) (w :: vs) k holds') :
    ReadsWords (p >>= f) (ws ++ w :: vs) k holds' := by
  intro tokens tail reached bad spelled stops
  obtain ⟨front, behind, rfl, isFirst, isNext⟩ := map_eq_append_iff.1 spelled
  obtain ⟨a, reached', run, result⟩ :=
    first front (behind ++ tail) reached bad isFirst (stops_of_words isNext looser)
  obtain ⟨b, reached'', run', result'⟩ := next a result behind tail reached' bad isNext stops
  rw [append_assoc]
  exact ⟨b, reached'', run.bind run', result'⟩

/-- A rule reads the words to their end. -/
theorem last (first : ReadsWords p ws k holds)
    (next : ∀ a, holds a → ReadsWords (f a) [] k holds') : ReadsWords (p >>= f) ws k holds' := by
  intro tokens tail reached bad spelled stops
  obtain ⟨a, reached', run, result⟩ := first tokens tail reached bad spelled stops
  obtain ⟨b, reached'', run', result'⟩ := next a result [] tail reached' bad rfl stops
  exact ⟨b, reached'', run.bind run', result'⟩

/-- A rule that moves nothing. -/
theorem still (quiet : ∀ c, ∃ a, Runs p c a c) (next : ∀ a, ReadsWords (f a) ws k holds') :
    ReadsWords (p >>= f) ws k holds' := by
  intro tokens tail reached bad spelled stops
  obtain ⟨a, run⟩ := quiet ⟨tokens ++ tail, reached, bad⟩
  obtain ⟨b, reached', run', result⟩ := next a tokens tail reached bad spelled stops
  exact ⟨b, reached', run.bind run', result⟩

theorem here {f : Position → Parser β} (next : ∀ q, ReadsWords (f q) ws k holds') :
    ReadsWords (here >>= f) ws k holds' :=
  still runs_here next

theorem since {f : Range → Parser β} {start : Position}
    (next : ∀ r, ReadsWords (f r) ws k holds') : ReadsWords (since start >>= f) ws k holds' :=
  still (fun c => ⟨_, runs_since start c⟩) next

/-- A rule that moves nothing in front of a word, and gives what the word alone decides. -/
theorem before {a : α} (quiet : ∀ token rest reached bad, token.word = w →
      Runs p ⟨token :: rest, reached, bad⟩ a ⟨token :: rest, reached, bad⟩)
    (next : ReadsWords (f a) (w :: ws) k holds') : ReadsWords (p >>= f) (w :: ws) k holds' := by
  intro tokens tail reached bad spelled stops
  obtain ⟨b, reached', run, result⟩ := next tokens tail reached bad spelled stops
  obtain ⟨token, more, rfl, isWord, -⟩ := map_eq_cons_iff.1 spelled
  exact ⟨b, reached', (quiet token (more ++ tail) reached bad isWord).bind run, result⟩

theorem look {f : Option Terminal → Parser β}
    (next : ReadsWords (f (some w.terminal)) (w :: ws) k holds') :
    ReadsWords (look >>= f) (w :: ws) k holds' :=
  before (fun _ _ _ _ isWord => runs_look_of (congrArg Word.terminal isWord)) next

theorem peek {f : Option Token → Parser β}
    (next : ∀ token, token.word = w → ReadsWords (f (some token)) (w :: ws) k holds') :
    ReadsWords (peek? >>= f) (w :: ws) k holds' := by
  intro tokens tail reached bad spelled stops
  obtain ⟨token, more, rfl, isWord, -⟩ := map_eq_cons_iff.1 spelled
  obtain ⟨b, reached', run, result⟩ := next token isWord _ tail reached bad spelled stops
  exact ⟨b, reached', (runs_peek _).bind run, result⟩

theorem skip {f : Unit → Parser β} (other : w.terminal ≠ t)
    (next : ReadsWords (f ()) (w :: ws) k holds') :
    ReadsWords (skipMany t >>= f) (w :: ws) k holds' :=
  before (fun _ _ _ _ isWord => runs_skipMany (next?_ne_of_word isWord other)) next

theorem acceptNone {f : Option Token → Parser β} (other : w.terminal ≠ t)
    (next : ReadsWords (f none) (w :: ws) k holds') :
    ReadsWords (accept? t >>= f) (w :: ws) k holds' :=
  before (fun _ _ _ _ isWord => runs_accept?_none (next?_ne_of_word isWord other)) next

/-- A rule that takes one token. -/
theorem token {g : Token → α} (takes : ∀ token rest reached bad, token.word = w →
      Runs p ⟨token :: rest, reached, bad⟩ (g token) ⟨rest, token.range.stop, bad⟩)
    (next : ∀ token, token.word = w → ReadsWords (f (g token)) ws k holds') :
    ReadsWords (p >>= f) (w :: ws) k holds' := by
  intro tokens tail reached bad spelled stops
  obtain ⟨token, more, rfl, isWord, isMore⟩ := map_eq_cons_iff.1 spelled
  obtain ⟨b, reached', run, result⟩ :=
    next token isWord more tail token.range.stop bad isMore stops
  exact ⟨b, reached', (takes token (more ++ tail) reached bad isWord).bind run, result⟩

theorem take {f : Token → Parser β}
    (next : ∀ token, token.word = w → ReadsWords (f token) ws k holds') :
    ReadsWords (take >>= f) (w :: ws) k holds' :=
  token (fun _ _ _ _ _ => runs_take) next

theorem expect {f : Token → Parser β} (isNext : w.terminal = t)
    (next : ∀ token, token.word = w → ReadsWords (f token) ws k holds') :
    ReadsWords (expect t >>= f) (w :: ws) k holds' :=
  token (fun _ _ _ _ isWord => runs_expect ((congrArg Word.terminal isWord).trans isNext)) next

theorem accept {f : Option Token → Parser β} (isNext : w.terminal = t)
    (next : ∀ token, token.word = w → ReadsWords (f (some token)) ws k holds') :
    ReadsWords (accept? t >>= f) (w :: ws) k holds' :=
  token (fun _ _ _ _ isWord => runs_accept? ((congrArg Word.terminal isWord).trans isNext)) next

end ReadsWords

/-- A parser begins with an operand, and steps join more to it, up to an expression. -/
def ReadsSpine (operand : Parser Expr) (step : Parser (Option β)) (join : Expr → β → Expr)
    (k : Nat) (e : Expr) : Prop :=
  ∀ tokens tail reached bad, tokens.map Token.word = e.words → Stops k tail →
    ∃ first c more reached', Runs operand ⟨tokens ++ tail, reached, bad⟩ first c ∧
      Steps step c more ⟨tail, reached', bad⟩ ∧ (more.foldl join first).bare = e.bare

/-- A parser takes signs of kind `t`, and an operand behind them. -/
def ReadsPrefixed (t : Terminal) (operand : Parser Expr) (k : Nat) (e : Expr) : Prop :=
  ∀ tokens tail reached bad, tokens.map Token.word = e.words → Stops k tail →
    ∃ signs c first reached', Steps (accept? t) ⟨tokens ++ tail, reached, bad⟩ signs c ∧
      c.next? ≠ some t ∧ Runs operand c first ⟨tail, reached', bad⟩ ∧
      (signs.foldr joinUnary first).bare = e.bare

section

variable {operand : Parser Expr} {step : Parser (Option β)} {join : Expr → β → Expr} {k : Nat}
  {e : Expr}

theorem ReadsSpine.of_operand (reads : ReadsWords operand e.words k (·.bare = e.bare)) :
    ReadsSpine operand step join k e := by
  intro tokens tail reached bad spelled stops
  obtain ⟨first, reached', run, same⟩ := reads tokens tail reached bad spelled stops
  exact ⟨first, _, [], reached', run, .done, same⟩

/-- One more step joins more words. -/
theorem ReadsSpine.extend {inner : Nat} {left : Expr} {more : List Word}
    (spine : ReadsSpine operand step join inner left) (words : e.words = left.words ++ more)
    (looser : ∃ w rest, more = w :: rest ∧ ∀ j ∈ w.level?, j < inner)
    (reads : ReadsWords step more k fun b => ∃ b', b = some b' ∧
      ∀ object, object.bare = left.bare → (join object b').bare = e.bare) :
    ReadsSpine operand step join k e := by
  intro tokens tail reached bad spelled stops
  rw [words] at spelled
  obtain ⟨front, behind, rfl, isLeft, isMore⟩ := map_eq_append_iff.1 spelled
  obtain ⟨w, ws, rfl, looser⟩ := looser
  obtain ⟨first, c, tails, reached', run, steps, same⟩ :=
    spine front (behind ++ tail) reached bad isLeft (stops_of_words isMore looser)
  obtain ⟨_, reached'', stepRun, b, rfl, joined⟩ := reads behind tail reached' bad isMore stops
  refine ⟨first, c, tails ++ [b], reached'', ?_, steps.append (.more stepRun ?_ .done), ?_⟩
  · rw [append_assoc]
    exact run
  · exact length_lt_of_words isMore
  · rw [foldl_append]
    exact joined _ same

/-- The whole rule, if the step gives nothing behind the words. -/
theorem ReadsSpine.reads (spine : ReadsSpine operand step join (k + 1) e)
    (stop : ∀ tail reached bad, Stops k tail →
      Runs step ⟨tail, reached, bad⟩ none ⟨tail, reached, bad⟩) : ReadsWords (do
      let first ← operand
      return (← collect step).foldl join first) e.words k (·.bare = e.bare) := by
  intro tokens tail reached bad spelled stops
  obtain ⟨first, c, more, reached', run, steps, same⟩ :=
    spine tokens tail reached bad spelled (stops.mono (Nat.le_succ k))
  have collected := runs_collect steps (stop tail reached' bad stops)
  exact ⟨_, reached', run.bind (collected.bind (.pure _ _)), same⟩

variable {t : Terminal}

theorem ReadsPrefixed.of_operand (reads : ReadsWords operand e.words k (·.bare = e.bare))
    (head : ∃ w rest, e.words = w :: rest ∧ w.terminal ≠ t) : ReadsPrefixed t operand k e := by
  intro tokens tail reached bad spelled stops
  obtain ⟨first, reached', run, same⟩ := reads tokens tail reached bad spelled stops
  obtain ⟨w, rest, words, other⟩ := head
  rw [words] at spelled
  obtain ⟨token, more, rfl, rfl, -⟩ := map_eq_cons_iff.1 spelled
  exact ⟨[], _, first, reached', .done, fun isNext => other (Option.some.inj isNext), run, same⟩

/-- One more sign in front. -/
theorem ReadsPrefixed.sign {op : UnaryOp} {range : Range} (reads : ReadsPrefixed t operand k e)
    (isSign : op.word.terminal = t)
    (isOp : ∀ token : Token, token.word = op.word → unaryOp token = op) :
    ReadsPrefixed t operand k (.unary op e range) := by
  intro tokens tail reached bad spelled stops
  obtain ⟨token, more, rfl, isWord, isMore⟩ := map_eq_cons_iff.1 spelled
  have terminal : token.terminal = t := (congrArg Word.terminal isWord).trans isSign
  obtain ⟨signs, c, first, reached', steps, other, run, same⟩ :=
    reads more tail token.range.stop bad isMore stops
  refine ⟨token :: signs, c, first, reached',
    .more (runs_accept? terminal) (Nat.lt_succ_self _) steps, other, run, ?_⟩
  rw [foldr_cons, joinUnary, Expr.bare, same, isOp token isWord, Expr.bare]

theorem ReadsPrefixed.reads (reads : ReadsPrefixed t operand k e) :
    ReadsWords (prefixed t operand) e.words k (·.bare = e.bare) := by
  intro tokens tail reached bad spelled stops
  obtain ⟨signs, c, first, reached', steps, other, run, same⟩ :=
    reads tokens tail reached bad spelled stops
  exact ⟨_, reached', .bind (runs_collect steps (runs_accept?_none other)) (.bind run (.pure _ _)),
    same⟩

end

end Parser

end ChannelLint
