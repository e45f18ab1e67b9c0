import ChannelLint.Proofs.Casing.Respelling
import ChannelLint.Proofs.Casing.Tokens
import ChannelLint.Script.Parser.Statements

/-!
# Parsers that do not look at case

A parser is blind to case (`Blind`) if over tokens without their case it gives the same result
without its case, and gets stuck at the same token. A parser built from others is treated by
`Reads.bind`.
-/
namespace ChannelLint

def Cursor.uncase (c : Cursor) : Cursor :=
  { c with rest := c.rest.map Token.uncase }

/-- The kind of the next token. -/
def Cursor.next? (c : Cursor) : Option Terminal :=
  c.rest.head?.map (·.terminal)

@[simp] theorem Cursor.next?_uncase (c : Cursor) : c.uncase.next? = c.next? := by
  obtain ⟨rest, reached, bad⟩ := c
  cases rest <;> rfl

namespace Parser

/-- How a result of a parser looks without its case. -/
abbrev Reading (α : Type) := α → α

namespace Reading

/-- A result without text. -/
abbrev plain {α : Type} : Reading α := id

abbrev token : Reading Token := Token.uncase

abbrev expr : Reading Expr := Expr.respell .uncase

abbrev member : Reading Member := Member.respell .uncase

abbrev param : Reading Param := Param.respell .uncase

abbrev func : Reading Func := Func.respell .uncase

abbrev block : Reading Block := Block.respell .uncase

abbrev stmt : Reading Stmt := Stmt.respell .uncase

abbrev assign : Reading Assign := Assign.respell .uncase

abbrev option {α : Type} (r : Reading α) : Reading (Option α) := Option.map r

abbrev list {α : Type} (r : Reading α) : Reading (List α) := List.map r

end Reading

variable {α β : Type}

/-- The parser `q` reads without case what `p` reads. -/
def Reads (r : Reading α) (p q : Parser α) : Prop :=
  ∀ c, q.run c.uncase =
    ((p.run c).map fun (a, c') => (r a, c'.uncase)).mapError (·.map Token.uncase)

/-- A parser that does not look at case. -/
abbrev Blind (r : Reading α) (p : Parser α) : Prop :=
  Reads r p p

variable {r : Reading α} {r' : Reading β} {p q : Parser α} {f f' : α → Parser β}

namespace Reads

theorem bind (first : Reads r p q) (next : ∀ a, Reads r' (f a) (f' (r a))) :
    Reads r' (p >>= f) (q >>= f') := by
  intro c
  rw [StateT.run_bind, StateT.run_bind, first c]
  cases p.run c with
  | error stuck => rfl
  | ok result => exact next result.1 result.2

theorem pure {a a' : α} (same : a' = r a) : Reads r (Pure.pure a) (Pure.pure a') := by
  subst same
  exact fun c => rfl

theorem ite {b : Prop} [Decidable b] {p' q' : Parser α} (yes : Reads r p q)
    (no : Reads r p' q') : Reads r (if b then p else p') (if b then q else q') := by
  split
  · exact yes
  · exact no

/-- The rest of a parser may look at the kind of the next token. -/
theorem look {f f' : Option Terminal → Parser β} (next : ∀ t, Reads r' (f t) (f' t)) :
    Reads r' (Parser.look >>= f) (Parser.look >>= f') := by
  intro c
  have same : (Parser.look >>= f').run c.uncase = (f' c.uncase.next?).run c.uncase := rfl
  rw [same, c.next?_uncase]
  exact next c.next? c

/-- The rest of a parser may look at the next token. -/
theorem peek {f f' : Option Token → Parser β}
    (next : ∀ t, Reads r' (f t) (f' (t.map Token.uncase))) :
    Reads r' (peek? >>= f) (peek? >>= f') := by
  intro c
  obtain ⟨rest, reached, bad⟩ := c
  cases rest with
  | nil => exact next none ⟨[], reached, bad⟩
  | cons t rest => exact next (some t) ⟨t :: rest, reached, bad⟩

theorem here {f f' : Position → Parser β} (next : ∀ p, Reads r' (f p) (f' p)) :
    Reads r' (Parser.here >>= f) (Parser.here >>= f') := by
  intro c
  obtain ⟨rest, reached, bad⟩ := c
  cases rest with
  | nil => exact next reached ⟨[], reached, bad⟩
  | cons t rest => exact next t.range.start ⟨t :: rest, reached, bad⟩

theorem since {f f' : Range → Parser β} {start : Position}
    (next : ∀ range, Reads r' (f range) (f' range)) :
    Reads r' (Parser.since start >>= f) (Parser.since start >>= f') :=
  fun c => next ⟨start, c.reached⟩ c

/-- The rest of a parser may look at the state of the cursor. -/
theorem cursor {f f' : Cursor → Parser β} (next : ∀ c, Reads r' (f c) (f' c.uncase)) :
    Reads r' (get >>= f) (get >>= f') :=
  fun c => next c c

theorem refuse : Blind r Parser.refuse := by
  intro c
  obtain ⟨rest, reached, bad⟩ := c
  cases rest <;> rfl

end Reads

/-- Every result of a parser has the given property. -/
def Gives (p : Parser α) (P : α → Prop) : Prop :=
  ∀ a, (∃ c c', p.run c = .ok (a, c')) → P a

namespace Gives

variable {P : β → Prop}

theorem bind {p : Parser α} {f : α → Parser β} (next : ∀ a, Gives (f a) P) : Gives (p >>= f) P := by
  rintro b ⟨c, c'', run⟩
  rw [StateT.run_bind] at run
  cases first : p.run c with
  | error stuck => rw [first] at run; cases run
  | ok result => rw [first] at run; exact next result.1 b ⟨result.2, c'', run⟩

theorem pure {b : β} (h : P b) : Gives (Pure.pure b) P := by
  rintro _ ⟨c, c', ⟨⟩⟩
  exact h

theorem refuse : Gives Parser.refuse P := by
  rintro b ⟨c, c', ⟨⟩⟩

end Gives

/-! ## Tokens -/

theorem take_reads : Blind .token take := by
  intro c
  obtain ⟨rest, reached, bad⟩ := c
  cases rest <;> rfl

theorem accept?_reads {t : Terminal} : Blind Reading.token.option (accept? t) :=
  .look fun _ => .ite (take_reads.bind fun _ => .pure rfl) (.pure rfl)

/-- The rest of a parser may depend on whether the token was there. -/
theorem Reads.accepting {t : Terminal} {f f' : Option Token → Parser β}
    (found : ∀ token, Reads r' (f (some token)) (f' (some token.uncase)))
    (missing : Reads r' (f none) (f' none)) : Reads r' (accept? t >>= f) (accept? t >>= f') :=
  accept?_reads.bind fun
    | some token => found token
    | none => missing

theorem expect_reads {t : Terminal} : Blind .token (expect t) :=
  .look fun _ => .ite take_reads .refuse

/-! ## Repetition -/

theorem collectUpTo_reads {step step' : Parser (Option α)} (h : Reads r.option step step')
    (n : Nat) : Reads r.list (collectUpTo step n) (collectUpTo step' n) := by
  induction n with
  | zero => exact .pure rfl
  | succ n ih =>
    refine h.bind fun a => ?_
    cases a with
    | none => exact .pure rfl
    | some a => exact ih.bind fun rest => .pure rfl

theorem collect_reads {step step' : Parser (Option α)} (h : Reads r.option step step') :
    Reads r.list (collect step) (collect step') := by
  refine Reads.cursor fun c => ?_
  have same : c.uncase.rest.length = c.rest.length := List.length_map ..
  rw [same]
  exact collectUpTo_reads h _

theorem skipMany_reads {t : Terminal} : Blind .plain (skipMany t) :=
  (collect_reads accept?_reads).bind fun _ => .pure rfl

end Parser

end ChannelLint
