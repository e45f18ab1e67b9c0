import ChannelLint.Proofs.Casing.Cursor
import ChannelLint.Proofs.Grammar.Phrases
import ChannelLint.Proofs.Rendering.Words

/-!
# Parsers that follow the grammar

A parser never goes back, and it decides by the next token. It is exact for a phrase if it takes a
word of the phrase and stops only where the word is complete, or if it is stuck behind a viable
prefix at a token that cannot continue it (`Parser.ExactAt`). What may come behind the phrase is a
language of which one thing is known: no word of it begins with a terminal of `more`, those that
would still belong to the phrase.

Exact parsers are put together along the phrase. `joins` is the condition for a sequence: what
follows does not begin with a terminal that would still belong to what was read.
-/
namespace ChannelLint

open List

namespace Grammar

/-- The terminals of tokens. -/
def kinds (ts : List Token) : List Terminal :=
  ts.map (·.terminal)

@[simp] theorem kinds_cons (k : Token) (ts : List Token) :
    kinds (k :: ts) = k.terminal :: kinds ts :=
  rfl

@[simp] theorem kinds_append (us vs : List Token) : kinds (us ++ vs) = kinds us ++ kinds vs :=
  map_append

/-- A beginning of a word. -/
def Viable (l : Language Terminal) (w : List Terminal) : Prop :=
  ∃ v, w ++ v ∈ l

/-- No word of a language begins with one of the terminals. -/
def Apart (more : List Terminal) (k : Language Terminal) : Prop :=
  ∀ t ∈ more, ∀ w, t :: w ∉ k

theorem Apart.mono {m m' : List Terminal} {k : Language Terminal} (apart : Apart m' k)
    (sub : ∀ t ∈ m, t ∈ m') : Apart m k :=
  fun t member => apart t (sub t member)

/-- A phrase `q` does not begin with what may belong to the phrase before it, nor does what comes
behind `q` if `q` is empty. -/
def joins (m : List Terminal) (q : Phrase) (m' : List Terminal) : Bool :=
  m.all fun t => !q.first.contains t && (!q.nullable || m'.contains t)

section

variable {p q : Phrase} {m m' : List Terminal} {k : Language Terminal} {t : Terminal}
  {w : List Terminal}

theorem cons_mem_words_mul (member : t :: w ∈ p.words * k) :
    (t ∈ p.first ∧ ∃ u v, t :: u ∈ p.words ∧ v ∈ k ∧ w = u ++ v) ∨
      (p.nullable = true ∧ t :: w ∈ k) := by
  obtain ⟨u, inPhrase, v, behind, same⟩ := Language.mem_mul.1 member
  cases u with
  | nil => exact .inr ⟨Derives.nullable inPhrase, same ▸ behind⟩
  | cons s u =>
    obtain ⟨rfl, rfl⟩ := List.cons.inj same
    exact .inl ⟨Derives.first inPhrase, u, v, inPhrase, behind, rfl⟩

theorem nullable_of_nil_mem_mul (member : [] ∈ p.words * k) : p.nullable = true := by
  obtain ⟨u, inPhrase, v, -, same⟩ := Language.mem_mul.1 member
  obtain ⟨rfl, -⟩ := append_eq_nil_iff.1 same
  exact Derives.nullable inPhrase

theorem Apart.mul (joined : joins m q m' = true) (apart : Apart m' k) : Apart m (q.words * k) := by
  intro t member w found
  have ends := all_eq_true.1 joined t member
  rw [Bool.and_eq_true, Bool.or_eq_true, Bool.not_eq_true', Bool.not_eq_true',
    contains_eq_mem, contains_eq_mem, decide_eq_true_eq, decide_eq_false_iff_not] at ends
  obtain ⟨starts, -⟩ | ⟨empty, behind⟩ := cons_mem_words_mul found
  · exact ends.1 starts
  · obtain proper | listed := ends.2
    · rw [proper] at empty
      cases empty
    · exact apart t listed w behind

end

end Grammar

open Grammar Phrase

theorem Cursor.next?_eq (c : Cursor) : c.next? = (kinds c.rest).head? :=
  head?_map.symm

/-- Behind the same tokens, the same terminal comes next. -/
theorem head?_kinds_append {c : Cursor} {u r : List Token} (rest : c.rest = u ++ r)
    {w : List Terminal} (next : w.head? = (kinds r).head?) : (kinds u ++ w).head? = c.next? := by
  rw [c.next?_eq, rest, kinds_append, head?_append, head?_append, next]

namespace Parser

variable {α β : Type} {embedded : Token → Option (List Expr)} {p q : Phrase} {m m' : List Terminal}

/-- A template with an expression that cannot be read. -/
def unreadable (embedded : Token → Option (List Expr)) (k : Token) : Bool :=
  k.terminal == .template && (embedded k).isNone

/-- At the cursor `c`, a parser takes a word of the phrase `p` and nothing beyond it, or is stuck at
the first token that cannot continue such a word. A template that cannot be read leaves a mark. -/
inductive ExactAt (embedded : Token → Option (List Expr)) (p : Phrase) (more : List Terminal)
    (P : Parser α) (c : Cursor) : Prop
  | done {u : List Token} {a : α} {c' : Cursor} (rest : c.rest = u ++ c'.rest)
      (run : P.run c = .ok (a, c'))
      (flag : c'.badTemplate = (c.badTemplate || u.any (unreadable embedded)))
      (word : kinds u ∈ p.words)
      (only : ∀ k, Apart more k → ∀ w, w.head? = c'.next? → kinds u ++ w ∈ p.words * k → w ∈ k)
  | stuck {u r : List Token} (rest : c.rest = u ++ r) (run : P.run c = .error r.head?)
      (viable : Viable p.words (kinds u))
      (dead : ∀ k, Apart more k → ∀ w, w.head? = (kinds r).head? → kinds u ++ w ∉ p.words * k)

namespace ExactAt

variable {P : Parser α} {f : α → Parser β} {c : Cursor}

theorem mono (exact : ExactAt embedded p m P c) (sub : ∀ t ∈ m, t ∈ m') :
    ExactAt embedded p m' P c := by
  cases exact with
  | done rest run flag word only =>
    exact .done rest run flag word fun k apart => only k (apart.mono sub)
  | stuck rest run viable dead =>
    exact .stuck rest run viable fun k apart => dead k (apart.mono sub)

theorem congr (exact : ExactAt embedded p m P c) (same : p.words = q.words) :
    ExactAt embedded q m P c := by
  cases exact with
  | done rest run flag word only => exact .done rest run flag (same ▸ word) (same ▸ only)
  | stuck rest run viable dead => exact .stuck rest run (same ▸ viable) (same ▸ dead)

/-- Of all words of `p`, the next token admits those of `q` only. -/
theorem narrow (exact : ExactAt embedded q m P c) (sub : q.words ≤ p.words)
    (same : ∀ k, Apart m k → ∀ w, w.head? = c.next? → w ∈ p.words * k → w ∈ q.words * k) :
    ExactAt embedded p m P c := by
  cases exact with
  | done rest run flag word only =>
    refine .done rest run flag (sub word) fun k apart w next member => only k apart w next ?_
    exact same k apart _ (head?_kinds_append rest (next.trans (Cursor.next?_eq _))) member
  | stuck rest run viable dead =>
    obtain ⟨v, inQ⟩ := viable
    refine .stuck rest run ⟨v, sub inQ⟩ fun k apart w next member => dead k apart w next ?_
    exact same k apart _ (head?_kinds_append rest next) member

/-- One parser behind another. -/
theorem bind (exact : ExactAt embedded p m P c) (joined : joins m q m' = true)
    (next : ∀ a c', P.run c = .ok (a, c') → c'.rest <:+ c.rest →
      (p.nullable = false → c'.rest.length < c.rest.length) → ExactAt embedded q m' (f a) c') :
    ExactAt embedded (.seq p q) m' (P >>= f) c := by
  have regroup (u v : List Token) (w : List Terminal) (k : Language Terminal) :
      kinds (u ++ v) ++ w ∈ (seq p q).words * k ↔
        kinds u ++ (kinds v ++ w) ∈ p.words * (q.words * k) := by
    rw [words_seq, mul_assoc, kinds_append, append_assoc]
  cases exact with
  | @done u a c' rest run flag word only =>
    have run' : (P >>= f).run c = (f a).run c' := by
      rw [StateT.run_bind, run]
      rfl
    have shorter : p.nullable = false → c'.rest.length < c.rest.length := by
      intro proper
      cases u with
      | nil =>
        rw [Derives.nullable word] at proper
        cases proper
      | cons t u =>
        rw [rest, length_append, length_cons]
        omega
    cases next a c' run ⟨u, rest.symm⟩ shorter with
    | @done v b c'' rest' runs flag' word' only' =>
      refine .done (u := u ++ v) ?_ (run'.trans runs) ?_ ?_ fun k apart w after member => ?_
      · rw [rest, rest', append_assoc]
      · rw [flag', flag, any_append, Bool.or_assoc]
      · rw [words_seq, kinds_append]
        exact Language.append_mem_mul word word'
      · have after' := after.trans c''.next?_eq
        exact only' k apart w after (only _ (apart.mul joined) _ (head?_kinds_append rest' after')
          ((regroup ..).1 member))
    | @stuck v r rest' runs viable dead =>
      obtain ⟨w, inQ⟩ := viable
      refine .stuck (u := u ++ v) ?_ (run'.trans runs) ⟨w, ?_⟩ fun k apart w after member => ?_
      · rw [rest, rest', append_assoc]
      · rw [words_seq, kinds_append, append_assoc]
        exact Language.append_mem_mul word inQ
      · exact dead k apart w after (only _ (apart.mul joined) _ (head?_kinds_append rest' after)
          ((regroup ..).1 member))
  | @stuck u r rest run viable dead =>
    obtain ⟨v, inP⟩ := viable
    obtain ⟨w, inQ⟩ := q.exists_mem_words
    refine .stuck rest ?_ ⟨v ++ w, ?_⟩ fun k apart w after member => ?_
    · rw [StateT.run_bind, run]
      rfl
    · rw [words_seq, ← append_assoc]
      exact Language.append_mem_mul inP inQ
    · rw [words_seq, mul_assoc] at member
      exact dead _ (apart.mul joined) w after member

/-- What follows only computes. -/
theorem finish (exact : ExactAt embedded p m P c)
    (silent : ∀ a c', ∃ b, (f a).run c' = .ok (b, c')) : ExactAt embedded p m (P >>= f) c := by
  cases exact with
  | @done u a c' rest run flag word only =>
    obtain ⟨b, runs⟩ := silent a c'
    have run' : (P >>= f).run c = .ok (b, c') := by
      rw [StateT.run_bind, run]
      exact runs
    exact .done rest run' flag word only
  | stuck rest run viable dead =>
    refine .stuck rest ?_ viable dead
    rw [StateT.run_bind, run]
    rfl

theorem map {g : α → β} (exact : ExactAt embedded p m P c) :
    ExactAt embedded p m (P >>= fun a => pure (g a)) c :=
  exact.finish fun _ _ => ⟨_, rfl⟩

/-- What follows only computes, also with the range that was read. -/
theorem mapSince {start : Position} {g : α → Range → β} (exact : ExactAt embedded p m P c) :
    ExactAt embedded p m (P >>= fun a => since start >>= fun range => pure (g a range)) c :=
  exact.finish fun _ _ => ⟨_, rfl⟩

theorem of_run {P' : Parser α} (exact : ExactAt embedded p m P' c) (same : P.run c = P'.run c) :
    ExactAt embedded p m P c := by
  cases exact with
  | done rest run flag word only => exact .done rest (same.trans run) flag word only
  | stuck rest run viable dead => exact .stuck rest (same.trans run) viable dead

theorem look {f : Option Terminal → Parser β} (exact : ExactAt embedded p m (f c.next?) c) :
    ExactAt embedded p m (Parser.look >>= f) c :=
  exact.of_run rfl

theorem here {f : Position → Parser β} (exact : ∀ start, ExactAt embedded p m (f start) c) :
    ExactAt embedded p m (Parser.here >>= f) c :=
  (exact _).of_run rfl

theorem cursor {f : Cursor → Parser β} (exact : ExactAt embedded p m (f c) c) :
    ExactAt embedded p m (get >>= f) c :=
  exact.of_run rfl

/-- The next token cannot begin the phrase. -/
theorem refuse (proper : p.nullable = false) (other : ∀ t ∈ p.first, c.next? ≠ some t) :
    ExactAt embedded p m (Parser.refuse : Parser α) c := by
  refine .stuck (u := []) (nil_append _).symm rfl p.exists_mem_words ?_
  intro k _ w next member
  rw [← c.next?_eq] at next
  cases w with
  | nil =>
    rw [nullable_of_nil_mem_mul member] at proper
    cases proper
  | cons t w =>
    obtain ⟨starts, -⟩ | ⟨empty, -⟩ := cons_mem_words_mul member
    · exact other t starts next.symm
    · rw [empty] at proper
      cases proper

/-- Nothing is taken, and the next token does not begin the phrase. -/
theorem missing {a : α} (run : P.run c = .ok (a, c)) (nil : [] ∈ p.words)
    (other : ∀ t ∈ p.first, c.next? ≠ some t) : ExactAt embedded p [] P c := by
  refine .done (u := []) rfl run (Bool.or_false _).symm nil fun k _ w next member => ?_
  cases w with
  | nil =>
    obtain ⟨u, -, v, behind, same⟩ := Language.mem_mul.1 member
    obtain ⟨rfl, rfl⟩ := append_eq_nil_iff.1 same
    exact behind
  | cons t w =>
    obtain ⟨starts, -⟩ | ⟨-, behind⟩ := cons_mem_words_mul member
    · exact absurd next.symm (other t starts)
    · exact behind

/-- A phrase that may be missing, and is not. -/
theorem present (exact : ExactAt embedded q m P c) (split : p.words = q.words + 1)
    (begins : ∃ t ∈ m, c.next? = some t) : ExactAt embedded p m P c := by
  obtain ⟨t, listed, isNext⟩ := begins
  refine narrow exact (split ▸ le_sup_left) fun k apart w next member => ?_
  rw [split, add_mul, one_mul] at member
  refine member.resolve_right fun behind => ?_
  cases w with
  | nil =>
    rw [isNext] at next
    cases next
  | cons s w =>
    obtain rfl := Option.some.inj (next.trans isNext)
    exact apart s listed w behind

end ExactAt

end Parser

/-! ## Alternatives -/

namespace Grammar

theorem Phrase.mem_words_any {ps : List Phrase} (some : ps ≠ []) {w : List Terminal} :
    w ∈ (Phrase.any ps).words ↔ ∃ p ∈ ps, w ∈ p.words := by
  induction ps with
  | nil => exact absurd rfl some
  | cons p ps ih =>
    cases ps with
    | nil => exact ⟨fun member => ⟨p, mem_singleton_self p, member⟩,
        fun ⟨q, listed, member⟩ => mem_singleton.1 listed ▸ member⟩
    | cons q ps =>
      rw [Phrase.any, words_either, Language.mem_add, ih (cons_ne_nil _ _)]
      simp only [mem_cons, exists_eq_or_imp]

/-- `qs` are some of the alternatives `ps`, which are never empty. -/
def choices (ps qs : List Phrase) : Bool :=
  qs.all ps.contains && !qs.isEmpty && !(Phrase.any ps).nullable

/-- Of the alternatives `ps`, those that may begin with `t` are among `qs`. -/
def chosen (t : Terminal) (ps qs : List Phrase) : Bool :=
  choices ps qs && ps.all fun p => qs.contains p || !p.first.contains t

/-- Of the alternatives `ps`, all but `qs` begin with one of `ts`. -/
def remaining (ts : List Terminal) (ps qs : List Phrase) : Bool :=
  choices ps qs && ps.all fun p => qs.contains p || p.first.all ts.contains

end Grammar

namespace Parser

variable {α β : Type} {embedded : Token → Option (List Expr)} {p q : Phrase} {m m' : List Terminal}
  {P : Parser α} {c : Cursor}

variable {t : Terminal} {ps : List Phrase}

/-- The next token excludes some of the alternatives. -/
theorem ExactAt.restrict {ps qs : List Phrase} (inside : ∀ q ∈ qs, q ∈ ps) (some : qs ≠ [])
    (proper : (Phrase.any ps).nullable = false)
    (others : ∀ p ∈ ps, p ∈ qs ∨ ∀ t ∈ p.first, c.next? ≠ Option.some t)
    (exact : ExactAt embedded (.any qs) m P c) : ExactAt embedded (.any ps) m P c := by
  have some' : ps ≠ [] := by
    obtain ⟨q, member⟩ := exists_mem_of_ne_nil qs some
    exact ne_nil_of_mem (inside q member)
  refine exact.narrow (fun w member => ?_) fun k _ w next member => ?_
  · obtain ⟨q, listed, inQ⟩ := (mem_words_any some).1 member
    exact (mem_words_any some').2 ⟨q, inside q listed, inQ⟩
  · obtain ⟨u, inAny, v, behind, rfl⟩ := Language.mem_mul.1 member
    refine Language.append_mem_mul ?_ behind
    cases u with
    | nil =>
      rw [Derives.nullable inAny] at proper
      cases proper
    | cons t u =>
      obtain ⟨p, listed, inP⟩ := (mem_words_any some').1 inAny
      obtain chosen | excluded := others p listed
      · exact (mem_words_any some).2 ⟨p, chosen, inP⟩
      · exact absurd next.symm (excluded t (Derives.first inP))

theorem ExactAt.left (exact : ExactAt embedded p m P c) (other : ∀ t ∈ q.first, c.next? ≠ some t)
    (proper : (Phrase.either p q).nullable = false) : ExactAt embedded (.either p q) m P c := by
  have inside : ∀ r ∈ [p], r ∈ [p, q] := forall_mem_singleton.2 mem_cons_self
  exact .restrict inside (cons_ne_nil p []) proper (forall_mem_cons.2
    ⟨.inl mem_cons_self, forall_mem_singleton.2 (.inr other)⟩) exact

theorem ExactAt.right (exact : ExactAt embedded q m P c) (other : ∀ t ∈ p.first, c.next? ≠ some t)
    (proper : (Phrase.either p q).nullable = false) : ExactAt embedded (.either p q) m P c := by
  have inside : ∀ r ∈ [q], r ∈ [p, q] :=
    forall_mem_singleton.2 (mem_cons_of_mem _ mem_cons_self)
  exact .restrict inside (cons_ne_nil q []) proper (forall_mem_cons.2
    ⟨.inr other, forall_mem_singleton.2 (.inl mem_cons_self)⟩) exact

theorem ExactAt.among {ps qs : List Phrase} (listed : choices ps qs = true)
    (others : ∀ p ∈ ps, p ∈ qs ∨ ∀ t ∈ p.first, c.next? ≠ some t)
    (exact : ExactAt embedded (.any qs) m P c) : ExactAt embedded (.any ps) m P c := by
  rw [choices, Bool.and_eq_true, Bool.and_eq_true, all_eq_true, Bool.not_eq_true',
    Bool.not_eq_true', isEmpty_eq_false_iff] at listed
  obtain ⟨⟨inside, some⟩, proper⟩ := listed
  exact .restrict (fun q member => contains_iff_mem.1 (inside q member)) some proper others
    exact

/-- The next token is known. -/
theorem ExactAt.choose (qs : List Phrase) (isNext : c.next? = some t) (only : chosen t ps qs = true)
    (exact : ExactAt embedded (.any qs) m P c) : ExactAt embedded (.any ps) m P c := by
  obtain ⟨listed, only⟩ := Bool.and_eq_true_iff.1 only
  refine .among listed (fun p member => ?_) exact
  have excluded := all_eq_true.1 only p member
  rw [Bool.or_eq_true, Bool.not_eq_true', contains_iff_mem, contains_eq_mem,
    decide_eq_false_iff_not] at excluded
  refine excluded.imp_right fun other s starts same => other ?_
  rwa [Option.some.inj (isNext.symm.trans same)]

/-- The next token is none of those that begin the other alternatives. -/
theorem ExactAt.otherwise (qs : List Phrase) (ts : List Terminal) (only : remaining ts ps qs = true)
    (other : ∀ t ∈ ts, c.next? ≠ some t) (exact : ExactAt embedded (.any qs) m P c) :
    ExactAt embedded (.any ps) m P c := by
  obtain ⟨listed, only⟩ := Bool.and_eq_true_iff.1 only
  refine .among listed (fun p member => ?_) exact
  have excluded := all_eq_true.1 only p member
  rw [Bool.or_eq_true, contains_iff_mem, all_eq_true] at excluded
  exact excluded.imp_right fun inside t starts =>
    other t (contains_iff_mem.1 (inside t starts))

theorem ExactAt.rule {r : Nonterminal} (exact : ExactAt embedded (grammar r) m P c) :
    ExactAt embedded (.rule r) m P c :=
  exact.congr (words_rule r).symm

/-! ## Tokens -/

/-- One token is taken. -/
theorem ExactAt.one {k : Token} {a : α} {c' : Cursor} (rest : c.rest = k :: c'.rest)
    (run : P.run c = .ok (a, c'))
    (flag : c'.badTemplate = (c.badTemplate || unreadable embedded k)) :
    ExactAt embedded (.token k.terminal) [] P c := by
  refine .done (u := [k]) rest run ?_ (.token _) fun l _ w _ member => ?_
  · rw [flag, any_cons, any_nil, Bool.or_false]
  · rw [words_token] at member
    obtain ⟨u, rfl, v, behind, same⟩ := Language.mem_mul.1 member
    obtain rfl : v = w := (List.cons.inj same).2
    exact behind

/-- Takes the next token, which is no template. -/
theorem take_exact (isNext : c.next? = some t) (plain : t ≠ .template) :
    ExactAt embedded (.token t) [] take c := by
  obtain ⟨rest, reached, flag⟩ := c
  cases rest with
  | nil => cases isNext
  | cons k rest =>
    obtain rfl := Option.some.inj isNext
    refine .one rfl rfl ?_
    rw [unreadable, beq_false_of_ne plain, Bool.false_and, Bool.or_false]

/-- Of all alternatives, the next token is the one that is taken. -/
theorem ExactAt.takeOne (isNext : c.next? = some t) (plain : t ≠ .template)
    (only : chosen t ps [.token t] = true) : ExactAt embedded (.any ps) [] take c :=
  .choose [.token t] isNext only (take_exact isNext plain)

theorem expect_exactAt (t : Terminal) (plain : t ≠ .template) :
    ExactAt embedded (.token t) [] (expect t) c := by
  refine .look ?_
  split
  · next isNext => exact take_exact isNext plain
  · next other => exact .refuse rfl (forall_mem_singleton.2 other)

theorem accept?_of_next (isNext : c.next? = some t) :
    (accept? t).run c = (take >>= fun k => pure (some k)).run c := by
  show (if c.next? = some t then _ else _ : Parser (Option Token)).run c = _
  rw [if_pos isNext]

theorem accept?_of_other (other : c.next? ≠ some t) : (accept? t).run c = .ok (none, c) := by
  show (if c.next? = some t then _ else _ : Parser (Option Token)).run c = _
  rw [if_neg other]
  rfl

/-- What comes behind a token that may be missing. -/
theorem ExactAt.accept? {f : Option Token → Parser β}
    (yes : c.next? = some t → ExactAt embedded p m (take >>= fun k => f (some k)) c)
    (no : c.next? ≠ some t → ExactAt embedded p m (f none) c) :
    ExactAt embedded p m (Parser.accept? t >>= f) c := by
  by_cases isNext : c.next? = some t
  · refine (yes isNext).of_run ?_
    rw [StateT.run_bind, accept?_of_next isNext, StateT.run_bind, StateT.run_bind]
    cases take.run c <;> rfl
  · refine (no isNext).of_run ?_
    rw [StateT.run_bind, accept?_of_other isNext]
    rfl

end Parser

/-! ## Operators -/

def BinaryOp.all : List BinaryOp :=
  [coalesce, or, and, equal, notEqual, lessEqual, greaterEqual, less, greater, shiftLeft,
    shiftRight, add, subtract, multiply, divide, integerDivide, modulo, power]

theorem BinaryOp.mem_all (op : BinaryOp) : op ∈ all := by
  cases op <;> decide

namespace Grammar

def binaryTerminals : List Terminal :=
  [.coalesceOp, .kwOr, .kwAnd, .equals, .compOp, .shiftOp, .addOp, .mulOp, .kwMod, .powOp]

end Grammar

/-- A token that may stand for an operator does so. -/
def Token.Spelled (k : Token) : Prop :=
  k.terminal ∈ binaryTerminals → ∃ op, Parser.binaryOp? k = some op ∧ op.terminal = k.terminal

/-- Fewer than `n` tokens are left, all of them spelled like their kind. -/
structure Cursor.Ready (n : Nat) (c : Cursor) : Prop where
  short : c.rest.length < n
  spelled : ∀ k ∈ c.rest, k.Spelled

theorem Cursor.Ready.of_suffix {n n' : Nat} {c c' : Cursor} (ready : c.Ready n)
    (rest : c'.rest <:+ c.rest) (short : c'.rest.length < n') : c'.Ready n' :=
  ⟨short, fun k member => ready.spelled k (rest.mem member)⟩

theorem Cursor.Ready.le {n : Nat} {c c' : Cursor} (ready : c.Ready n) (rest : c'.rest <:+ c.rest) :
    c'.Ready n :=
  ready.of_suffix rest (rest.length_le.trans_lt ready.short)

namespace Parser

variable {α β : Type} {embedded : Token → Option (List Expr)} {n : Nat} {p q : Phrase}
  {m m' : List Terminal} {P : Parser α} {f : α → Parser β} {c : Cursor}

/-! ## Fewer than `n` tokens -/

/-- A parser that is exact if fewer than `n` tokens are left. -/
def Exact (embedded : Token → Option (List Expr)) (n : Nat) (p : Phrase) (more : List Terminal)
    (P : Parser α) : Prop :=
  ∀ c, c.Ready n → ExactAt embedded p more P c

theorem ExactAt.then (exact : ExactAt embedded p m P c) (ready : c.Ready n)
    (joined : joins m q m' = true) (next : ∀ a, Exact embedded n q m' (f a)) :
    ExactAt embedded (.seq p q) m' (P >>= f) c :=
  exact.bind joined fun a c' _ suffix _ => next a c' (ready.le suffix)

/-- Behind a phrase that is not empty, one token fewer is left. -/
theorem ExactAt.step (exact : ExactAt embedded p m P c) (ready : c.Ready (n + 1))
    (proper : p.nullable = false) (joined : joins m q m' = true)
    (next : ∀ a, Exact embedded n q m' (f a)) : ExactAt embedded (.seq p q) m' (P >>= f) c :=
  exact.bind joined fun a c' _ suffix shorter => next a c' (ready.of_suffix suffix
    ((shorter proper).trans_le (Nat.lt_succ_iff.1 ready.short)))

namespace Exact

theorem bind (exact : Exact embedded n p m P) (joined : joins m q m' = true)
    (next : ∀ a, Exact embedded n q m' (f a)) : Exact embedded n (.seq p q) m' (P >>= f) :=
  fun c ready => (exact c ready).then ready joined next

theorem step (exact : Exact embedded (n + 1) p m P) (proper : p.nullable = false)
    (joined : joins m q m' = true) (next : ∀ a, Exact embedded n q m' (f a)) :
    Exact embedded (n + 1) (.seq p q) m' (P >>= f) :=
  fun c ready => (exact c ready).step ready proper joined next

theorem finish (exact : Exact embedded n p m P)
    (silent : ∀ a c', ∃ b, (f a).run c' = .ok (b, c')) : Exact embedded n p m (P >>= f) :=
  fun c ready => (exact c ready).finish silent

theorem map {g : α → β} (exact : Exact embedded n p m P) :
    Exact embedded n p m (P >>= fun a => pure (g a)) :=
  fun c ready => (exact c ready).map

theorem mapSince {start : Position} {g : α → Range → β} (exact : Exact embedded n p m P) :
    Exact embedded n p m (P >>= fun a => Parser.since start >>= fun range => pure (g a range)) :=
  fun c ready => (exact c ready).mapSince

theorem here {f : Position → Parser β} (exact : ∀ start, Exact embedded n p m (f start)) :
    Exact embedded n p m (Parser.here >>= f) :=
  fun c ready => .here fun start => exact start c ready

theorem cursor {f : Cursor → Parser β} (exact : ∀ c, Exact embedded n p m (f c)) :
    Exact embedded n p m (get >>= f) :=
  fun c ready => .cursor (exact c c ready)

theorem zero : Exact embedded 0 p m P :=
  fun _ ready => absurd ready.short (Nat.not_lt_zero _)

theorem of_le {n' : Nat} (exact : Exact embedded n' p m P) (le : n ≤ n') : Exact embedded n p m P :=
  fun c ready => exact c ⟨ready.short.trans_le le, ready.spelled⟩

theorem since {f : Range → Parser β} {start : Position}
    (exact : ∀ range, Exact embedded n p m (f range)) :
    Exact embedded n p m (Parser.since start >>= f) :=
  fun c ready => (exact _ c ready).of_run rfl

theorem mono (exact : Exact embedded n p m P) (sub : ∀ t ∈ m, t ∈ m') : Exact embedded n p m' P :=
  fun c ready => (exact c ready).mono sub

theorem congr (exact : Exact embedded n p m P) (same : p.words = q.words) :
    Exact embedded n q m P :=
  fun c ready => (exact c ready).congr same

theorem rule {r : Nonterminal} (exact : Exact embedded n (grammar r) m P) :
    Exact embedded n (.rule r) m P :=
  exact.congr (words_rule r).symm

end Exact

variable {step : Parser (Option α)}

theorem expect_exact (t : Terminal) (plain : t ≠ .template) :
    Exact embedded n (.token t) [] (expect t) :=
  fun _ _ => expect_exactAt t plain

/-! ## Repetition -/

/-- A step of a repetition: nothing if no further item begins, and the item otherwise. -/
inductive ExactStepAt (embedded : Token → Option (List Expr)) (p : Phrase) (m : List Terminal)
    (step : Parser (Option α)) (c : Cursor) : Prop
  | idle (run : step.run c = .ok (none, c)) (other : ∀ t ∈ p.first, c.next? ≠ some t)
  | item (begins : ∃ t ∈ p.first, c.next? = some t) (exact : ExactAt embedded p m step c)
      (some : ∀ a c', step.run c = .ok (a, c') → a ≠ none)

theorem ExactStepAt.of_run {step step' : Parser (Option α)}
    (exact : ExactStepAt embedded p m step' c) (same : step.run c = step'.run c) :
    ExactStepAt embedded p m step c := by
  cases exact with
  | idle run other => exact .idle (same.trans run) other
  | item begins exact some =>
    exact .item begins (exact.of_run same) fun a c' run => some a c' (same ▸ run)

theorem ExactStepAt.look {f : Option Terminal → Parser (Option α)}
    (exact : ExactStepAt embedded p m (f c.next?) c) :
    ExactStepAt embedded p m (Parser.look >>= f) c :=
  exact.of_run rfl

theorem Gives.some {a : α} : Gives (Pure.pure (some a)) (· ≠ none) :=
  .pure (Option.some_ne_none a)

/-- The step takes an item. -/
theorem ExactStepAt.takes {t : Terminal} (isNext : c.next? = some t) (begins : t ∈ p.first)
    (exact : ExactAt embedded p m step c) (gives : Gives step (· ≠ none)) :
    ExactStepAt embedded p m step c :=
  .item ⟨t, begins, isNext⟩ exact fun a c' run => gives a ⟨c, c', run⟩

/-- The steps of a repetition, if fewer than `n` tokens are left. -/
def ExactSteps (embedded : Token → Option (List Expr)) (n : Nat) (p : Phrase) (m : List Terminal)
    (step : Parser (Option α)) : Prop :=
  ∀ c, c.Ready n → ExactStepAt embedded p m step c

theorem words_opt (p : Phrase) : (opt p).words = p.words + 1 := by
  rw [opt, words_either, words_empty]

theorem words_many_eq (p : Phrase) : (Phrase.many p).words = (several p).words + 1 := by
  rw [several, words_seq, words_many, add_comm, one_add_mul_kstar]

/-- A phrase that may be missing is missing. -/
theorem ExactAt.absent {a : α} (run : P.run c = .ok (a, c))
    (other : ∀ t ∈ p.first, c.next? ≠ some t) : ExactAt embedded (.opt p) m P c := by
  refine (ExactAt.missing run (.right .empty) ?_).mono nofun
  show ∀ t ∈ p.first ++ [], _
  rwa [append_nil]

/-- A phrase that may be missing. -/
theorem ExactSteps.opt (steps : ExactSteps embedded n p m step) :
    Exact embedded n (.opt p) (p.first ++ m) step := by
  intro c ready
  cases steps c ready with
  | idle run other => exact .absent run other
  | item begins exact =>
    refine (exact.mono fun _ => mem_append_right _).present (words_opt p) ?_
    obtain ⟨t, starts, isNext⟩ := begins
    exact ⟨t, mem_append_left _ starts, isNext⟩

/-- An item that may be missing, and what comes behind it if it is there. -/
theorem ExactSteps.opt_bind {f : Option α → Parser β} (steps : ExactSteps embedded n p m step)
    (proper : p.nullable = false) (inside : ∀ t ∈ p.first, t ∈ m') (joined : joins m q m' = true)
    (silent : ∀ c, ∃ b, (f none).run c = .ok (b, c))
    (next : ∀ a, Exact embedded n q m' (f (some a))) :
    Exact embedded n (.opt (.seq p q)) m' (step >>= f) := by
  intro c ready
  cases steps c ready with
  | idle run other =>
    obtain ⟨b, runs⟩ := silent c
    have run' : (step >>= f).run c = .ok (b, c) := by
      rw [StateT.run_bind, run]
      exact runs
    exact .absent run' (first_seq proper ▸ other)
  | item begins exact some =>
    obtain ⟨t, starts, isNext⟩ := begins
    refine .present (exact.bind joined fun found c' run suffix _ => ?_) (words_opt _)
      ⟨t, inside t starts, isNext⟩
    cases found with
    | none => exact absurd rfl (some _ _ run)
    | some a => exact next a c' (ready.le suffix)

theorem collectUpTo_exact (steps : ExactSteps embedded n p m step) (proper : p.nullable = false)
    (joined : joins m (.many p) (p.first ++ m) = true) (k : Nat) (ready : c.Ready n)
    (enough : c.rest.length < k) :
    ExactAt embedded (.many p) (p.first ++ m) (collectUpTo step k) c ∧
      ((∃ t ∈ p.first, c.next? = some t) →
        ExactAt embedded (.several p) (p.first ++ m) (collectUpTo step k) c) := by
  induction k generalizing c with
  | zero => cases enough
  | succ k ih =>
    cases steps c ready with
    | idle run other =>
      have run' : (collectUpTo step (k + 1)).run c = .ok ([], c) := by
        rw [collectUpTo, StateT.run_bind, run]
        rfl
      refine ⟨(ExactAt.missing run' .stop other).mono nofun, fun begins => ?_⟩
      obtain ⟨t, starts, isNext⟩ := begins
      exact absurd isNext (other t starts)
    | item begins exact some =>
      have rest : ExactAt embedded (.several p) (p.first ++ m) (collectUpTo step (k + 1)) c := by
        refine exact.bind joined fun found c' run suffix shorter => ?_
        cases found with
        | none => exact absurd rfl (some _ _ run)
        | some a =>
          have fewer := shorter proper
          exact (ih (ready.of_suffix suffix (fewer.trans ready.short))
            (fewer.trans_le (Nat.lt_succ_iff.1 enough))).1.map
      refine ⟨?_, fun _ => rest⟩
      obtain ⟨t, starts, isNext⟩ := begins
      exact rest.present (words_many_eq p) ⟨t, mem_append_left _ starts, isNext⟩

theorem collectUpTo_succ_bind (step : Parser (Option α)) (k : Nat) (f : List α → Parser β) :
    (collectUpTo step (k + 1) >>= f) = step >>= fun found => match found with
      | none => f []
      | some a => collectUpTo step k >>= fun as => f (a :: as) := by
  rw [collectUpTo, bind_assoc]
  congr 1
  funext found
  cases found with
  | none => rw [pure_bind]
  | some a => simp only [bind_assoc, pure_bind]

theorem ExactSteps.collect (steps : ExactSteps embedded n p m step) (proper : p.nullable = false)
    (joined : joins m (.many p) (p.first ++ m) = true) :
    Exact embedded n (.many p) (p.first ++ m) (collect step) :=
  fun _ ready => .cursor (collectUpTo_exact steps proper joined _ ready (Nat.lt_succ_self _)).1

theorem ExactSteps.rule {r : Nonterminal} (steps : ExactSteps embedded n (grammar r) m step)
    (first : (grammar r).first = r.first) : ExactSteps embedded n (.rule r) m step := by
  have same : (Phrase.rule r).first = (grammar r).first := first.symm
  intro c ready
  cases steps c ready with
  | idle run other => exact .idle run (same ▸ other)
  | item begins exact some => exact .item (same ▸ begins) exact.rule some

theorem accept?_steps (t : Terminal) (plain : t ≠ .template) :
    ExactSteps embedded n (.token t) [] (accept? t) := by
  intro c ready
  by_cases isNext : c.next? = some t
  · have taken : ExactStepAt embedded (.token t) [] (take >>= fun k => pure (some k)) c :=
      .takes isNext (mem_singleton_self t) (take_exact isNext plain).map
        (.bind fun _ => .some)
    exact taken.of_run (accept?_of_next isNext)
  · exact .idle (accept?_of_other isNext) (forall_mem_singleton.2 isNext)

theorem skipMany_exact (t : Terminal) (plain : t ≠ .template) :
    Exact embedded n (.many (.token t)) [t] (skipMany t) :=
  ((accept?_steps t plain).collect rfl rfl).map

end Parser

end ChannelLint
