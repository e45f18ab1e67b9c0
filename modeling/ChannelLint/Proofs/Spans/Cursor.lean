import ChannelLint.Proofs.Spans.Parts

/-!
# Parsers and the places of what they read

A cursor stands in a text if its tokens stand there one behind the other. A parser moves it forward
and reads parts: each lies between the start of the first token and the end of the last one that is
taken, and they stand in a row (`Cursor.Reads`). For a parser that is built from others, what was
read from its beginning is kept while it goes on (`Parser.SpansFrom`), until a part is made of it.
-/
namespace ChannelLint

open List

variable {p : Part}

/-- A token is the text at its range. The last character of a label is a colon and that of a string
a quote, and a name is made of letters of names. -/
structure Token.Stands (t : String) (k : Token) : Prop where
  place : ∃ before behind, t.toList = before ++ k.text.toList ++ behind ∧
    k.range = ⟨Position.zero.after before, Position.zero.after (before ++ k.text.toList)⟩
  nonempty : k.text ≠ ""
  label : k.terminal = .label → ∃ name, k.text.toList = name ++ [':'] ∧
    IsSegment (String.ofList name)
  string : k.terminal = .string → EndsQuoted k.text
  name : k.terminal = .name ∨ k.terminal = .kwNew → IsSegment k.text

namespace Token.Stands

variable {t : String} {k : Token}

theorem textAt (stands : k.Stands t) : ChannelLint.textAt t k.range = k.text := by
  obtain ⟨before, behind, split, range⟩ := stands.place
  rw [range, textAt_after split, String.ofList_toList]

theorem forward (stands : k.Stands t) : k.range.start < k.range.stop := by
  obtain ⟨before, behind, -, range⟩ := stands.place
  rw [range, Position.after_append]
  exact Position.lt_after _ (by simpa using stands.nonempty)

end Token.Stands

/-- The tokens in front of a cursor stand in the text `t` one behind the other, up to `hi`. -/
structure Cursor.Stands (t : String) (hi : Position) (c : Cursor) : Prop where
  tokens : ∀ k ∈ c.rest, k.Stands t ∧ k.range.stop ≤ hi
  ordered : c.rest.Pairwise fun j k => j.range.stop ≤ k.range.start
  behind : ∀ k ∈ c.rest, c.reached ≤ k.range.start
  bounded : c.reached ≤ hi

/-- Where the next token starts. -/
def Cursor.start (c : Cursor) : Position :=
  (c.rest.head?.map (·.range.start)).getD c.reached

variable {t : String} {hi : Position} {c c' c'' : Cursor} {m m' : Bool} {ps qs : List Part}

theorem Cursor.Stands.reached_le_start (stands : c.Stands t hi) : c.reached ≤ c.start := by
  obtain ⟨rest, reached, bad⟩ := c
  cases rest with
  | nil => exact le_refl reached
  | cons k rest => exact stands.behind k mem_cons_self

/-- Parts that were read in a row from one cursor to another; `moved` if surely a token was taken. -/
structure Cursor.Reads (t : String) (hi : Position) (c : Cursor) (moved : Bool) (ps : List Part)
    (c' : Cursor) : Prop where
  stands : c'.Stands t hi
  reached : c.reached ≤ c'.reached
  start : c.start ≤ c'.start
  passes : c'.rest ≠ c.rest → c.start < c'.reached
  forward : moved = true → c.start < c'.reached
  held : ∀ p ∈ ps, p.Between t c.start c'.reached
  row : ps.Pairwise Part.Before

/-- A part that was read from one cursor to another, and nothing else. -/
structure Part.Spans (t : String) (hi : Position) (c c' : Cursor) (p : Part) : Prop where
  reads : c.Reads t hi true [p] c'
  range : p.range = ⟨c.start, c'.reached⟩

namespace Cursor.Reads

theorem refl (stands : c.Stands t hi) : c.Reads t hi false [] c :=
  ⟨stands, le_refl _, le_refl _, fun differs => absurd rfl differs, nofun, nofun, .nil⟩

/-- What is read behind something else stands behind it. -/
theorem trans (first : c.Reads t hi m ps c') (second : c'.Reads t hi m' qs c'') :
    c.Reads t hi (m || m') (ps ++ qs) c'' := by
  refine ⟨second.stands, first.reached.trans second.reached, first.start.trans second.start,
    fun differs => ?_, fun moved => ?_, forall_mem_append.2 ⟨fun p member => ?_,
      fun p member => ?_⟩, pairwise_append.2 ⟨first.row, second.row, fun p hp q hq => ?_⟩⟩
  · by_cases same : c'.rest = c.rest
    · exact first.start.trans_lt (second.passes (same ▸ differs))
    · exact (first.passes same).trans_le second.reached
  · obtain moved | moved := Bool.or_eq_true _ _ ▸ moved
    · exact (first.forward moved).trans_le second.reached
    · exact first.start.trans_lt (second.forward moved)
  · exact (first.held p member).mono (le_refl _) second.reached
  · exact (second.held p member).mono first.start (le_refl _)
  · obtain bare | inside := (first.held p hp).placed
    · exact .inl bare
    · exact .inr ((second.held q hq).placed.imp_right fun inside' =>
        inside.stop.trans (first.stands.reached_le_start.trans inside'.start))

theorem sublist (reads : c.Reads t hi m ps c') (sub : qs.Sublist ps) : c.Reads t hi m qs c' :=
  ⟨reads.stands, reads.reached, reads.start, reads.passes, reads.forward,
    fun p member => reads.held p (sub.subset member), reads.row.sublist sub⟩

theorem skip (first : c.Reads t hi m ps c') (second : c'.Reads t hi m' qs c'') :
    c.Reads t hi (m || m') ps c'' :=
  (first.trans second).sublist (sublist_append_left ..)

section

variable (reads : c.Reads t hi m ps c')

include reads

/-- Whether a token was taken is forgotten. -/
theorem loosen : c.Reads t hi false ps c' :=
  ⟨reads.stands, reads.reached, reads.start, reads.passes, nofun, reads.held, reads.row⟩

/-- A token was taken if there are not the same tokens left. -/
theorem moved (differs : c'.rest ≠ c.rest) : c.Reads t hi true ps c' :=
  ⟨reads.stands, reads.reached, reads.start, reads.passes, fun _ => reads.passes differs, reads.held,
    reads.row⟩

/-- A part between the cursors in place of those that were read. -/
theorem part (between : p.Between t c.start c'.reached) : c.Reads t hi m [p] c' :=
  ⟨reads.stands, reads.reached, reads.start, reads.passes, reads.forward,
    forall_mem_singleton.2 between, pairwise_singleton _ _⟩

theorem asRead (member : p ∈ ps) : p.All (Part.AsRead t) :=
  (reads.held p member).asRead

end

/-- A part from one cursor to the other. -/
theorem spans (reads : c.Reads t hi true ps c')
    (range : p.range = ⟨c.start, c'.reached⟩) (asRead : p.All (Part.AsRead t)) :
    p.Spans t hi c c' := by
  refine ⟨reads.part ⟨asRead, .inr ?_⟩, range⟩
  rw [range]
  exact ⟨le_refl _, le_refl _⟩

/-- A part that consists of what was read. -/
theorem node (reads : c.Reads t hi true p.parts c')
    (range : p.range = ⟨c.start, c'.reached⟩) (plain : p.isPlain = true) : p.Spans t hi c c' := by
  obtain ⟨silent, lexed, line⟩ := Part.isPlain_spec t plain
  refine reads.spans range (.of_row range (reads.forward rfl) reads.held reads.row ?_ lexed line)
  rw [silent]
  exact nofun

end Cursor.Reads

theorem Part.Spans.asRead (spans : p.Spans t hi c c') : p.All (Part.AsRead t) :=
  spans.reads.asRead mem_cons_self

theorem Part.Spans.start (spans : p.Spans t hi c c') : p.range.start = c.start :=
  congrArg Range.start spans.range

theorem Part.Spans.stop (spans : p.Spans t hi c c') : p.range.stop = c'.reached :=
  congrArg Range.stop spans.range

/-- A part that was read behind something else does not begin where that begins. -/
theorem Part.Spans.range_ne {c₀ : Cursor} (spans : p.Spans t hi c c')
    (before : c₀.Reads t hi true ps c) (stop : Position) : p.range ≠ ⟨c₀.start, stop⟩ := by
  intro same
  have later := (before.forward rfl).trans_le before.stands.reached_le_start
  rw [← spans.start, same] at later
  exact lt_irrefl _ later

abbrev Expr.Spans (t : String) (hi : Position) (c c' : Cursor) (e : Expr) : Prop :=
  (Part.expr e).Spans t hi c c'

abbrev Stmt.Spans (t : String) (hi : Position) (c c' : Cursor) (s : Stmt) : Prop :=
  (Part.stmt s).Spans t hi c c'

namespace Parser

variable {α β : Type} {c₀ : Cursor} {P : α → Cursor → Prop} {Q : β → Cursor → Prop}
  {κ : α → List Part} {p : Parser α} {f : α → Parser β}

/-- What a parser gives at a cursor has a property. -/
def SpansAt (P : α → Cursor → Prop) (p : Parser α) (c : Cursor) : Prop :=
  ∀ a c', p.run c = .ok (a, c') → P a c'

/-- What a parser gives behind some parts, read from `c₀` on, has a property. -/
def SpansFrom (t : String) (hi : Position) (c₀ : Cursor) (m : Bool) (ps : List Part)
    (Q : β → Cursor → Prop) (p : Parser β) : Prop :=
  ∀ c, c₀.Reads t hi m ps c → SpansAt Q p c

/-- A parser that reads the parts of what it gives. -/
def Keeps (t : String) (hi : Position) (m : Bool) (κ : α → List Part) (p : Parser α) : Prop :=
  ∀ c, c.Stands t hi → SpansAt (fun a c' => c.Reads t hi m (κ a) c') p c

/-- A parser that reads a part from the first token it takes to the last. -/
def ReadsPart (t : String) (hi : Position) (κ : α → Part) (p : Parser α) : Prop :=
  ∀ c, c.Stands t hi → SpansAt (fun a c' => (κ a).Spans t hi c c') p c

namespace SpansAt

theorem bind (first : SpansAt P p c) (next : ∀ a c', P a c' → SpansAt Q (f a) c') :
    SpansAt Q (p >>= f) c := by
  intro b c'' run
  rw [StateT.run_bind] at run
  cases start : p.run c with
  | error stuck =>
    rw [start] at run
    cases run
  | ok result =>
    obtain ⟨a, c'⟩ := result
    rw [start] at run
    exact next a c' (first a c' start) b c'' run

theorem pure {a : α} (holds : P a c) : SpansAt P (Pure.pure a) c := by
  intro a' c' run
  cases run
  exact holds

theorem refuse : SpansAt P Parser.refuse c := by
  intro a c' run
  cases run

theorem mono {R : α → Cursor → Prop} (spans : SpansAt P p c) (weaker : ∀ a c', P a c' → R a c') :
    SpansAt R p c :=
  fun a c' run => weaker a c' (spans a c' run)

theorem look {f : Option Terminal → Parser β} (next : SpansAt Q (f c.next?) c) :
    SpansAt Q (Parser.look >>= f) c :=
  next

theorem peek {f : Option Token → Parser β} (next : SpansAt Q (f c.rest.head?) c) :
    SpansAt Q (peek? >>= f) c :=
  next

theorem here {f : Position → Parser β} (next : SpansAt Q (f c.start) c) :
    SpansAt Q (Parser.here >>= f) c :=
  next

theorem since {f : Range → Parser β} {start : Position}
    (next : SpansAt Q (f ⟨start, c.reached⟩) c) : SpansAt Q (Parser.since start >>= f) c :=
  next

theorem cursor {f : Cursor → Parser β} (next : SpansAt Q (f c) c) : SpansAt Q (get >>= f) c :=
  next

end SpansAt

theorem ReadsPart.keeps {κ : α → Part} (reads : ReadsPart t hi κ p) :
    Keeps t hi true (fun a => [κ a]) p :=
  fun c stands => (reads c stands).mono fun _ _ spans => spans.reads

/-! ## Going on -/

theorem SpansAt.start (stands : c₀.Stands t hi) {p : Parser β}
    (spans : SpansFrom t hi c₀ false [] Q p) : SpansAt Q p c₀ :=
  spans c₀ (.refl stands)

namespace SpansFrom

theorem pure {b : β} (holds : ∀ c, c₀.Reads t hi m ps c → Q b c) :
    SpansFrom t hi c₀ m ps Q (Pure.pure b) :=
  fun c reads => .pure (holds c reads)

/-- What was read belongs to what is given. -/
theorem kept {a : α} (same : κ a = ps) :
    SpansFrom t hi c₀ m ps (fun a c => c₀.Reads t hi m (κ a) c) (Pure.pure a) :=
  .pure fun _ reads => same ▸ reads

theorem loosened {a : α} (same : κ a = ps) :
    SpansFrom t hi c₀ m ps (fun a c => c₀.Reads t hi false (κ a) c) (Pure.pure a) :=
  .pure fun _ reads => same ▸ reads.loosen

theorem refuse : SpansFrom t hi c₀ m ps Q Parser.refuse :=
  fun _ _ => .refuse

theorem look {f : Option Terminal → Parser β} (next : ∀ kind, SpansFrom t hi c₀ m ps Q (f kind)) :
    SpansFrom t hi c₀ m ps Q (Parser.look >>= f) :=
  fun c reads => next c.next? c reads

theorem since {f : Range → Parser β} {start : Position}
    (next : ∀ c, c₀.Reads t hi m ps c → SpansAt Q (f ⟨start, c.reached⟩) c) :
    SpansFrom t hi c₀ m ps Q (Parser.since start >>= f) :=
  next

end SpansFrom

namespace Keeps

theorem of_spans (spans : ∀ c₀, SpansFrom t hi c₀ false [] (fun a c' => c₀.Reads t hi m (κ a) c') p) :
    Keeps t hi m κ p :=
  fun c stands => .start stands (spans c)

/-- A parser reads parts, and another one goes on behind them. -/
theorem next (keeps : Keeps t hi m' κ p)
    (more : ∀ a, SpansFrom t hi c₀ (m || m') (ps ++ κ a) Q (f a)) : SpansFrom t hi c₀ m ps Q (p >>= f) :=
  fun c reads => (keeps c reads.stands).bind fun a c' own => more a c' (reads.trans own)

/-- Nothing that a parser reads is kept. -/
theorem skip (keeps : Keeps t hi m' κ p) (more : ∀ a, SpansFrom t hi c₀ (m || m') ps Q (f a)) :
    SpansFrom t hi c₀ m ps Q (p >>= f) :=
  fun c reads => (keeps c reads.stands).bind fun a c' own => more a c' (reads.skip own)

end Keeps

/-! ## Tokens -/

variable {step : Parser (Option α)} {P : Cursor → α → Cursor → Prop}

/-- What is known of a token that was taken between two cursors. -/
structure Taken (t : String) (hi : Position) (c c' : Cursor) (k : Token) : Prop where
  stands : k.Stands t
  range : k.range = ⟨c.start, c'.reached⟩
  isNext : c.next? = some k.terminal
  reads : c.Reads t hi true [] c'

theorem Taken.start {k : Token} (taken : Taken t hi c c' k) : k.range.start = c.start :=
  congrArg Range.start taken.range

theorem Taken.named {k : Token} (taken : Taken t hi c c' k)
    (isName : k.terminal = .name ∨ k.terminal = .kwNew) :
    (Part.ident (ident k)).Spans t hi c c' := by
  have segment := taken.stands.name isName
  obtain ⟨before, behind, split, range⟩ := taken.stands.place
  refine taken.reads.spans taken.range (.of_row taken.range (taken.reads.forward rfl) nofun .nil
    ?_ (.of_place before behind split range segment.nonempty segment.isName) rfl)
  rintro _ ⟨⟩
  exact taken.stands.textAt

theorem take_spans (stands : c.Stands t hi) : SpansAt (fun k c' => Taken t hi c c' k) take c := by
  intro k c' run
  obtain ⟨rest, reached, bad⟩ := c
  cases rest with
  | nil => cases run
  | cons first rest =>
    cases run
    obtain ⟨own, others⟩ := forall_mem_cons.1 stands.tokens
    obtain ⟨before, ordered⟩ := pairwise_cons.1 stands.ordered
    have stands' : Cursor.Stands t hi ⟨rest, k.range.stop, bad⟩ :=
      ⟨others, ordered, before, own.2⟩
    have forward := own.1.forward
    refine ⟨own.1, rfl, rfl, stands', ?_, ?_, fun _ => forward, fun _ => forward, nofun, .nil⟩
    · exact (stands.behind k mem_cons_self).trans forward.le
    · exact forward.le.trans stands'.reached_le_start

theorem expect_spans (kind : Terminal) (stands : c.Stands t hi) :
    SpansAt (fun k c' => Taken t hi c c' k ∧ k.terminal = kind) (expect kind) c := by
  refine .look ?_
  split
  · next isNext =>
    exact (take_spans stands).mono fun k c' taken =>
      ⟨taken, Option.some.inj (taken.isNext.symm.trans isNext)⟩
  · exact .refuse

theorem accept?_spans (kind : Terminal) (stands : c.Stands t hi) :
    SpansAt (fun found c' => (found = none ∧ c' = c) ∨
      ∃ k, found = some k ∧ k.terminal = kind ∧ Taken t hi c c' k) (accept? kind) c := by
  refine .look ?_
  split
  · next isNext =>
    refine (take_spans stands).bind fun k c' taken => .pure (.inr ⟨k, rfl, ?_, taken⟩)
    exact Option.some.inj (taken.isNext.symm.trans isNext)
  · exact .pure (.inl ⟨rfl, rfl⟩)

theorem take_keeps : Keeps t hi true (fun _ => []) take :=
  fun _ stands => (take_spans stands).mono fun _ _ taken => taken.reads

theorem expect_keeps {kind : Terminal} : Keeps t hi true (fun _ => []) (expect kind) :=
  fun _ stands => (expect_spans kind stands).mono fun _ _ taken => taken.1.reads

/-- A token as the name it is. -/
def nameParts (k : Token) : List Part :=
  [.ident (ident k)]

theorem name_keeps : Keeps t hi true nameParts (expect .name) :=
  fun _ stands => (expect_spans .name stands).mono fun _ _ taken =>
    (taken.1.named (.inl taken.2)).reads

/-- Something behind a token, or something else if the token does not come next. -/
theorem SpansFrom.accept? (kind : Terminal) {f : Option Token → Parser β}
    (absent : SpansFrom t hi c₀ m ps Q (f none))
    (behind : ∀ k, SpansFrom t hi c₀ true ps Q (f (some k))) :
    SpansFrom t hi c₀ m ps Q (Parser.accept? kind >>= f) := by
  refine fun c reads => (accept?_spans kind reads.stands).bind fun found c' post => ?_
  obtain ⟨rfl, rfl⟩ | ⟨k, rfl, -, taken⟩ := post
  · exact absent _ reads
  · exact behind k c' (Bool.or_true m ▸ reads.skip taken.reads)

/-! ## Repetition -/

/-- The parts of something that may be missing. -/
def parts? (κ : α → List Part) : Option α → List Part
  | none => []
  | some a => κ a

theorem collect_keeps (keeps : Keeps t hi false (parts? κ) step) :
    Keeps t hi false (List.flatMap κ) (collect step) := by
  have upTo (n : Nat) : Keeps t hi false (List.flatMap κ) (collectUpTo step n) := by
    induction n with
    | zero => exact .of_spans fun _ => .kept rfl
    | succ n ih =>
      refine .of_spans fun _ => keeps.next fun found => ?_
      cases found with
      | none => exact .kept rfl
      | some a => exact ih.next fun as => .kept rfl
  exact fun c stands => .cursor (upTo _ c stands)

/-- Items that were read one behind the other, with nothing else between them. -/
inductive Row (P : Cursor → α → Cursor → Prop) : Cursor → List α → Cursor → Prop
  | nil (c : Cursor) : Row P c [] c
  | cons {c c' c'' : Cursor} {a : α} {as : List α} : P c a c' → Row P c' as c'' →
      Row P c (a :: as) c''

/-- What a step of a repetition gives. -/
def StepPost (P : Cursor → α → Cursor → Prop) (c : Cursor) : Option α → Cursor → Prop
  | none, c' => c' = c
  | some a, c' => P c a c'

theorem collect_row (each : ∀ c, c.Stands t hi → SpansAt (StepPost P c) step c)
    (stays : ∀ {c a c'}, P c a c' → c'.Stands t hi) (stands : c.Stands t hi) :
    SpansAt (fun as c' => Row P c as c' ∧ c'.Stands t hi) (collect step) c := by
  have upTo (n : Nat) : ∀ c, c.Stands t hi →
      SpansAt (fun as c' => Row P c as c' ∧ c'.Stands t hi) (collectUpTo step n) c := by
    induction n with
    | zero => exact fun c stands => .pure ⟨.nil c, stands⟩
    | succ n ih =>
      refine fun c stands => (each c stands).bind fun found c' post => ?_
      cases found with
      | none =>
        obtain rfl : c' = c := post
        exact .pure ⟨.nil c', stands⟩
      | some a =>
        exact (ih c' (stays post)).bind fun as c'' ⟨row, stands'⟩ => .pure ⟨.cons post row, stands'⟩
  exact .cursor (upTo _ c stands)

/-- What each step of a fold keeps holds at the end of a row. -/
theorem Row.foldl {g : β → α → β} {as : List α} {b : β} (row : Row P c as c') (start : Q b c)
    (step : ∀ b a c c', Q b c → P c a c' → Q (g b a) c') : Q (as.foldl g b) c' := by
  induction row generalizing b with
  | nil => exact start
  | cons item _ ih => exact ih (step b _ _ _ start item)

end Parser

end ChannelLint
