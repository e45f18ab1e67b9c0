import ChannelLint.Proofs.Rendering.Lexing
import ChannelLint.Proofs.Rendering.Parsing
import ChannelLint.Script.Reader

/-!
# Reading a rendered expression back

A script that assigns a rendered expression is read to one assignment, and its value is the
expression apart from the ranges (`Expr.exists_read_assigned`).
-/
namespace ChannelLint

open List

variable {w : Word} {ws : List Word} {holds : Stmt → Prop} {tokens : List Token}

theorem Expr.toList_assigned (e : Expr) :
    e.assigned.toList = "sub main()\nx = ".toList ++ (e.text.toList ++ "\nend sub\n".toList) :=
  calc e.assigned.toList
      = ("sub main()\nx = " ++ e.text ++ "\nend sub\n").toList := rfl
    _ = _ := by rw [String.toList_append, String.toList_append, append_assoc]

/-! ## The tokens of the script -/

namespace Word

def lineFeed : Word := ⟨.newline, "\n"⟩

def endSub : Word := ⟨.endSub, "end sub"⟩

/-- The words up to the assigned name. -/
def header : List Word :=
  [⟨.kwSub, "sub"⟩, ⟨.name, "main"⟩, leftParen, rightParen, lineFeed]

/-- The words of the assignment. -/
def assignment (e : Expr) : List Word :=
  ⟨.name, "x"⟩ :: ⟨.equals, "="⟩ :: e.words

end Word

namespace Lexer

open Word

theorem spells_header {d : Char} (visible : isBlank d = false) (rest : List Char) :
    Spells ("sub main()\nx = ".toList ++ d :: rest) (header ++ [⟨.name, "x"⟩, ⟨.equals, "="⟩])
      (d :: rest) := by
  have gap (c : Char) (rest : List Char) (visible : isBlank c = false) := spells_blank visible rest
  exact (spells_token 's' ['u', 'b'] _ rfl).trans <| (gap _ _ rfl).trans <|
    (spells_token 'm' ['a', 'i', 'n'] _ rfl).trans <| (spells_token '(' [] _ rfl).trans <|
    (spells_token ')' [] _ rfl).trans <| (spells_token '\n' [] _ rfl).trans <|
    (spells_token 'x' [] _ rfl).trans <| (gap _ _ rfl).trans <|
    (spells_token '=' [] _ rfl).trans <| gap _ _ visible

theorem spells_footer : Spells "\nend sub\n".toList [lineFeed, endSub, lineFeed] [] := by
  have line (rest : List Char) (found : firstMatch ('\n' :: rest) = some (some .newline, 1)) :
      Spells ('\n' :: rest) [lineFeed] rest :=
    spells_token '\n' [] rest found
  have close : Spells ("end sub".toList ++ ['\n']) [endSub] ['\n'] :=
    spells_token (t := .endSub) 'e' ['n', 'd', ' ', 's', 'u', 'b'] _ rfl
  exact (line _ rfl).trans (close.trans (line [] rfl))

/-- The words of the whole script. -/
theorem spells_assigned {e : Expr} (fits : e.Fits 0) : Spells e.assigned.toList
      (header ++ assignment e ++ [lineFeed, endSub, lineFeed]) [] := by
  obtain ⟨w, rest, words, -⟩ := fits.head
  have readable := fits.readable
  obtain ⟨d, ds, text, visible⟩ := (readable.each w (words ▸ mem_cons_self)).head
  obtain ⟨more, joined⟩ := exists_intercalate_cons w.text.toList (rest.map (·.text.toList))
  have chars : e.text.toList = [' '].intercalate (e.words.map (·.text.toList)) := by
    rw [Expr.text, String.toList_intercalate, map_map]
    rfl
  have split : e.text.toList = d :: (ds ++ more) := by
    rw [chars, words, map_cons, joined, text]
    rfl
  have value := spells_words readable (words ▸ cons_ne_nil w rest) "end sub\n".toList
  rw [← chars, split] at value
  rw [Expr.toList_assigned, split]
  have whole := (spells_header visible _).trans (value.trans spells_footer)
  simpa [assignment] using whole

end Lexer

/-! ## Reading the script -/

namespace Parser

variable {rules outer : Rules} {k : Nat} {e : Expr}

variable {t : Token} {rest : List Token} {reached : Position} {bad : Bool}

/-- What is read from the assignment. -/
def Assigns (e : Expr) (s : Stmt) : Prop :=
  ∃ a, s = .assign a ∧ a.name.text = "x" ∧ a.op = none ∧ a.value.bare = e.bare

theorem runs_atom_name (isName : t.terminal = .name) :
    Runs (atom rules) ⟨t :: rest, reached, bad⟩ (.var (ident t) false)
      ⟨rest, t.range.stop, bad⟩ := by
  exact .bind (runs_look_of isName) (.bind runs_take (.pure _ _))

theorem runs_assignOp_equals (isEquals : t.terminal = .equals) :
    Runs assignOp? ⟨t :: rest, reached, bad⟩ (some none) ⟨rest, t.range.stop, bad⟩ :=
  .bind (runs_look_of isEquals) (.bind runs_take (.pure _ _))

theorem runs_separator_newline (isLine : t.terminal = .newline) :
    Runs separator ⟨t :: rest, reached, bad⟩ () ⟨rest, t.range.stop, bad⟩ :=
  .bind (runs_look_of isLine) (.bind runs_take (.pure _ _))

theorem reads_assignment (value : ReadsWords rules.expr e.words 0 (·.bare = e.bare)) :
    ReadsWords (statement rules) (Word.assignment e) 0 (Assigns e) := by
  refine .look (.here fun _ => .look ?_)
  refine .token (fun _ _ _ _ isName => runs_atom_name (congrArg Word.terminal isName))
    fun name isName => ?_
  obtain ⟨-, text⟩ := Word.mk.inj isName
  have noSuffix (token : Token) (rest : List Token) (reached : Position) (bad : Bool)
      (isEquals : token.word = ⟨.equals, "="⟩) :
      Runs (collect (suffix? rules)) ⟨token :: rest, reached, bad⟩ []
        ⟨token :: rest, reached, bad⟩ := by
    have stops : Stops 11 ([token] ++ rest) := by
      refine stops_of_words (congrArg (fun w => [w]) isEquals) ?_
      rintro _ ⟨⟩
      decide
    exact runs_collect .done (runs_suffix_none stops _ _)
  refine .before noSuffix (.acceptNone (by decide) ?_)
  refine .token (fun _ _ _ _ isEquals => runs_assignOp_equals (congrArg Word.terminal isEquals))
    fun _ _ => ?_
  have tail : ReadsWords (assignTail rules (ident name) none) e.words 0 fun a =>
      a.name.text = "x" ∧ a.op = none ∧ a.value.bare = e.bare :=
    .last value fun value' same => .since fun _ => .done ⟨text, rfl, same⟩
  exact .last tail fun a assigns => .done ⟨a, rfl, assigns⟩

/-- A line with a statement. -/
theorem reads_line (reads : ReadsWords (statement rules) (w :: ws) 0 holds)
    (starts : startsStatement w.terminal) (noLine : startsSeparator (some w.terminal) = false) :
    ReadsWords (lineOf? startsStatement (statement rules)) (w :: ws ++ [Word.lineFeed]) k fun b =>
      ∃ s, b = some (some s) ∧ holds s := by
  refine .look ?_
  dsimp only
  rw [noLine, if_neg Bool.false_ne_true, if_pos starts]
  refine .bind reads nofun fun s result => ?_
  exact .token (fun _ _ _ _ isLine => runs_separator_newline (congrArg Word.terminal isLine))
    fun _ _ => .done ⟨s, rfl, result⟩

/-- The lines of a block, in front of a token that begins no line. -/
theorem runs_blockLines {c c' : Cursor} {lines : List (Option Stmt)}
    (steps : Steps (lineOf? startsStatement (statement rules)) c lines c')
    (stop : Runs (lineOf? startsStatement (statement rules)) c' none c')
    (shorter : c'.rest.length < c.rest.length) :
    ∃ range, Runs (blockLines rules) c ⟨lines.filterMap id, range⟩ c' := by
  obtain ⟨start, isStart⟩ := runs_here c
  refine ⟨⟨start, c'.reached⟩, isStart.bind (.bind (runs_get c) ?_)⟩
  refine .bind (.bind (runs_collect steps stop) (.pure _ _)) (.bind (runs_get c') ?_)
  rw [if_neg shorter.ne]
  exact .bind (runs_since _ _) (.pure _ _)

/-- A block of one line, in front of a word that begins no statement. -/
theorem reads_block {β : Type} {f : Block → Parser β} {v : Word} {vs : List Word} {holds' : β → Prop}
    (line : ReadsWords (lineOf? startsStatement (statement rules)) (w :: ws) 0 fun b =>
      ∃ s, b = some (some s) ∧ holds s)
    (closes : v.level? = none) (noLine : startsSeparator (some v.terminal) = false)
    (noStart : startsStatement v.terminal = false)
    (next : ∀ s range, holds s → ReadsWords (f ⟨[s], range⟩) (v :: vs) k holds') :
    ReadsWords (blockLines rules >>= f) (w :: ws ++ v :: vs) k holds' := by
  intro tokens tail reached bad spelled stops
  obtain ⟨front, behind, rfl, isLine, isNext⟩ := map_eq_append_iff.1 spelled
  have closed : Stops 0 (behind ++ tail) := by
    refine stops_of_words isNext ?_
    rw [closes]
    nofun
  obtain ⟨_, reached', run, s, rfl, result⟩ :=
    line front (behind ++ tail) reached bad isLine closed
  have shorter : (behind ++ tail).length < (front ++ (behind ++ tail)).length :=
    length_lt_of_words isLine
  have stop : Runs (lineOf? startsStatement (statement rules)) ⟨behind ++ tail, reached', bad⟩
      none ⟨behind ++ tail, reached', bad⟩ := by
    obtain ⟨t, others, rfl, isClose, -⟩ := map_eq_cons_iff.1 isNext
    refine .bind (runs_look_of (congrArg Word.terminal isClose)) ?_
    dsimp only
    rw [noLine, noStart, if_neg Bool.false_ne_true, if_neg Bool.false_ne_true]
    exact .pure _ _
  obtain ⟨range, block⟩ := runs_blockLines (.more run shorter .done) stop shorter
  obtain ⟨b, reached'', run', result'⟩ := next s range result behind tail reached' bad isNext stops
  rw [append_assoc]
  exact ⟨b, reached'', block.bind run', result'⟩

/-- The function that holds the assignment. -/
theorem reads_function (value : ReadsWords rules.expr e.words 0 (·.bare = e.bare))
    (block : outer.block = blockLines rules) : ReadsWords (functionDeclaration outer)
      (Word.header ++ (Word.assignment e ++ [Word.lineFeed] ++ [Word.endSub])) k fun d =>
        ∃ name f s, d = .function name f ∧ f.body.statements = [s] ∧ Assigns e s := by
  have noParams : ReadsWords (params outer) [Word.leftParen, Word.rightParen] 0 (· = []) :=
    .expect rfl fun _ _ => .look (.take fun _ _ => .done rfl)
  have noType (token : Token) (rest : List Token) (reached : Position) (bad : Bool)
      (isLine : token.word = Word.lineFeed) :
      Runs typeClause? ⟨token :: rest, reached, bad⟩ none ⟨token :: rest, reached, bad⟩ :=
    .bind (runs_accept?_none (next?_ne_of_word isLine (by decide))) (.pure _ _)
  have tail (start keyword name) : ReadsWords (functionTail outer start keyword (some name) false)
      ([Word.leftParen, Word.rightParen] ++ Word.lineFeed ::
        (Word.assignment e ++ [Word.lineFeed] ++ [Word.endSub])) k fun f =>
          ∃ s, f.body.statements = [s] ∧ Assigns e s := by
    unfold functionTail
    rw [block]
    refine .bind noParams nofun fun params _ => .before noType (.since fun _ => ?_)
    refine .token (fun _ _ _ _ isLine => runs_separator_newline (congrArg Word.terminal isLine))
      fun _ _ => ?_
    refine reads_block (reads_line (reads_assignment value) rfl rfl) rfl rfl rfl
      fun s range assigns => ?_
    exact .look (.take fun _ _ => .since fun _ => .done ⟨s, rfl, assigns⟩)
  refine .take fun keyword _ => .expect rfl fun name _ => ?_
  refine .last (tail _ _ _) fun f ⟨s, body, assigns⟩ => .done ⟨_, f, s, rfl, body, assigns⟩

/-- A script of one declaration and a line feed. -/
theorem runs_scriptLines {declaration : Parser Decl} {holds : Decl → Prop}
    (reads : ReadsWords declaration (w :: ws) 0 holds)
    (noLine : startsSeparator (some w.terminal) = false)
    (spelled : tokens.map Token.word = w :: ws ++ [Word.lineFeed]) (p : Position) :
    ∃ d q, Runs (scriptLines declaration) ⟨tokens, p, false⟩ [d] ⟨[], q, false⟩ ∧ holds d := by
  obtain ⟨front, behind, rfl, isDecl, isLast⟩ := map_eq_append_iff.1 spelled
  obtain ⟨last, rfl, isLine⟩ := map_eq_singleton_iff.1 isLast
  obtain ⟨d, q, run, result⟩ := reads front [last] p false isDecl (stops_of_words isLast nofun)
  obtain ⟨first, rest, rfl, isFirst, -⟩ := map_eq_cons_iff.1 isDecl
  have line : Runs (topLine? declaration) ⟨first :: rest ++ [last], p, false⟩ (some (some d))
      ⟨[], last.range.stop, false⟩ := by
    refine .bind (runs_look_of (congrArg Word.terminal isFirst)) ?_
    dsimp only
    rw [noLine, if_neg Bool.false_ne_true]
    refine run.bind (.bind (runs_look_of (congrArg Word.terminal isLine)) ?_)
    exact .bind (runs_separator_newline (congrArg Word.terminal isLine)) (.pure _ _)
  have steps : Steps (topLine? declaration) ⟨first :: rest ++ [last], p, false⟩ [some d]
      ⟨[], last.range.stop, false⟩ :=
    .more line (Nat.zero_lt_succ _) .done
  exact ⟨d, _, .bind (runs_collect steps (.bind (runs_look _) (.pure _ _))) (.pure _ _), result⟩

theorem runAll_of_runs {α : Type} {parser : Nat → Parser α} {p q : Position} {cs : List Char}
    {a : α} (lexed : Lexer.lexFrom p cs = ⟨tokens, .endOfText⟩)
    (run : Runs (parser (tokens.length + 2)) ⟨tokens, p, false⟩ a ⟨[], q, false⟩) :
    runAll parser p cs = .ok a := by
  unfold Runs at run
  unfold runAll
  rw [lexed]
  dsimp only
  rw [run]
  rfl

/-- The declarations of the script. -/
theorem exists_runAll_assigned (fits : e.Fits 0) (depth : Nat) :
    ∃ name f s, runAll (script depth) .zero e.assigned.toList = .ok [.function name f] ∧
      f.body.statements = [s] ∧ Assigns e s := by
  obtain ⟨tokens, q, spelled, lexed⟩ := Lexer.spells_assigned fits .zero
  have ending : Lexer.lexFrom q [] = ⟨[], .endOfText⟩ := by rw [Lexer.lexFrom]
  rw [ending, append_nil] at lexed
  have enough : e.words.length < tokens.length + 1 := by
    have length := congrArg List.length spelled
    simp only [length_map, length_append, Word.assignment, length_cons] at length
    omega
  have value : ReadsWords (rulesUpTo (embeddedUpTo depth) (tokens.length + 1)).expr e.words 0
      (·.bare = e.bare) :=
    (readsBack_of_fits fits).inner enough
  have reads : ReadsWords
      (declarationUpTo (rulesUpTo (embeddedUpTo depth) (tokens.length + 2)) (tokens.length + 2))
      (Word.header ++ (Word.assignment e ++ [Word.lineFeed] ++ [Word.endSub])) 0 fun d =>
        ∃ name f s, d = .function name f ∧ f.body.statements = [s] ∧ Assigns e s :=
    .look (reads_function value rfl)
  have lines : tokens.map Token.word =
      Word.header ++ (Word.assignment e ++ [Word.lineFeed] ++ [Word.endSub]) ++
        [Word.lineFeed] := by
    rw [spelled]
    simp only [append_assoc, cons_append, nil_append]
  obtain ⟨_, q, run, name, f, s, rfl, holds⟩ := runs_scriptLines reads rfl lines .zero
  exact ⟨name, f, s, runAll_of_runs lexed run, holds⟩

end Parser

/-- Reading inverts rendering: the value of the assignment that is read from a rendered expression
is the expression, apart from the ranges. -/
theorem Expr.exists_read_assigned {e : Expr} (fits : e.Fits 0) (path pkgPath : String) :
    ∃ script name func assign, Script.read e.assigned path pkgPath = .ok script ∧
      script.decls = [.function name func] ∧ func.body.statements = [.assign assign] ∧
      assign.name.text = "x" ∧ assign.op = none ∧ assign.value.bare = e.bare := by
  obtain ⟨name, f, _, run, body, assign, rfl, assigns⟩ :=
    Parser.exists_runAll_assigned fits (e.assigned.toList.length + 1)
  have unmarked : dropByteOrderMark e.assigned.toList = e.assigned.toList := by
    rw [toList_assigned]
    rfl
  have read : readDeclarations e.assigned = .ok [.function name { f with nspace := none }] := by
    rw [readDeclarations, unmarked, run]
    rfl
  refine ⟨⟨path, if pkgPath.isEmpty then path else pkgPath, e.assigned,
    [.function name { f with nspace := none }]⟩, name, { f with nspace := none }, assign, ?_, rfl,
    body, assigns⟩
  rw [Script.read, read]
  rfl

namespace MixedTree

def var (text : String) : Expr :=
  .var ⟨text, .empty⟩ false

def number (text : String) : Expr :=
  .literal .number text .empty

def test : Expr :=
  .unary .not (.call (.index (.dot (var "m") ⟨"top", .empty⟩ .empty)
    (.literal .string (stringText "say \"hi\"") .empty) .empty)
    [number "1.5e+3", .unary .minus (var "y$") .empty] .empty) .empty

def table : Expr :=
  .table
    [⟨"a\"b", .new (.dot (var "Lib") ⟨"Box", .empty⟩ .empty) [] .empty .empty⟩,
      ⟨"", .array [.literal .boolean "true" .empty, .literal .invalid "invalid" .empty] .empty⟩]
    .empty

def product : Expr :=
  .binary (.group (.binary (number "&hFF") .subtract (var "n") .empty) .empty) .multiply
    (.binary (.binary (var "n") .power (var "n") .empty) .power (number ".5") .empty) .empty

/-- A condition over a call, with a table and a fallback for another call as its results. -/
def whole : Expr :=
  .ternary test table (.binary (.call (.var ⟨"Abs", .empty⟩ true) [product] .empty) .coalesce
    (var "n") .empty) .empty

open Lexer

theorem free_names : ∀ text ∈ ["m", "top", "y$", "Lib", "Box", "Abs", "n"], isFreeName text := by
  decide +kernel

theorem fits_var {text : String} {k : Nat}
    (known : text ∈ ["m", "top", "y$", "Lib", "Box", "Abs", "n"]) (le : k ≤ 11) :
    (var text).Fits k :=
  Expr.Fits.of_le (.var (free_names text known)) le

theorem fits_number {text : String} {k : Nat} (isNumber : IsNumber text.toList) (le : k ≤ 11) :
    (number text).Fits k :=
  Expr.Fits.of_le (.number isNumber) le

theorem fits_test : test.Fits 4 := by
  have large : IsNumber (['1'] ++ '.' :: ['5'] ++ ['e', '+', '3'] ++ []) :=
    .decimal (.pointed (by decide) (by decide)) (.signed (.inl rfl) (.inl rfl) (by decide))
      (by decide)
  have field : (Expr.dot (var "m") ⟨"top", .empty⟩ .empty).Fits 11 :=
    .dot (fits_var (by decide) le_rfl) (free_names _ (by decide))
  have key : (Expr.literal .string (stringText "say \"hi\"") .empty).Fits 11 :=
    .string (by decide)
  have item : (Expr.index (.dot (var "m") ⟨"top", .empty⟩ .empty)
      (.literal .string (stringText "say \"hi\"") .empty) .empty).Fits 11 :=
    .index field (key.of_le (by decide))
  have minus : (Expr.unary .minus (var "y$") .empty).Fits 10 :=
    .sign nofun (fits_var (by decide) (by decide))
  have args : ∀ a ∈ [number "1.5e+3", .unary .minus (var "y$") .empty], a.Fits 0 :=
    forall_mem_cons.2 ⟨fits_number large (by decide),
      forall_mem_singleton.2 (minus.of_le (by decide))⟩
  exact .negation (Expr.Fits.of_le (.call item rfl args) (by decide))

theorem fits_table : table.Fits 11 := by
  have made : (Expr.new (.dot (var "Lib") ⟨"Box", .empty⟩ .empty) [] .empty .empty).Fits 11 :=
    .new (.dotted (.first (free_names _ (by decide))) (free_names _ (by decide))) nofun
  have yes : (Expr.literal .boolean "true" .empty).Fits 11 := .boolean (.inl rfl)
  have none : (Expr.literal .invalid "invalid" .empty).Fits 11 := .invalid
  have items : (Expr.array [.literal .boolean "true" .empty, .literal .invalid "invalid" .empty]
      .empty).Fits 11 :=
    .array (forall_mem_cons.2 ⟨yes.of_le (by decide),
      forall_mem_singleton.2 (none.of_le (by decide))⟩)
  exact .table (by decide) (forall_mem_cons.2 ⟨made.of_le (by decide),
    forall_mem_singleton.2 (items.of_le (by decide))⟩)

theorem fits_product : product.Fits BinaryOp.multiply.level := by
  have mask : IsNumber ('&' :: 'h' :: ['F', 'F'] ++ []) :=
    .hexadecimal (.inl rfl) (by decide) (by decide) (by decide)
  have half : IsNumber ('.' :: ['5'] ++ [] ++ []) :=
    .decimal (.fraction (by decide)) .absent (by decide)
  have n {k : Nat} (le : k ≤ 11) : (var "n").Fits k := fits_var (by decide) le
  have rest : (Expr.binary (number "&hFF") .subtract (var "n") .empty).Fits
      BinaryOp.subtract.level :=
    .binary (fits_number mask (by decide)) (n (by decide))
  have square : (Expr.binary (var "n") .power (var "n") .empty).Fits BinaryOp.power.level :=
    .binary (n (by decide)) (n (by decide))
  have power : (Expr.binary (.binary (var "n") .power (var "n") .empty) .power (number ".5")
      .empty).Fits BinaryOp.power.level :=
    .binary square (fits_number half (by decide))
  exact .binary (Expr.Fits.of_le (.group (rest.of_le (by decide))) (by decide)) power

theorem fits_whole : whole.Fits 0 := by
  have call : (Expr.call (.var ⟨"Abs", .empty⟩ true) [product] .empty).Fits 11 :=
    .callName (free_names _ (by decide))
      (forall_mem_singleton.2 (fits_product.of_le (by decide)))
  have fallback : (Expr.binary (.call (.var ⟨"Abs", .empty⟩ true) [product] .empty) .coalesce
      (var "n") .empty).Fits BinaryOp.coalesce.level :=
    .binary (call.of_le (by decide)) (fits_var (by decide) (by decide))
  exact .ternary (fits_test.of_le (by decide)) (fits_table.of_le (by decide))
    (fallback.of_le (by decide))

end MixedTree

theorem Expr.exists_read_assigned_mixedTree : MixedTree.whole.Fits 0 ∧
      MixedTree.whole.text =
        "not m . top [ \"say \"\"hi\"\"\" ] ( 1.5e+3 , - y$ ) ? " ++
          "\x7b \"a\"\"b\" : new Lib . Box ( ) , \"\" : [ true , invalid ] \x7d : " ++
          "Abs ( ( &hFF - n ) * n ^ n ^ .5 ) ?? n" ∧
      ∃ script name func assign,
        Script.read MixedTree.whole.assigned "source/main.brs" "" = .ok script ∧
          script.decls = [.function name func] ∧ func.body.statements = [.assign assign] ∧
          assign.name.text = "x" ∧ assign.op = none ∧
          assign.value.bare = MixedTree.whole.bare :=
  ⟨MixedTree.fits_whole, by decide +kernel,
    Expr.exists_read_assigned MixedTree.fits_whole "source/main.brs" ""⟩

end ChannelLint
