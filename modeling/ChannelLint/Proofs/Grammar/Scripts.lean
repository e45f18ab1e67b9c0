import ChannelLint.Proofs.Grammar.Declarations
import ChannelLint.Proofs.Spans.Scripts

/-!
# The verdict on a script

Reading a script is exact for the grammar. A script is refused at the first token that cannot
continue a program, at the first character that begins no token, at its end, or for a template; and
it is accepted if and only if its tokens form a program and its templates can be read.
-/
namespace ChannelLint

open List

variable {texts : List String} {k : Token} {α : Type}

open Grammar

/-! ## Tokens -/

namespace Lexer

variable {c : Char} {cs : List Char} {length : Nat}

theorem text_of_literals
    (scanned : anyOf (texts.map literal) (c :: cs) = some length) (proper : "" ∉ texts) :
    String.ofList (c :: cs.take (length - 1)) ∈ texts := by
  obtain ⟨scan, member, found⟩ := exists_of_findSome?_eq_some scanned
  obtain ⟨text, listed, rfl⟩ := mem_map.1 member
  rw [literal] at found
  split at found
  · next begins =>
    obtain ⟨rest, split⟩ := isPrefixOf_iff_prefix.1 begins
    obtain rfl := Option.some.inj found
    have same : c :: cs.take (text.length - 1) = text.toList := by
      rw [← String.length_toList]
      cases chars : text.toList with
      | nil =>
        rw [String.toList_eq_nil_iff.1 chars] at listed
        exact absurd listed proper
      | cons d ds =>
        rw [chars] at split
        obtain ⟨rfl, rfl⟩ := List.cons.inj split
        rw [length_cons, Nat.add_sub_cancel]
        exact congrArg (d :: ·) (take_left' rfl)
    rw [same, String.ofList_toList]
    exact listed
  · cases found

theorem eq_one_of_oneChar {p : Char → Bool} (scanned : oneChar p (c :: cs) = some length) :
    length = 1 ∧ p c = true := by
  rw [oneChar] at scanned
  split at scanned
  · next holds => exact ⟨(Option.some.inj scanned).symm, holds⟩
  · cases scanned

/-- The texts of tokens that stand for several operators. -/
def operatorTexts : List (Terminal × List String) :=
  [(.compOp, ["<>", "<=", ">=", "<", ">"]), (.shiftOp, ["<<", ">>"]), (.addOp, ["+", "-"]),
    (.mulOp, ["*", "/", "\\"])]

theorem text_of_operator {t : Terminal} (listed : (t, texts) ∈ operatorTexts)
    (found : firstMatch (c :: cs) = some (some t, length)) :
    String.ofList (c :: cs.take (length - 1)) ∈ texts := by
  obtain ⟨scan, member, scanned⟩ := exists_scan found
  simp only [operatorTexts, mem_cons, not_mem_nil, or_false, Prod.mk.injEq] at listed
  obtain ⟨rfl, rfl⟩ | ⟨rfl, rfl⟩ | ⟨rfl, rfl⟩ | ⟨rfl, rfl⟩ := listed
  · have scanner : scan = anyOf (["<>", "<=", ">=", "<", ">"].map literal) := by
      simpa [lexemes] using member
    exact text_of_literals (scanner ▸ scanned) (by decide)
  · have scanner : scan = anyOf (["<<", ">>"].map literal) := by
      simpa [lexemes] using member
    exact text_of_literals (scanner ▸ scanned) (by decide)
  · have scanner : scan = oneChar (fun c => c == '+' || c == '-') := by
      simpa [lexemes] using member
    rw [scanner] at scanned
    obtain ⟨rfl, isSign⟩ := eq_one_of_oneChar scanned
    rw [Bool.or_eq_true, beq_iff_eq, beq_iff_eq] at isSign
    obtain rfl | rfl := isSign <;> simp
  · have scanner : scan = oneChar (fun c => c == '*' || c == '/' || c == '\\') := by
      simpa [lexemes] using member
    rw [scanner] at scanned
    obtain ⟨rfl, isSign⟩ := eq_one_of_oneChar scanned
    rw [Bool.or_eq_true, Bool.or_eq_true, beq_iff_eq, beq_iff_eq, beq_iff_eq] at isSign
    obtain (rfl | rfl) | rfl := isSign <;> simp

/-- A token that may stand for an operator does so if it has one of these texts. -/
theorem spelled_of_text
    (spelled : ∀ texts, (k.terminal, texts) ∈ operatorTexts → k.text ∈ texts) : k.Spelled := by
  obtain ⟨terminal, text, range⟩ := k
  intro member
  simp only [binaryTerminals, mem_cons, not_mem_nil, or_false] at member
  obtain rfl | rfl | rfl | rfl | rfl | rfl | rfl | rfl | rfl | rfl := member
  · exact ⟨.coalesce, rfl, rfl⟩
  · exact ⟨.or, rfl, rfl⟩
  · exact ⟨.and, rfl, rfl⟩
  · exact ⟨.equal, rfl, rfl⟩
  · have listed := spelled _ (.head _)
    simp only [mem_cons, not_mem_nil, or_false] at listed
    obtain rfl | rfl | rfl | rfl | rfl := listed <;> exact ⟨_, rfl, rfl⟩
  · have listed := spelled _ (.tail _ (.head _))
    simp only [mem_cons, not_mem_nil, or_false] at listed
    obtain rfl | rfl := listed <;> exact ⟨_, rfl, rfl⟩
  · have listed := spelled _ (.tail _ (.tail _ (.head _)))
    simp only [mem_cons, not_mem_nil, or_false] at listed
    obtain rfl | rfl := listed <;> exact ⟨_, rfl, rfl⟩
  · have listed := spelled _ (.tail _ (.tail _ (.tail _ (.head _))))
    simp only [mem_cons, not_mem_nil, or_false] at listed
    obtain rfl | rfl | rfl := listed <;> exact ⟨_, rfl, rfl⟩
  · exact ⟨.modulo, rfl, rfl⟩
  · exact ⟨.power, rfl, rfl⟩

/-- All tokens of a text that may stand for operators do so. -/
theorem spelled_lexFrom (p : Position) (cs : List Char) :
    ∀ k ∈ (lexFrom p cs).tokens, k.Spelled := by
  fun_induction lexFrom p cs with
  | case1 => exact forall_mem_nil _
  | case2 p c cs failed => exact forall_mem_nil _
  | case3 p c cs length text more found ih => exact ih
  | case4 p c cs length text more t token found ih =>
    refine forall_mem_cons.2 ⟨spelled_of_text fun texts listed => ?_, ih⟩
    have kinds : ∀ entry ∈ operatorTexts,
        .name ≠ entry.1 ∧ ∀ keyword ∈ keywords, keyword.2 ≠ entry.1 := by
      decide
    obtain ⟨noName, noKeyword⟩ := kinds _ listed
    have same : t = classify t text := eq_of_classify noName noKeyword rfl
    refine text_of_operator (t := t) ?_ found
    rw [same]
    exact listed

/-! ## Where a text ends -/

/-- Where no token begins. -/
theorem exists_of_badCharacter {p : Position} {q : Position}
    (ends : (lexFrom p cs).ending = .badCharacter c q) :
    ∃ front back, cs = front ++ c :: back ∧ q = p.after front ∧
      ∀ lexeme ∈ lexemes, lexeme.2 (c :: back) = none := by
  have whole {d : Char} {cs front rest : List Char} (length : Nat)
      (split : cs.drop (length - 1) = front ++ rest) :
      d :: cs = d :: cs.take (length - 1) ++ front ++ rest := by
    rw [append_assoc, ← split]
    exact congrArg (d :: ·) (take_append_drop _ _).symm
  fun_induction lexFrom p cs with
  | case1 => cases ends
  | case2 p d cs failed =>
    cases ends
    refine ⟨[], cs, rfl, rfl, fun lexeme listed => ?_⟩
    exact Option.map_eq_none_iff.1 (findSome?_eq_none_iff.1 failed lexeme listed)
  | case3 p d cs length text more found ih =>
    obtain ⟨front, back, split, place, none⟩ := ih ends
    exact ⟨text ++ front, back, whole length split, by rw [place, Position.after_append], none⟩
  | case4 p d cs length text more t token found ih =>
    obtain ⟨front, back, split, place, none⟩ := ih ends
    exact ⟨text ++ front, back, whole length split, by rw [place, Position.after_append], none⟩

/-- A token is a part of the text, and not an empty one. -/
theorem length_text_lexFrom (p : Position) (cs : List Char) :
    ∀ k ∈ (lexFrom p cs).tokens, 0 < k.text.length ∧ k.text.length ≤ cs.length := by
  fun_induction lexFrom p cs with
  | case1 => exact forall_mem_nil _
  | case2 p c cs failed => exact forall_mem_nil _
  | case3 p c cs length text more found ih =>
    refine fun k member => (ih k member).imp_right fun le => le.trans ?_
    rw [length_drop, length_cons]
    omega
  | case4 p c cs length text more t token found ih =>
    refine forall_mem_cons.2
      ⟨?_, fun k member => (ih k member).imp_right fun le => le.trans ?_⟩
    · have own : token.text.length = (min (length - 1) cs.length) + 1 := by
        rw [← String.length_toList, String.toList_ofList, length_cons, length_take]
      rw [own, length_cons]
      omega
    · rw [length_drop, length_cons]
      omega

end Lexer

/-! ## Whole texts -/

namespace Grammar

/-- What is to be said about the tokens of a text, if its words are to be those of `l` and if `bad`
tells the templates that cannot be read. -/
inductive Verdict {α : Type} (l : Language Terminal) (lexed : Lexer.Lexed) (bad : Token → Bool) :
    Except ScriptFault α → Prop
  | accepted (a : α) (ends : lexed.ending = .endOfText) (word : kinds lexed.tokens ∈ l)
      (clean : ∀ k ∈ lexed.tokens, bad k = false) : Verdict l lexed bad (.ok a)
  | token {before behind : List Token} {k : Token} (split : lexed.tokens = before ++ k :: behind)
      (viable : Viable l (kinds before)) (dead : ¬ Viable l (kinds before ++ [k.terminal])) :
      Verdict l lexed bad (.error (.unexpectedToken k.text k.range.start))
  | character {c : Char} {p : Position} (ends : lexed.ending = .badCharacter c p)
      (viable : Viable l (kinds lexed.tokens)) :
      Verdict l lexed bad (.error (.unexpectedCharacter c p))
  | ended (ends : lexed.ending = .endOfText) (viable : Viable l (kinds lexed.tokens))
      (incomplete : kinds lexed.tokens ∉ l) : Verdict l lexed bad (.error .unexpectedEnd)
  | template (ends : lexed.ending = .endOfText) (word : kinds lexed.tokens ∈ l)
      (found : ∃ k ∈ lexed.tokens, bad k = true) : Verdict l lexed bad (.error .badTemplate)

variable {β : Type} {l : Language Terminal} {lexed : Lexer.Lexed} {bad : Token → Bool}
  {result : Except ScriptFault α}

theorem Verdict.map (verdict : Verdict l lexed bad result) (f : α → β) :
    Verdict l lexed bad (result.map f) := by
  cases verdict with
  | accepted a ends word clean => exact .accepted (f a) ends word clean
  | token split viable dead => exact .token split viable dead
  | character ends viable => exact .character ends viable
  | ended ends viable incomplete => exact .ended ends viable incomplete
  | template ends word found => exact .template ends word found

theorem Verdict.exists_ok_iff (verdict : Verdict l lexed bad result) : (∃ a, result = .ok a) ↔
    lexed.ending = .endOfText ∧ kinds lexed.tokens ∈ l ∧ ∀ k ∈ lexed.tokens, bad k = false := by
  cases verdict with
  | accepted a ends word clean => exact ⟨fun _ => ⟨ends, word, clean⟩, fun _ => ⟨a, rfl⟩⟩
  | @token before behind k split viable dead =>
    refine ⟨nofun, fun ⟨_, word, _⟩ => absurd ⟨kinds behind, ?_⟩ dead⟩
    rwa [append_assoc, singleton_append, ← kinds_cons, ← kinds_append, ← split]
  | character ends viable =>
    refine ⟨nofun, fun ⟨ends', _⟩ => ?_⟩
    rw [ends] at ends'
    cases ends'
  | ended ends viable incomplete => exact ⟨nofun, fun ⟨_, word, _⟩ => absurd word incomplete⟩
  | template ends word found =>
    refine ⟨nofun, fun ⟨_, _, clean⟩ => ?_⟩
    obtain ⟨k, member, marked⟩ := found
    rw [clean k member] at marked
    cases marked

end Grammar

namespace Parser

variable {embedded : Token → Option (List Expr)} {r : Nonterminal} {m : List Terminal}

/-- An exact parser over a whole text. -/
theorem runAll_verdict {parser : Nat → Parser α}
    (exact : ∀ n, Exact embedded n (.rule r) m (parser n)) (p : Position) (cs : List Char) :
    Verdict (Phrase.rule r).words (Lexer.lexFrom p cs) (unreadable embedded)
      (runAll parser p cs) := by
  have spelled := Lexer.spelled_lexFrom p cs
  rw [runAll]
  generalize Lexer.lexFrom p cs = lexed at spelled ⊢
  obtain ⟨tokens, ending⟩ := lexed
  have apart : Apart m 1 := fun t _ w member => cons_ne_nil t w member
  have ready : Cursor.Ready (tokens.length + 2) ⟨tokens, p, false⟩ :=
    ⟨Nat.lt_add_of_pos_right Nat.two_pos, spelled⟩
  cases exact _ _ ready with
  | @done u a c' rest run flag word only =>
    simp only [run]
    obtain ⟨left, reached, marked⟩ := c'
    have viable : Viable (Phrase.rule r).words (kinds u) := ⟨[], (append_nil _).symm ▸ word⟩
    cases left with
    | cons k left =>
      refine .token rest viable ?_
      rintro ⟨v, member⟩
      rw [append_assoc, singleton_append, ← mul_one (Phrase.words _)] at member
      exact cons_ne_nil _ _ (only 1 apart (k.terminal :: v) rfl member)
    | nil =>
      obtain rfl : tokens = u := rest.trans (append_nil u)
      obtain rfl : marked = tokens.any (unreadable embedded) := flag
      cases ending with
      | badCharacter c q => exact .character rfl viable
      | endOfText =>
        show Verdict _ _ _ (if _ then _ else _)
        split
        · next found => exact .template rfl word (any_eq_true.1 found)
        · next clean =>
          rw [Bool.not_eq_true, any_eq_false] at clean
          exact .accepted a rfl word fun k member => Bool.not_eq_true _ ▸ clean k member
  | @stuck u left rest run viable dead =>
    simp only [run]
    cases left with
    | cons k left =>
      refine .token rest viable ?_
      rintro ⟨v, member⟩
      rw [append_assoc, singleton_append, ← mul_one (Phrase.words _)] at member
      exact dead 1 apart (k.terminal :: v) rfl member
    | nil =>
      obtain rfl : tokens = u := rest.trans (append_nil u)
      cases ending with
      | badCharacter c q => exact .character rfl viable
      | endOfText =>
        refine .ended rfl viable fun word => dead 1 apart [] rfl ?_
        rwa [append_nil, mul_one]

theorem embeddedExpr_exact {rules : Rules} {n : Nat} (exact : rules.Exact n) :
    Exact rules.embedded n (.rule .templateExpr) exprMore (embeddedExpr rules) :=
  .rule ((skipMany_exact .newline nofun).bind rfl fun _ => exact.expr)

theorem script_exact (all : ∀ t, t ∈ m) (depth fuel : Nat) :
    Exact (embeddedUpTo depth) fuel (.rule .start) m (script depth fuel) := by
  obtain ⟨same, exact⟩ := rulesUpTo_exact (embeddedUpTo depth) fuel
  have declaration := declarationUpTo_exact exact le_rfl
  rw [same] at declaration
  exact scriptLines_exact declaration all

end Parser

/-! ## Templates -/

/-- The tokens of an expression embedded in a template. -/
def Token.embedded (k : Token) (span : Nat × Nat) : Lexer.Lexed :=
  Lexer.lexFrom (k.range.start.after (k.text.toList.take span.1))
    ((k.text.toList.take span.2).drop span.1)

/-- Every expression embedded in a template is one of the grammar, and so are those that are
embedded in it. -/
inductive Token.Readable : Token → Prop
  | mk {k : Token} (ends : ∀ span ∈ Template.spans k.text, (k.embedded span).ending = .endOfText)
      (words : ∀ span ∈ Template.spans k.text,
        kinds (k.embedded span).tokens ∈ (Phrase.rule .templateExpr).words)
      (inner : ∀ span ∈ Template.spans k.text, ∀ k' ∈ (k.embedded span).tokens,
        k'.terminal = .template → Readable k') : Readable k

/-- What is embedded in a template is shorter than the template. -/
theorem Token.length_text_embedded {k' : Token} {span : Nat × Nat}
    (listed : span ∈ Template.spans k.text) (member : k' ∈ (k.embedded span).tokens) :
    k'.text.length < k.text.length := by
  obtain ⟨some, le⟩ := Lexer.length_text_lexFrom _ _ k' member
  have start := ((Template.scanned_spans k.text).each span listed).1
  rw [length_drop, length_take, String.length_toList] at le
  omega

namespace Parser

theorem isSome_mapM {β : Type} {f : α → Option β} {as : List α} :
    (as.mapM f).isSome = true ↔ ∀ a ∈ as, (f a).isSome = true := by
  induction as with
  | nil => exact ⟨fun _ => nofun, fun _ => rfl⟩
  | cons a as ih =>
    rw [mapM_cons, forall_mem_cons, ← ih]
    cases f a with
    | none => simp
    | some b => cases as.mapM f <;> simp

theorem unreadable_eq_false {embedded : Token → Option (List Expr)} :
    unreadable embedded k = false ↔ (k.terminal = .template → (embedded k).isSome = true) := by
  rw [unreadable, Bool.and_eq_false_imp, beq_iff_eq]
  simp

theorem isSome_toOption {ε : Type} {x : Except ε α} :
    x.toOption.isSome = true ↔ ∃ a, x = .ok a := by
  cases x with
  | error e => exact ⟨nofun, nofun⟩
  | ok a => exact ⟨fun _ => ⟨a, rfl⟩, fun _ => rfl⟩

theorem embedded_verdict (n : Nat) (k : Token) (span : Nat × Nat) :
    Verdict (Phrase.rule .templateExpr).words (k.embedded span) (unreadable (embeddedUpTo n))
      (runAll (fun fuel => embeddedExpr (rulesUpTo (embeddedUpTo n) fuel))
        (k.range.start.after (k.text.toList.take span.1))
        ((k.text.toList.take span.2).drop span.1)) := by
  refine runAll_verdict (m := exprMore) (fun fuel => ?_) _ _
  obtain ⟨same, exact⟩ := rulesUpTo_exact (embeddedUpTo n) fuel
  have whole := embeddedExpr_exact exact
  rwa [same] at whole

/-- With enough fuel for its length, a template is read if and only if it is readable. -/
theorem isSome_embeddedUpTo (n : Nat) :
    ∀ k : Token, k.text.length < n → ((embeddedUpTo n k).isSome = true ↔ k.Readable) := by
  induction n with
  | zero => exact fun k short => absurd short (Nat.not_lt_zero _)
  | succ n ih =>
    intro k short
    have inner {span : Nat × Nat} (listed : span ∈ Template.spans k.text) {k' : Token}
        (member : k' ∈ (k.embedded span).tokens) :
        unreadable (embeddedUpTo n) k' = false ↔ (k'.terminal = .template → k'.Readable) := by
      have shorter := Token.length_text_embedded listed member
      rw [unreadable_eq_false, ih k' (shorter.trans_le (Nat.lt_succ_iff.1 short))]
    rw [embeddedUpTo, isSome_mapM]
    simp only [isSome_toOption]
    constructor
    · intro read
      have each (span : Nat × Nat) (listed : span ∈ Template.spans k.text) :=
        (embedded_verdict n k span).exists_ok_iff.1 (read span listed)
      exact .mk (fun span listed => (each span listed).1)
        (fun span listed => (each span listed).2.1)
        fun span listed k' member => (inner listed member).1 ((each span listed).2.2 k' member)
    · rintro ⟨ends, words, readable⟩ span listed
      exact (embedded_verdict n k span).exists_ok_iff.2 ⟨ends span listed, words span listed,
        fun k' member => (inner listed member).2 (readable span listed k' member)⟩

end Parser

/-! ## Scripts -/

namespace Grammar

/-- The words of whole scripts. -/
def program : Language Terminal :=
  (Phrase.rule .start).words

theorem exists_all_terminals : ∃ m : List Terminal, ∀ t, t ∈ m := by
  refine ⟨(List.range 90).map .ofNat, fun t => mem_map.2
    ⟨t.ctorIdx, ?_, Terminal.ofNat_ctorIdx t⟩⟩
  rw [mem_range]
  cases t <;> decide

end Grammar

/-- The tokens of a script. -/
def Script.lexed (source : String) : Lexer.Lexed :=
  Lexer.lexFrom .zero (unmarkedText source).toList

/-- Reading a script is exact for the grammar. -/
theorem Script.read_verdict (source path pkgPath : String) : Verdict program (Script.lexed source)
      (Parser.unreadable (Parser.embeddedUpTo ((unmarkedText source).toList.length + 1)))
      (Script.read source path pkgPath) := by
  obtain ⟨m, all⟩ := exists_all_terminals
  rw [Script.read_eq]
  exact (Parser.runAll_verdict (fun fuel => Parser.script_exact all _ fuel) _ _).map _

theorem Script.readable_iff {source : String} (member : k ∈ (Script.lexed source).tokens) :
    Parser.unreadable (Parser.embeddedUpTo ((unmarkedText source).toList.length + 1)) k = false ↔
      (k.terminal = .template → k.Readable) := by
  have short := (Lexer.length_text_lexFrom _ _ k member).2
  rw [Parser.unreadable_eq_false, Parser.isSome_embeddedUpTo _ k (Nat.lt_succ_iff.2 short)]

/-- What a fault of a script says about its tokens. A token is refused where it stands: the tokens
before it begin a program, and with it they do not. -/
def ScriptFault.Justified (source : String) : ScriptFault → Prop
  | unexpectedToken text p => ∃ before k behind,
      (Script.lexed source).tokens = before ++ k :: behind ∧ k.text = text ∧ k.range.start = p ∧
        Viable program (kinds before) ∧ ¬ Viable program (kinds before ++ [k.terminal])
  | unexpectedCharacter c p => ∃ front back,
      (unmarkedText source).toList = front ++ c :: back ∧ p = Position.zero.after front ∧
        (Script.lexed source).ending = .badCharacter c p ∧
        Viable program (kinds (Script.lexed source).tokens) ∧
        ∀ lexeme ∈ Lexer.lexemes, lexeme.2 (c :: back) = none
  | unexpectedEnd => (Script.lexed source).ending = .endOfText ∧
      Viable program (kinds (Script.lexed source).tokens) ∧
        kinds (Script.lexed source).tokens ∉ program
  | badTemplate => (Script.lexed source).ending = .endOfText ∧
      kinds (Script.lexed source).tokens ∈ program ∧
        ∃ k ∈ (Script.lexed source).tokens, k.terminal = .template ∧ ¬ k.Readable

theorem Script.justified_of_read {source path pkgPath : String} {fault : ScriptFault}
    (read : Script.read source path pkgPath = .error fault) : fault.Justified source := by
  have verdict := Script.read_verdict source path pkgPath
  rw [read] at verdict
  cases verdict with
  | token split viable dead => exact ⟨_, _, _, split, rfl, rfl, viable, dead⟩
  | character ends viable =>
    obtain ⟨front, back, split, place, none⟩ := Lexer.exists_of_badCharacter ends
    exact ⟨front, back, split, place, ends, viable, none⟩
  | ended ends viable incomplete => exact ⟨ends, viable, incomplete⟩
  | template ends word found =>
    obtain ⟨k, member, marked⟩ := found
    refine ⟨ends, word, k, member, ?_⟩
    have unreadable := (Script.readable_iff member).not.1 (by rw [marked]; nofun)
    exact Classical.not_imp.1 unreadable

/-- A script that cannot be read is refused at the first point where it cannot be continued to a
program, or for a template; a script is read if its tokens form a program and its templates can be
read, and not otherwise. -/
theorem Script.read_follows_grammar (source path pkgPath : String) :
    (∀ fault, Script.read source path pkgPath = .error fault → fault.Justified source) ∧
      ((∃ s, Script.read source path pkgPath = .ok s) ↔
        (Script.lexed source).ending = .endOfText ∧
        kinds (Script.lexed source).tokens ∈ program ∧
        ∀ k ∈ (Script.lexed source).tokens, k.terminal = .template → k.Readable) := by
  refine ⟨fun fault => Script.justified_of_read, ?_⟩
  rw [(Script.read_verdict source path pkgPath).exists_ok_iff]
  exact and_congr_right fun _ => and_congr_right fun _ =>
    forall₂_congr fun k member => Script.readable_iff member

theorem eq_error_of_map {ε β : Type} {x : Except ε α} {f : α → β} {e : ε}
    (refused : x.map f = .error e) : x = .error e := by
  cases x with
  | error e' => exact congrArg _ (Except.error.inj refused)
  | ok a => cases refused

/-- A value is stored to a call. -/
def storedToCall : String :=
  "sub main()\n  a[0].b(c) = 1\nend sub\n"

/-- The call is complete, so that the sign behind it cannot be the one of an assignment. -/
theorem Script.read_follows_grammar_storedToCall :
    Script.read storedToCall "a.brs" "" = .error (.unexpectedToken "=" ⟨1, 12⟩) ∧
      (ScriptFault.unexpectedToken "=" ⟨1, 12⟩).Justified storedToCall := by
  have refused : (Script.read storedToCall "a.brs" "").map (fun _ => ()) =
      .error (.unexpectedToken "=" ⟨1, 12⟩) := by
    decide +kernel
  have read := eq_error_of_map refused
  exact ⟨read, (Script.read_follows_grammar storedToCall "a.brs" "").1 _ read⟩

/-- A template with nothing between the braces. -/
def emptyBraces : String :=
  "sub main()\nx = \x60$\x7b\x7d\x60\nend sub\n"

/-- The tokens form a program, and yet the script is refused. -/
theorem Script.refused_though_program_emptyBraces : (Script.lexed emptyBraces).ending = .endOfText ∧
      kinds (Script.lexed emptyBraces).tokens ∈ program ∧
      ¬ ∃ s, Script.read emptyBraces "a.brs" "" = .ok s := by
  have refused : (Script.read emptyBraces "a.brs" "").map (fun _ => ()) = .error .badTemplate := by
    decide +kernel
  have read := eq_error_of_map refused
  obtain ⟨ends, word, -⟩ := Script.justified_of_read read
  refine ⟨ends, word, fun ⟨s, accepted⟩ => ?_⟩
  rw [read] at accepted
  cases accepted

end ChannelLint
