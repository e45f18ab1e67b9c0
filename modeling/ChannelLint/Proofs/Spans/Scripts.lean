import ChannelLint.Proofs.OrderedMap
import ChannelLint.Proofs.Spans.Statements

/-!
# Where the parts of a script stand

The tokens of a text stand in it, and so do those of an expression embedded in a template, within
the template. With the rules for declarations this makes every part of a script that was read sound,
whatever namespace it is in: a name or a literal is the text at its range, ranges are nested like
the parts they belong to, and the statements of a block follow each other.
-/
namespace ChannelLint

open List Position

variable {cs : List Char} {t : String}

/-! ## Tokens in a text -/

namespace Lexer

/-- A string ends behind a quote, or where it could have ended before. -/
theorem quote_of_stringEnd (taken : Nat) (closed : Option Nat) (cs : List Char) {n : Nat}
    (ends : stringEnd taken closed cs = some n) :
    closed = some n ∨ ∃ k, n = taken + k + 1 ∧ cs[k]? = some '"' := by
  induction taken, closed, cs using stringEnd.induct with
  | case1 taken closed cs ih =>
    obtain before | ⟨k, length, quote⟩ := ih ends
    · exact .inr ⟨0, (Option.some.inj before).symm, rfl⟩
    · exact .inr ⟨k + 2, by omega, quote⟩
  | case2 taken closed cs single =>
    rw [stringEnd] at ends
    · exact .inr ⟨0, (Option.some.inj ends).symm, rfl⟩
    · exact single
  | case3 => exact .inl ends
  | case4 taken closed c cs notDouble notQuote lineEnd =>
    rw [stringEnd_cons notQuote, if_pos lineEnd] at ends
    exact .inl ends
  | case5 taken closed c cs notDouble notQuote inside ih =>
    rw [stringEnd_cons notQuote, if_neg inside] at ends
    obtain before | ⟨k, length, quote⟩ := ih ends
    · exact .inl before
    · exact .inr ⟨k + 1, by omega, quote⟩

/-- A token that is neither a name nor a keyword has the kind of its lexeme. -/
theorem eq_of_classify {t kind : Terminal} {text : List Char} (noName : .name ≠ kind)
    (noKeyword : ∀ keyword ∈ keywords, keyword.2 ≠ kind) (same : classify t text = kind) :
    t = kind := by
  unfold classify at same
  split at same
  · generalize String.ofList (List.map Text.foldLetter text) = word at same
    cases found : keywords.lookup word with
    | none =>
      rw [found] at same
      exact absurd same noName
    | some keyword =>
      rw [found] at same
      exact absurd same (noKeyword _ (OrderedMap.mem_of_lookup found))
  · exact same

/-- A string token ends with a quote. -/
theorem endsQuoted_of_string {c : Char} {t : Terminal} {length : Nat}
    (found : firstMatch (c :: cs) = some (some t, length))
    (isString : classify t (c :: cs.take (length - 1)) = .string) :
    EndsQuoted (String.ofList (c :: cs.take (length - 1))) := by
  have terminal : t = .string := eq_of_classify (by decide) (by decide) isString
  subst terminal
  have scanned : string (c :: cs) = some length := scan_of_firstMatch (by simp [lexemes]) found
  by_cases opened : c = '"'
  · subst opened
    obtain before | ⟨k, rfl, quote⟩ := quote_of_stringEnd 1 none cs scanned
    · cases before
    · have last : 1 + k + 1 - 1 = k + 1 := by omega
      rw [EndsQuoted, String.toList_ofList, last,
        getLast?_cons, getLast?_take, if_neg k.succ_ne_zero, Nat.add_sub_cancel, quote]
      rfl
  · simp [string, opened] at scanned

/-- A label token is a name with a colon behind it. -/
theorem exists_name_of_label {c : Char} {t : Terminal} {length : Nat}
    (found : firstMatch (c :: cs) = some (some t, length))
    (isLabel : classify t (c :: cs.take (length - 1)) = .label) :
    ∃ name, c :: cs.take (length - 1) = name ++ [':'] ∧ IsSegment (String.ofList name) := by
  have terminal : t = .label := eq_of_classify (by decide) (by decide) isLabel
  subst terminal
  have scanned : label (c :: cs) = some length := scan_of_firstMatch (by simp [lexemes]) found
  rw [label] at scanned
  have split : cs.takeWhile isNameChar ++ cs.dropWhile isNameChar = cs :=
    takeWhile_append_dropWhile
  have letters : ∀ d ∈ cs.takeWhile isNameChar, Text.isNameLetter d := fun d member => by
    simp [Text.isNameLetter, all_eq_true.1 all_takeWhile d member]
  generalize cs.takeWhile isNameChar = word at *
  generalize cs.dropWhile isNameChar = rest at *
  subst split
  rw [drop_left] at scanned
  split at scanned
  · next _ starts =>
    split at scanned
    · obtain rfl := Option.some.inj scanned
      refine ⟨c :: word, ?_, ?_, ?_⟩
      · rw [show word.length + 2 - 1 = word.length + 1 from rfl, take_length_add_append]
        rfl
      · rw [Text.isName, String.toList_ofList, all_cons, all_eq_true.2 letters, Bool.and_true]
        simp [Text.isNameLetter, isNameChar, starts]
      · exact fun empty => cons_ne_nil _ _ (String.ofList_eq_empty_iff.1 empty)
    · cases scanned
  · cases scanned

theorem stands_lexFrom_at (t : String) (behind : List Char) (p : Position) (cs : List Char) :
    ∀ before, t.toList = before ++ cs ++ behind → p = Position.zero.after before →
      Cursor.Stands t (Position.zero.after (before ++ cs)) ⟨(lexFrom p cs).tokens, p, false⟩ := by
  fun_induction lexFrom p cs with
  | case1 p =>
    rintro before - rfl
    exact ⟨forall_mem_nil _, .nil, forall_mem_nil _, after_le_after_append ..⟩
  | case2 p c cs failed =>
    rintro before - rfl
    exact ⟨forall_mem_nil _, .nil, forall_mem_nil _, after_le_after_append ..⟩
  | case3 p c cs length text more found ih =>
    rintro before split rfl
    have whole : before ++ c :: cs = before ++ text ++ cs.drop (length - 1) := by
      rw [append_assoc, cons_append, take_append_drop]
    rw [whole] at split ⊢
    have rest := ih _ split (after_append ..).symm
    refine ⟨rest.tokens, rest.ordered, fun k member => ?_, (le_after _ _).trans rest.bounded⟩
    exact (le_after _ _).trans (rest.behind k member)
  | case4 p c cs length text more kind token found ih =>
    rintro before split rfl
    have whole : before ++ c :: cs = before ++ text ++ cs.drop (length - 1) := by
      rw [append_assoc, cons_append, take_append_drop]
    rw [whole] at split ⊢
    have rest := ih _ split (after_append ..).symm
    have own : token.Stands t := by
      have nonempty : String.ofList text ≠ "" :=
        fun empty => cons_ne_nil _ _ (String.ofList_eq_empty_iff.1 empty)
      refine ⟨⟨before, cs.drop (length - 1) ++ behind, ?_, ?_⟩, nonempty, fun isLabel => ?_,
        endsQuoted_of_string found, fun isName => ⟨?_, nonempty⟩⟩
      · rw [String.toList_ofList, split, append_assoc]
      · rw [String.toList_ofList, after_append]
      · rw [String.toList_ofList]
        exact exists_name_of_label found isLabel
      · rw [Text.isName, String.toList_ofList]
        exact letters_of_name found isName
    refine ⟨forall_mem_cons.2 ⟨⟨own, rest.bounded⟩, rest.tokens⟩,
      pairwise_cons.2 ⟨rest.behind, rest.ordered⟩,
      forall_mem_cons.2 ⟨le_refl _, fun k member => ?_⟩,
      (le_after _ _).trans rest.bounded⟩
    exact (le_after _ _).trans (rest.behind k member)

/-- The tokens of a part of a text stand in the text. -/
theorem stands_lexFrom {before behind : List Char} (split : t.toList = before ++ cs ++ behind) :
    Cursor.Stands t (Position.zero.after (before ++ cs))
      ⟨(lexFrom (Position.zero.after before) cs).tokens, Position.zero.after before, false⟩ :=
  stands_lexFrom_at t behind _ cs before split rfl

end Lexer

namespace Parser

variable {hi : Position} {c c' : Cursor} {m : Bool} {ps : List Part}

/-! ## Declarations -/

/-- A declaration that consists of what was read. -/
theorem decl_spans {d : Decl} (reads : c.Reads t hi true d.parts c')
    (range : d.range = ⟨c.start, c'.reached⟩) (named : d.NamedHere)
    (line : (Part.decl d).line = d.parts) : (Part.decl d).Spans t hi c c' :=
  reads.spans range (.of_row range (reads.forward rfl) reads.held reads.row nofun named line)

/-- The declaration of a function, which holds its own name. -/
theorem declared_spans {p : Part} {name : Ident} {func : Func}
    (spans : (Expr.function func).Spans t hi c c') (named : func.name = some name)
    (range : p.range = func.range) (parts : p.parts = [.ident name, .expr (.function func)])
    (line : p.line = [.expr (.function func)]) (silent : p.text? = none) (lexed : p.Lexed t) :
    p.Spans t hi c c' := by
  have range' := range.trans spans.range
  have own : .ident name ∈ (Part.expr (.function func)).parts := by
    simp [Part.parts, Expr.parts, Func.parts, named]
  have inside := spans.asRead.here.inside _ own
  rw [spans.range] at inside
  refine spans.reads.spans range' (.of_between range' (spans.reads.forward rfl) ?_ ?_ lexed ?_)
  · rw [parts]
    exact forall_mem_cons.2 ⟨⟨spans.asRead.parts _ own, inside⟩, spans.reads.held⟩
  · simp [silent]
  · rw [line]
    exact pairwise_singleton _ _

/-- A name that was read is a segment. -/
theorem isSegment_of_reads {k : Token} (reads : c.Reads t hi m ps c')
    (member : .ident (ident k) ∈ ps) : IsSegment k.text :=
  have stands : StandsIn t (ident k) := (reads.asRead member).here.lexed
  ⟨stands.isName, stands.text_ne_empty⟩

/-- A declaration that opens no namespace and declares at most the name of a token. -/
theorem namedHere_of_token {d : Decl} {k : Token} (isSegment : IsSegment k.text)
    (declared : d.declaredName? = some k.text) (closed : d.opened? = none) : d.NamedHere := by
  refine ⟨fun name isDeclared => ?_, by simp [closed]⟩
  rw [declared] at isDeclared
  exact Option.some.inj isDeclared ▸ isSegment

abbrev ReadsDecl (t : String) (hi : Position) : Parser Decl → Prop :=
  ReadsPart t hi .decl

section

variable {rules : Rules} (placed : rules.Placed t hi)

include placed

theorem functionDeclaration_spans : ReadsDecl t hi (functionDeclaration rules) := by
  intro c stands
  refine (take_spans stands).bind fun keyword c₁ opens => ?_
  refine (expect_spans .name opens.reads.stands).bind fun name c₂ ⟨taken, isName⟩ => ?_
  have named := (taken.named (.inl isName)).reads
  have tail := functionTail_spans placed keyword (some (ident name)) false opens.reads
    opens.start.ge (opens.start ▸ opens.reads.forward rfl) c₂ named
  rw [← opens.start] at tail
  exact tail.bind fun f c₃ ⟨spans, isNamed⟩ => .pure (declared_spans spans isNamed rfl rfl rfl rfl
    (namedHere_of_token (isSegment_of_reads named mem_cons_self) rfl rfl))

omit placed in
theorem methodName_spans (stands : c.Stands t hi) :
    SpansAt (fun i c' => (Part.ident i).Spans t hi c c') methodName c := by
  have name (isName : c.next? = some .name ∨ c.next? = some .kwNew) :
      SpansAt (fun i c' => (Part.ident i).Spans t hi c c') (do return ident (← take)) c :=
    (take_spans stands).bind fun _ _ taken => .pure (taken.named
      (by simpa [taken.isNext] using isName))
  refine .look ?_
  split
  · next isName => exact name (.inl isName)
  · next isName => exact name (.inr isName)
  · exact .refuse

theorem classMember_keeps : Keeps t hi true (fun m => [.member m]) (classMember rules) := by
  refine fun c stands => .here ((skipMany_keeps c stands).bind fun _ c₁ front => .look ?_)
  split
  · refine (take_spans front.stands).bind fun keyword c₂ opens => ?_
    refine (methodName_spans opens.reads.stands).bind fun name c₃ named => ?_
    refine (functionTail_spans placed keyword (some name) true (front.trans opens.reads)
      (opens.start ▸ front.start) (opens.start ▸ opens.reads.forward rfl) c₃ named.reads).bind
      fun f c₄ ⟨spans, isNamed⟩ => .pure ?_
    have method : (Part.member (.method name f)).Spans t hi c c₄ :=
      declared_spans spans isNamed rfl rfl rfl rfl trivial
    exact method.reads
  · refine (?_ : SpansFrom t hi c false [] _ _) c₁ front
    refine name_keeps.next fun name => typeClause?_keeps.skip fun type =>
      (valueClause?_keeps placed).next fun value => .since fun c₂ reads => .pure ?_
    have field : (Part.member (.field (ident name) type value ⟨c.start, c₂.reached⟩)).Spans
        t hi c c₂ := reads.node rfl rfl
    exact field.reads

omit placed in
theorem parentClause?_keeps : Keeps t hi false (fun _ => []) parentClause? :=
  .of_spans fun _ => .accept? .kwExtends (.kept rfl)
    fun _ => dottedNames_keeps.skip fun _ => .loosened rfl

theorem classDeclaration_spans : ReadsDecl t hi (classDeclaration rules) :=
  fun _ stands => .here (.start stands (take_keeps.skip fun _ => name_keeps.next fun _ =>
    parentClause?_keeps.skip fun _ => separator_keeps.skip fun _ =>
      (linesOf_keeps startsMember (classMember_keeps placed)).map.next fun _ =>
        expect_keeps.skip fun _ => .since fun _ reads => .pure (decl_spans reads rfl
          (namedHere_of_token (isSegment_of_reads reads mem_cons_self) rfl rfl) rfl)))

theorem constDeclaration_spans : ReadsDecl t hi (constDeclaration rules) :=
  fun _ stands => .here (.start stands (take_keeps.skip fun _ => name_keeps.next fun _ =>
    expect_keeps.skip fun _ => placed.expr.keeps.next fun _ => .since fun _ reads =>
      .pure (decl_spans reads rfl
        (namedHere_of_token (isSegment_of_reads reads mem_cons_self) rfl rfl) rfl)))

theorem enumDeclaration_spans : ReadsDecl t hi (enumDeclaration rules) := by
  have member : Keeps t hi true (fun i => [.ident i]) (enumMember rules) :=
    .of_spans fun _ => name_keeps.next fun _ => (valueClause?_keeps placed).skip
      fun _ => .kept rfl
  exact fun _ stands => .here (.start stands (take_keeps.skip fun _ => name_keeps.next fun _ =>
    separator_keeps.skip fun _ => (linesOf_keeps _ member).map.next fun _ =>
      expect_keeps.skip fun _ => .since fun _ reads => .pure (decl_spans reads rfl
        (namedHere_of_token (isSegment_of_reads reads mem_cons_self) rfl rfl) rfl)))

omit placed in
theorem pathDeclaration_spans {build : String → Range → Decl}
    (range : ∀ path r, (build path r).range = r) (parts : ∀ path r, (build path r).parts = [])
    (named : ∀ path r, (build path r).NamedHere)
    (line : ∀ path r, (Part.decl (build path r)).line = (build path r).parts) :
    ReadsDecl t hi (pathDeclaration build) :=
  fun _ stands => .here (.start stands (take_keeps.skip fun _ => expect_keeps.skip fun _ =>
    .since fun _ reads => .pure (decl_spans ((parts _ _).symm ▸ reads) (range _ _) (named _ _)
      (line _ _))))

omit placed in
theorem namespaceDeclaration_spans {inner : Parser Decl} (reads : ReadsDecl t hi inner) :
    ReadsDecl t hi (namespaceDeclaration inner) := by
  refine fun c stands => .here (.start stands (take_keeps.skip fun _ c₁ opens => ?_))
  refine (dottedNames_spans opens.stands).bind fun names c₂ ⟨nonempty, inNames⟩ => ?_
  have segments : ∀ s ∈ names.map (·.text), IsSegment s := forall_mem_map.2 fun k member =>
    isSegment_of_reads inNames (mem_flatMap.2 ⟨k, member, mem_cons_self⟩)
  have parts : dottedParts (dottedText names) = names.map (·.text) :=
    dottedParts_dotted (fun s member => (segments s member).dotless) (by simpa using nonempty)
  refine (?_ : SpansFrom t hi c true [] _ _) c₂ (opens.skip inNames)
  exact separator_keeps.skip fun _ => (linesOf_keeps startsDeclaration reads.keeps).map.next
    fun body => expect_keeps.skip fun _ => .since fun _ held => .pure (decl_spans held rfl
      ⟨nofun, by simpa [Decl.opened?, parts] using segments⟩ rfl)

theorem declarationUpTo_spans (n : Nat) : ReadsDecl t hi (declarationUpTo rules n) := by
  induction n with
  | zero => exact fun _ _ => .refuse
  | succ n ih =>
    intro c stands
    refine .look ?_
    split
    · exact functionDeclaration_spans placed c stands
    · exact functionDeclaration_spans placed c stands
    · exact classDeclaration_spans placed c stands
    · exact namespaceDeclaration_spans ih c stands
    · exact constDeclaration_spans placed c stands
    · exact enumDeclaration_spans placed c stands
    · exact pathDeclaration_spans (fun _ _ => rfl) (fun _ _ => rfl) (fun _ _ => .of_none rfl rfl)
        (fun _ _ => rfl) c stands
    · exact pathDeclaration_spans (fun _ _ => rfl) (fun _ _ => rfl) (fun _ _ => .of_none rfl rfl)
        (fun _ _ => rfl) c stands
    · exact .refuse

omit placed in
theorem scriptLines_keeps {declaration : Parser Decl} (reads : ReadsDecl t hi declaration) :
    Keeps t hi false (List.map .decl) (scriptLines declaration) := by
  have line : Keeps t hi false (parts? (parts? fun d => [.decl d])) (topLine? declaration) := by
    refine .of_spans fun _ => .look fun kind => ?_
    split
    · exact .kept rfl
    · split
      · exact separator_keeps.skip fun _ => .loosened rfl
      · refine reads.keeps.next fun d => .look fun kind => ?_
        split
        · exact separator_keeps.skip fun _ => .loosened rfl
        · exact .loosened rfl
  exact .of_spans fun _ => (collect_keeps line).next fun lines => .pure fun _ reads => by
    rwa [map_eq_flatMap, flatMap_filterMap_id]

end

/-! ## Whole texts -/

/-- What was read from a whole text was read from its tokens. -/
theorem runAll_spans {α : Type} {P : α → Cursor → Prop} {parser : Nat → Parser α} {p : Position} {a : α}
    (spans : ∀ n, SpansAt P (parser n) ⟨(Lexer.lexFrom p cs).tokens, p, false⟩)
    (run : runAll parser p cs = .ok a) : ∃ c', P a c' := by
  unfold runAll at run
  simp only at run
  split at run
  · cases run
  · next b c' result =>
    split at run
    · cases run
    · split at run
      · cases run
      · cases run
        exact ⟨c', spans _ _ _ result⟩

end Parser

namespace Parser

/-- What is read from the spans of a template stands in a row. -/
theorem row_of_mapM {place : Nat → Position} (mono : ∀ i j, i ≤ j → place i ≤ place j)
    {read : Nat × Nat → Option Expr} {spans : List (Nat × Nat)} {es : List Expr}
    (run : spans.mapM read = some es) (ordered : spans.Pairwise fun a b => a.2 ≤ b.1)
    (each : ∀ a ∈ spans, ∀ e, read a = some e →
      (Part.expr e).Between t (place a.1) (place a.2)) :
    (∀ e ∈ es, ∃ a ∈ spans, (Part.expr e).Between t (place a.1) (place a.2)) ∧
      (es.map .expr).Pairwise Part.Before := by
  induction spans generalizing es with
  | nil =>
    cases run
    exact ⟨nofun, .nil⟩
  | cons a spans ih =>
    rw [mapM_cons] at run
    obtain ⟨e, first, run⟩ := Option.bind_eq_some_iff.1 run
    obtain ⟨rest, others, run⟩ := Option.bind_eq_some_iff.1 run
    cases run
    obtain ⟨before, ordered⟩ := pairwise_cons.1 ordered
    obtain ⟨own, each⟩ := forall_mem_cons.1 each
    obtain ⟨found, row⟩ := ih others ordered each
    refine ⟨forall_mem_cons.2 ⟨⟨a, mem_cons_self, own e first⟩, fun e' member => ?_⟩,
      pairwise_cons.2 ⟨forall_mem_map.2 fun e' member => .inr (.inr ?_), row⟩⟩
    · obtain ⟨a', member', between⟩ := found e' member
      exact ⟨a', mem_cons_of_mem _ member', between⟩
    · obtain ⟨a', member', between⟩ := found e' member
      exact ((own e first).placed.resolve_left id).stop.trans
        ((mono _ _ (before a' member')).trans (between.placed.resolve_left id).start)

/-- What is embedded in a template stands in a row between its ends. -/
theorem embeddedUpTo_row (t : String) (n : Nat) :
    ∀ k parts, k.Stands t → embeddedUpTo n k = some parts →
      (∀ e ∈ parts, (Part.expr e).Between t k.range.start k.range.stop) ∧
        (parts.map .expr).Pairwise Part.Before := by
  induction n with
  | zero => exact fun _ _ _ => nofun
  | succ n ih =>
    intro k parts stands found
    obtain ⟨before, behind, split, range⟩ := stands.place
    have scanned := Template.scanned_spans k.text
    have ordered := scanned.ordered.imp Nat.le_of_lt
    have place : ∀ i, k.range.start.after (k.text.toList.take i) =
        Position.zero.after (before ++ k.text.toList.take i) := fun i => by
      rw [range]
      exact (after_append ..).symm
    have mono (i j : Nat) (le : i ≤ j) := k.range.start.after_take_le k.text.toList le
    obtain ⟨each, row⟩ := row_of_mapM mono found ordered fun (start, stop) member e read => by
      dsimp only at read ⊢
      have le : start ≤ stop := (scanned.each _ member).2.forward
      rw [place] at read
      rw [place, place]
      -- The text of the template up to the expression, the expression, and the rest.
      have front := take_eq_append_of_le k.text.toList le
      have split' : t.toList = before ++ k.text.toList.take start ++
          (k.text.toList.take stop).drop start ++ (k.text.toList.drop stop ++ behind) := by
        rw [append_assoc before, ← front, ← append_assoc, append_assoc before,
          take_append_drop, split]
      have stands' := Lexer.stands_lexFrom split'
      rw [append_assoc, ← front] at stands'
      have keeps (fuel : Nat) : Keeps t (Position.zero.after (before ++ k.text.toList.take stop)) true
          (fun e => [.expr e]) (embeddedExpr (rulesUpTo (embeddedUpTo n) fuel)) :=
        fun c stands => (skipMany_keeps c stands).bind fun _ c₁ front =>
          ((rulesUpTo_placed ih fuel).expr c₁ front.stands).mono fun _ _ spans =>
            front.trans spans.reads
      obtain ⟨c', reads⟩ := runAll_spans (fun fuel => keeps fuel _ stands') (ok_of_toOption read)
      exact (reads.held _ mem_cons_self).mono stands'.reached_le_start reads.stands.bounded
    refine ⟨fun e member => ?_, row⟩
    obtain ⟨⟨start, stop⟩, -, between⟩ := each e member
    refine between.mono (le_after _ _) ?_
    have upTo := k.range.start.after_le_after_append (k.text.toList.take stop) (k.text.toList.drop stop)
    have stop : k.range.stop = k.range.start.after k.text.toList := by
      rw [range]
      exact after_append ..
    rwa [take_append_drop, ← stop] at upTo

end Parser

/-- The declarations that a text holds are as they are read, one behind the other. -/
theorem row_of_parsed {ds : List Decl} (parsed : parseDeclarations t.toList = .ok ds) :
    (∀ d ∈ ds, (Part.decl d).All (Part.AsRead t)) ∧ (ds.map .decl).Pairwise Part.Before := by
  have split : t.toList = [] ++ t.toList ++ [] := (append_nil _).symm
  have stands := Lexer.stands_lexFrom split
  obtain ⟨c', reads⟩ := Parser.runAll_spans (fun fuel => Parser.scriptLines_keeps
    (Parser.declarationUpTo_spans
      (Parser.rulesUpTo_placed (Parser.embeddedUpTo_row t _) fuel) fuel) _ stands) parsed
  exact ⟨fun d member => reads.asRead (mem_map_of_mem member), reads.row⟩

theorem asRead_of_parsed {ds : List Decl} (parsed : parseDeclarations t.toList = .ok ds) :
    ∀ d ∈ ds, (Part.decl d).All (Part.AsRead t) :=
  (row_of_parsed parsed).1

/-! ## Placed declarations -/

theorem Decl.placeAll_eq_map (outer : Option String) (ds : List Decl) :
    Decl.placeAll outer ds = ds.map (Decl.place outer) := by
  induction ds with
  | nil => rfl
  | cons d ds ih => rw [Decl.placeAll, ih, map_cons]

namespace Part

variable {p q : Part}

/-- A part in the namespace `outer`. -/
def place (outer : Option String) : Part → Part
  | expr (.function func) => expr (.function { func with nspace := outer })
  | member m => member (m.place outer)
  | decl d => decl (d.place outer)
  | p => p

/-- The same place in the text. -/
def SamePlace (p q : Part) : Prop :=
  q.range = p.range ∧ (p.IsBare → q.IsBare)

theorem samePlace_place (outer : Option String) (p : Part) : p.SamePlace (p.place outer) := by
  cases p with
  | expr e => cases e <;> exact ⟨rfl, id⟩
  | member m => cases m <;> exact ⟨rfl, id⟩
  | decl d => cases d <;> exact ⟨rfl, id⟩
  | _ => exact ⟨rfl, id⟩

/-- A part is sound if the parts inside it are, and stand where those of a sound part stand. -/
theorem Fits.sound_of_map {g : Part → Part} (fits : p.Fits t) (range : q.range = p.range)
    (parts : q.parts = p.parts.map g) (same : ∀ r : Part, r.SamePlace (g r))
    (each : ∀ r ∈ p.parts, (g r).Sound t) (silent : q.text? = none) (noBlock : ∀ b, q ≠ .block b) :
    q.Sound t := by
  refine .intro ⟨range ▸ fits.forward, ?_, fun b isBlock => absurd isBlock (noBlock b), ?_⟩ ?_
  · rw [range, parts]
    refine forall_mem_map.2 fun r member => ?_
    rw [(same r).1]
    exact (fits.inside r member).imp_left (same r).2
  · rw [silent]
    exact nofun
  · rw [parts]
    exact forall_mem_map.2 each

/-- Where a part stands does not depend on its namespace. -/
theorem All.sound_place (all : p.All (AsRead t)) (outer : Option String) :
    (p.place outer).Sound t := by
  induction all generalizing outer with
  | @intro p here each ih =>
    have whole : p.Sound t := All.sound (.intro here each)
    -- The parts inside are either those of `p` or placed in a namespace themselves.
    have same {q : Part} (range : q.range = p.range) (parts : q.parts = p.parts) :=
      here.toFits.sound_of_map range (parts.trans (map_id _).symm) (fun _ => ⟨rfl, id⟩)
        (All.parts whole)
    have moved {q : Part} (outer : Option String) (range : q.range = p.range)
        (parts : q.parts = p.parts.map (place outer)) :=
      here.toFits.sound_of_map range parts (samePlace_place outer) fun r member => ih r member outer
    cases p with
    | expr e =>
      cases e with
      | function func => exact same rfl rfl rfl (by rintro _ ⟨⟩)
      | _ => exact whole
    | member m =>
      cases m with
      | method name func => exact moved outer rfl rfl rfl (by rintro _ ⟨⟩)
      | field => exact whole
    | decl d =>
      cases d with
      | function name func => exact moved outer rfl rfl rfl (by rintro _ ⟨⟩)
      | «class» decl =>
        refine moved outer rfl ?_ rfl (by rintro _ ⟨⟩)
        simp [place, Part.parts, Decl.place, Decl.parts]
      | nspace name body range =>
        refine moved (some (Text.lower (qualifiedName outer name))) rfl ?_ rfl (by rintro _ ⟨⟩)
        simp [place, Part.parts, Decl.place, Decl.parts, Decl.placeAll_eq_map]
      | const | enum => exact same rfl rfl rfl (by rintro _ ⟨⟩)
      | importFile | library => exact whole
    | _ => exact whole

end Part

/-- Every declaration of a script is sound. -/
theorem Script.sound_of_mem_decls {source path pkgPath : String} {s : Script}
    (read : Script.read source path pkgPath = .ok s) :
    ∀ d ∈ s.decls, (Part.decl d).Sound (unmarkedText source) := by
  obtain ⟨ds, parsed, rfl⟩ := Script.exists_parsed read
  show ∀ d ∈ Decl.placeAll none ds, _
  rw [Decl.placeAll_eq_map]
  exact forall_mem_map.2 fun d member => (asRead_of_parsed parsed d member).sound_place none

/-! ## The parts of a script -/

/-- A name, a string, a number or a template is the text at its range, wherever it stands in the
script: within an expression that is embedded in a template, too. -/
theorem Script.textAt_range_of_hasPart {source path pkgPath : String} {s : Script}
    (read : Script.read source path pkgPath = .ok s) {p : Part} (has : s.HasPart p) {text : String}
    (written : text ∈ p.text?) : textAt (unmarkedText source) p.range = text :=
  (Part.Sound.of_hasPart (Script.sound_of_mem_decls read) has).fits.text text written

/-- A mark, a label, a compound assignment, and a template over two lines. -/
def templated : String :=
  "\ufeffsub main()\nagain:\n  a[1] += 2\n  s = \x60x\n$\x7bnew Node(a.b)\x7d\x60\nend sub\n"

/-- The field in the template stands in the second line of the template. -/
theorem Script.textAt_range_templated :
    ∃ s i, Script.read templated "a.brs" "" = .ok s ∧ s.HasPart (.ident i) ∧
      i = ⟨"b", ⟨⟨4, 13⟩, ⟨4, 14⟩⟩⟩ ∧ textAt (unmarkedText templated) i.range = "b" := by
  have found : (Script.read templated "a.brs" "").toOption.map
      (fun s => (s.partAt? 0 [1, 2, 2, 1, 0, 0, 1, 1]).bind fun
        | .ident i => some i
        | _ => none) = some (some ⟨"b", ⟨⟨4, 13⟩, ⟨4, 14⟩⟩⟩) := by
    decide +kernel
  obtain ⟨s, read, named⟩ := exists_ok_of_map_toOption found
  obtain ⟨p, reached, isIdent⟩ := Option.bind_eq_some_iff.1 named
  have has := Script.hasPart_of_partAt? reached
  split at isIdent
  · next i =>
    cases isIdent
    exact ⟨s, _, read, has, rfl, Script.textAt_range_of_hasPart read has rfl⟩
  · cases isIdent

/-- Ranges run forward and are nested like the parts they belong to, and the statements of a block
stand one behind the other. -/
theorem Script.ranges_nested_of_hasPart {source path pkgPath : String} {s : Script}
    (read : Script.read source path pkgPath = .ok s) {p : Part} (has : s.HasPart p) :
    p.range.start ≤ p.range.stop ∧
    (∀ q ∈ p.parts, q.IsBare ∨ q.range.Inside p.range) ∧
    ∀ b, p = .block b → b.statements.Pairwise fun x y => x.range.stop ≤ y.range.start := by
  have fits := (Part.Sound.of_hasPart (Script.sound_of_mem_decls read) has).fits
  exact ⟨fits.forward, fits.inside, fits.ordered⟩

def Part.statementRanges? : Part → Option (List Range)
  | .block b => some (b.statements.map Stmt.range)
  | _ => none

/-- The label, the compound assignment and the assignment of the template, in the body that holds
them. -/
theorem Script.ranges_nested_templated :
    ∃ s b, Script.read templated "a.brs" "" = .ok s ∧ s.HasPart (.block b) ∧
      b.statements.map Stmt.range =
        [⟨⟨1, 0⟩, ⟨1, 6⟩⟩, ⟨⟨2, 2⟩, ⟨2, 11⟩⟩, ⟨⟨3, 2⟩, ⟨4, 17⟩⟩] ∧
      b.range.start ≤ b.range.stop ∧ (∀ x ∈ b.statements, x.range.Inside b.range) ∧
      b.statements.Pairwise fun x y => x.range.stop ≤ y.range.start := by
  have found : (Script.read templated "a.brs" "").toOption.map
      (fun s => (s.partAt? 0 [1, 2]).bind Part.statementRanges?) =
        some (some [⟨⟨1, 0⟩, ⟨1, 6⟩⟩, ⟨⟨2, 2⟩, ⟨2, 11⟩⟩, ⟨⟨3, 2⟩, ⟨4, 17⟩⟩]) := by
    decide +kernel
  obtain ⟨s, read, listed⟩ := exists_ok_of_map_toOption found
  obtain ⟨p, reached, isBlock⟩ := Option.bind_eq_some_iff.1 listed
  have has := Script.hasPart_of_partAt? reached
  unfold Part.statementRanges? at isBlock
  split at isBlock
  · next b =>
    obtain ⟨forward, inside, ordered⟩ := Script.ranges_nested_of_hasPart read has
    refine ⟨s, b, read, has, Option.some.inj isBlock, forward, fun x member => ?_, ordered b rfl⟩
    exact (inside (.stmt x) (mem_map_of_mem member)).resolve_left id
  · cases isBlock

end ChannelLint
