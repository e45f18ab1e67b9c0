import ChannelLint.Proofs.Casing.Letters
import ChannelLint.Proofs.Templates

/-!
# Tokens without their case

A text and the same text without its case are cut into tokens at the same places, and tokens at the
same place are of the same kind. One lemma per scanner says that it takes as many characters of the
one text as of the other; the table of lexemes and the lexer itself follow.
-/
namespace ChannelLint

open List

variable {p : Char → Bool} {c : Char}

open Text

/-- Whether `f` says the same of a letter and of its uncased form. -/
def Caseless {α : Type} (f : Char → α) : Prop :=
  ∀ c, f (uncase c) = f c

namespace Caseless

theorem of_capitals {α : Type} (f : Char → α)
    (h : capitals.map (fun c => f (uncase c)) = capitals.map f) : Caseless f :=
  uncase_congr f h

theorem comp_eq (h : Caseless p) : p ∘ uncase = p :=
  funext h

theorem takeWhile_map (h : Caseless p) (cs : List Char) :
    (cs.map uncase).takeWhile p = (cs.takeWhile p).map uncase := by
  rw [List.takeWhile_map, h.comp_eq]

theorem dropWhile_map (h : Caseless p) (cs : List Char) :
    (cs.map uncase).dropWhile p = (cs.dropWhile p).map uncase := by
  rw [List.dropWhile_map, h.comp_eq]

theorem length_takeWhile (h : Caseless p) (cs : List Char) :
    ((cs.map uncase).takeWhile p).length = (cs.takeWhile p).length := by
  rw [h.takeWhile_map, length_map]

end Caseless

/-! ## Positions -/

theorem Position.next_uncase (p : Position) (c : Char) : p.next (uncase c) = p.next c := by
  rw [Position.next, Position.next, uncase_beq (by decide)]

@[simp] theorem Position.after_map_uncase (p : Position) (cs : List Char) :
    p.after (cs.map uncase) = p.after cs := by
  rw [Position.after, Position.after, foldl_map]
  congr 1
  funext p c
  exact p.next_uncase c

namespace Lexer

/-! ## Classes of characters -/

theorem isNameStart_caseless : Caseless isNameStart :=
  .of_capitals _ (by decide)

theorem isNameChar_caseless : Caseless isNameChar :=
  .of_capitals _ (by decide)

theorem isTypeMark_caseless : Caseless isTypeMark :=
  .of_capitals _ (by decide)

theorem isGap_caseless : Caseless isGap :=
  .of_capitals _ (by decide)

theorem isBlank_caseless : Caseless isBlank :=
  .of_capitals _ (by decide)

theorem isDecimalDigit_caseless : Caseless isDecimalDigit :=
  .of_capitals _ (by decide +kernel)

theorem isHexDigit_caseless : Caseless isHexDigit :=
  .of_capitals _ (by decide)

theorem foldLetter_caseless : Caseless foldLetter :=
  .of_capitals _ (by decide)

/-! ## Ends of words and lines -/

theorem lineLength_map (cs : List Char) : lineLength (cs.map uncase) = lineLength cs :=
  Caseless.length_takeWhile (.of_capitals _ (by decide)) cs

theorem lineEnds_map (cs : List Char) : lineEnds (cs.map uncase) = lineEnds cs := by
  rw [lineEnds, lineEnds, Caseless.dropWhile_map (.of_capitals _ (by decide))]
  cases cs.dropWhile (fun c => isGap c || c == '\r') with
  | nil => rfl
  | cons c _ => exact uncase_congr (fun c => c == '\n' || c == '\'') (by decide) c

theorem endsWord_map (cs : List Char) : endsWord (cs.map uncase) = endsWord cs := by
  cases cs with
  | nil => rfl
  | cons c cs => exact congrArg not (uncase_congr isWordChar (by decide +kernel) c)

theorem readWord_map (word cs : List Char) :
    readWord word (cs.map uncase) = (readWord word cs).map (List.map uncase) := by
  induction word generalizing cs with
  | nil => rfl
  | cons w word ih =>
    cases cs with
    | nil => rfl
    | cons c cs =>
      rw [map_cons, readWord, readWord, foldLetter_caseless, ih]
      split <;> rfl

/-! ## Scanners -/

theorem findSome?_congr {α β : Type} {f g : α → Option β} {l : List α} (h : ∀ a ∈ l, f a = g a) :
    l.findSome? f = l.findSome? g := by
  induction l with
  | nil => rfl
  | cons a l ih =>
    rw [findSome?_cons, findSome?_cons, h a mem_cons_self,
      ih fun b hb => h b (mem_cons_of_mem _ hb)]

/-- A scanner takes as many characters of a text without its case as of the text itself. -/
def ScansAlike (scan : Scanner) : Prop :=
  ∀ cs, scan (cs.map uncase) = scan cs

theorem optional_map {scan : Scanner} (h : ScansAlike scan) (cs : List Char) :
    optional scan (cs.map uncase) = optional scan cs := by
  rw [optional, optional, h]

theorem oneChar_alike (h : Caseless p) : ScansAlike (oneChar p)
  | [] => rfl
  | c :: cs => by rw [map_cons, oneChar, oneChar, h]

theorem many_alike (h : Caseless p) : ScansAlike (many p) := by
  intro cs
  rw [many, many, h.length_takeWhile]

theorem literal_alike {text : String} (signs : text.toList.all isSign) :
    ScansAlike (literal text) := by
  intro cs
  have same (ts : List Char) (h : ts.all isSign) (cs : List Char) :
      ts.isPrefixOf (cs.map uncase) = ts.isPrefixOf cs := by
    induction ts generalizing cs with
    | nil => rfl
    | cons t ts ih =>
      rw [all_cons, Bool.and_eq_true] at h
      cases cs with
      | nil => rfl
      | cons c cs =>
        rw [map_cons, List.isPrefixOf, List.isPrefixOf, ih h.2, Bool.beq_comm,
          uncase_beq h.1, Bool.beq_comm]
  rw [literal, literal, same _ signs]

theorem anyOf_alike {scanners : List Scanner} (h : ∀ scan ∈ scanners, ScansAlike scan) :
    ScansAlike (anyOf scanners) := by
  intro cs
  exact findSome?_congr fun scan mem => h scan mem cs

theorem literals_alike {texts : List String} (signs : ∀ t ∈ texts, t.toList.all isSign) :
    ScansAlike (anyOf (texts.map literal)) := by
  apply anyOf_alike
  intro scan mem
  obtain ⟨text, hText, rfl⟩ := mem_map.1 mem
  exact literal_alike (signs text hText)

theorem wholeWord_alike (word : String) : ScansAlike (wholeWord word) := by
  intro cs
  simp only [wholeWord, readWord_map]
  cases readWord word.toList cs with
  | none => rfl
  | some rest => simp only [Option.map_some, Option.bind_eq_bind, Option.bind_some, endsWord_map]

theorem twoWords_alike (first second : String) (least : Nat) :
    ScansAlike (twoWords first second least) := by
  intro cs
  simp only [twoWords, readWord_map]
  cases readWord first.toList cs with
  | none => rfl
  | some rest =>
    simp only [Option.map_some, Option.bind_eq_bind, Option.bind_some,
      isGap_caseless.length_takeWhile, ← map_drop, readWord_map]
    cases readWord second.toList (rest.drop (rest.takeWhile isGap).length) with
    | none => rfl
    | some rest => simp only [Option.map_some, Option.bind_some, endsWord_map]

theorem label_alike : ScansAlike label := by
  intro cs
  cases cs with
  | nil => rfl
  | cons c cs =>
    simp only [map_cons, label, isNameStart_caseless c, isNameChar_caseless.length_takeWhile,
      ← map_drop]
    cases cs.drop (cs.takeWhile isNameChar).length with
    | nil => rfl
    | cons d rest =>
      by_cases colon : d = ':'
      · subst colon
        have same : uncase ':' = ':' := rfl
        rw [map_cons, same]
        cases isNameStart c with
        | false => rfl
        | true => simp only [lineEnds_map]
      · have other : uncase d ≠ ':' := fun e => colon ((uncase_eq_iff (by decide) d).1 e)
        cases isNameStart c <;> simp [colon, other]

theorem nextWord_alike : ScansAlike nextWord := by
  intro cs
  simp only [nextWord, readWord_map]
  cases readWord "next".toList cs with
  | none => rfl
  | some rest =>
    simp only [Option.map_some, Option.bind_eq_bind, Option.bind_some, lineEnds_map,
      Caseless.dropWhile_map (.of_capitals (fun c => isGap c || c == '\r') (by decide))]
    cases rest.dropWhile (fun c => isGap c || c == '\r') with
    | nil => rfl
    | cons d _ =>
      by_cases colon : d = ':'
      · subst colon
        rfl
      · have other : uncase d ≠ ':' := fun e => colon ((uncase_eq_iff (by decide) d).1 e)
        simp [colon, other]

theorem remark_alike : ScansAlike remark := by
  intro cs
  simp only [remark, readWord_map]
  cases readWord "rem".toList cs with
  | none => rfl
  | some rest =>
    cases rest with
    | nil => rfl
    | cons c rest =>
      simp only [Option.map_some, Option.bind_eq_bind, Option.bind_some, map_cons,
        isNameChar_caseless c, isTypeMark_caseless c]
      rw [← map_cons, lineLength_map]

theorem restOfLine_alike {mark : Char} (sign : isSign mark) : ScansAlike (restOfLine mark)
  | [] => rfl
  | c :: cs => by rw [map_cons, restOfLine, restOfLine, uncase_beq sign, lineLength_map]

theorem exponent_alike : ScansAlike exponent
  | [] => rfl
  | c :: cs => by
    simp only [map_cons, exponent, uncase_congr (fun c => c.toLower == 'e') (by decide) c,
      optional_map (oneChar_alike (.of_capitals (fun c => c == '+' || c == '-') (by decide))),
      ← map_drop, many_alike isDecimalDigit_caseless _]

theorem mantissa_alike : ScansAlike mantissa := by
  intro cs
  unfold mantissa
  rw [many_alike isDecimalDigit_caseless]
  cases many isDecimalDigit cs with
  | some whole =>
    simp only [← map_drop, optional_map (many_alike isDecimalDigit_caseless),
      optional_map (oneChar_alike (.of_capitals (· == '.') (by decide)))]
  | none =>
    cases cs with
    | nil => rfl
    | cons c cs =>
      by_cases dot : c = '.'
      · subst dot
        have same : uncase '.' = '.' := rfl
        simp only [map_cons, same, many_alike isDecimalDigit_caseless cs]
      · have other : uncase c ≠ '.' := fun e => dot ((uncase_eq_iff (by decide) c).1 e)
        simp [dot, other]

theorem decimal_alike : ScansAlike decimal := by
  intro cs
  simp only [decimal, mantissa_alike cs, ← map_drop, optional_map exponent_alike,
    optional_map (oneChar_alike (.of_capitals (fun c => isTypeMark c && c != '$') (by decide)))]

theorem hexadecimal_alike : ScansAlike hexadecimal := by
  intro cs
  match cs with
  | [] => rfl
  | [c] => simp [hexadecimal]
  | c :: h :: cs =>
    by_cases mark : c = '&'
    · subst mark
      have same : uncase '&' = '&' := rfl
      simp only [map_cons, same, hexadecimal,
        uncase_congr (fun c => c.toLower == 'h') (by decide) h,
        many_alike isHexDigit_caseless cs, ← map_drop,
        optional_map (oneChar_alike (.of_capitals (· == '&') (by decide)))]
    · have other : uncase c ≠ '&' := fun e => mark ((uncase_eq_iff (by decide) c).1 e)
      simp [hexadecimal, mark, other]

theorem name_alike : ScansAlike name
  | [] => rfl
  | c :: cs => by
    simp only [map_cons, name, isNameStart_caseless c, isNameChar_caseless.length_takeWhile,
      ← map_drop, optional_map (oneChar_alike isTypeMark_caseless)]

/-- A character other than a backslash is looked at by itself. -/
theorem templateEnd_cons (h : c ≠ '\\') (taken : Nat) (cs : List Char) :
    templateEnd taken (c :: cs) =
      if c == '\x60' then some (taken + 1) else templateEnd (taken + 1) cs := by
  simp [templateEnd, h]

theorem templateEnd_map (taken : Nat) (cs : List Char) :
    templateEnd taken (cs.map uncase) = templateEnd taken cs := by
  have same : uncase '\\' = '\\' := rfl
  induction taken, cs using templateEnd.induct with
  | case1 => rfl
  | case2 => rfl
  | case3 taken c cs ih => simpa only [map_cons, same, templateEnd] using ih
  | case4 taken c cs notLast notEscape closing =>
    rw [eq_of_beq closing]
    rfl
  | case5 taken c cs notLast notEscape inside ih =>
    have plain : c ≠ '\\' := by
      rintro rfl
      cases cs with
      | nil => exact notLast rfl rfl
      | cons d cs => exact notEscape d cs rfl rfl
    have plain' : uncase c ≠ '\\' := fun e => plain ((uncase_eq_iff (by decide) c).1 e)
    rw [map_cons, templateEnd_cons plain, templateEnd_cons plain', uncase_beq (by decide), ih]

theorem template_alike : ScansAlike template
  | [] => rfl
  | c :: cs => by rw [map_cons, template, template, uncase_beq (by decide), templateEnd_map]

/-- A character other than a quote is looked at by itself. -/
theorem stringEnd_cons (h : c ≠ '"') (taken : Nat) (closed : Option Nat) (cs : List Char) :
    stringEnd taken closed (c :: cs) =
      if c == '\n' then closed else stringEnd (taken + 1) closed cs := by
  simp [stringEnd, h]

/-- A quote that is not doubled closes the string. -/
theorem stringEnd_quote {cs : List Char} (h : cs.head? ≠ some '"') (taken : Nat)
    (closed : Option Nat) : stringEnd taken closed ('"' :: cs) = some (taken + 1) := by
  cases cs with
  | nil => rfl
  | cons c cs =>
    have single : c ≠ '"' := fun e => h (congrArg some e)
    simp [stringEnd, single]

theorem stringEnd_map (taken : Nat) (closed : Option Nat) (cs : List Char) :
    stringEnd taken closed (cs.map uncase) = stringEnd taken closed cs := by
  have same : uncase '"' = '"' := rfl
  induction taken, closed, cs using stringEnd.induct with
  | case1 taken closed cs ih => simpa only [map_cons, same, stringEnd] using ih
  | case2 taken closed cs single =>
    have single' : (cs.map uncase).head? ≠ some '"' := by
      cases cs with
      | nil => exact nofun
      | cons d cs =>
        rw [map_cons, head?_cons, ne_eq, Option.some.injEq, uncase_eq_iff (by decide)]
        exact fun e => single cs (e ▸ rfl)
    have single'' : cs.head? ≠ some '"' := by
      cases cs with
      | nil => exact nofun
      | cons d cs => exact fun e => single cs ((Option.some.inj e) ▸ rfl)
    rw [map_cons, same, stringEnd_quote single', stringEnd_quote single'']
  | case3 => rfl
  | case4 taken closed c cs notDouble notQuote lineEnd =>
    rw [eq_of_beq lineEnd]
    rfl
  | case5 taken closed c cs notDouble notQuote inside ih =>
    have plain : c ≠ '"' := fun e => notQuote e
    have plain' : uncase c ≠ '"' := fun e => plain ((uncase_eq_iff (by decide) c).1 e)
    rw [map_cons, stringEnd_cons plain, stringEnd_cons plain', uncase_beq (by decide), ih]

theorem string_alike : ScansAlike string := by
  intro cs
  cases cs with
  | nil => rfl
  | cons c cs =>
    by_cases quote : c = '"'
    · subst quote
      exact stringEnd_map 1 none cs
    · have other : uncase c ≠ '"' := fun e => quote ((uncase_eq_iff (by decide) c).1 e)
      simp [string, quote, other]

theorem newline_alike : ScansAlike newline := by
  intro cs
  cases cs with
  | nil => rfl
  | cons c cs =>
    by_cases feed : c = '\n'
    · subst feed
      have same : uncase '\n' = '\n' := rfl
      simp only [map_cons, same, newline,
        optional_map (many_alike (.of_capitals (fun c => c == '\n' || isBlank c) (by decide)))]
    · have other : uncase c ≠ '\n' := fun e => feed ((uncase_eq_iff (by decide) c).1 e)
      simp [newline, feed, other]

/-! ## The lexer -/

theorem lexemes_alike : ∀ lexeme ∈ lexemes, ScansAlike lexeme.2 := by
  have pair {first second : Scanner} (h : ScansAlike first) (h' : ScansAlike second) :
      ScansAlike (anyOf [first, second]) :=
    anyOf_alike (by simp only [forall_mem_cons]; exact ⟨h, h', nofun⟩)
  have signs {first second : String} (h : first.toList.all isSign) (h' : second.toList.all isSign) :
      ScansAlike (anyOf [literal first, literal second]) :=
    pair (literal_alike h) (literal_alike h')
  have words : ScansAlike (anyOf (["public", "private", "protected", "override"].map wholeWord)) :=
    anyOf_alike fun scan mem => by
      obtain ⟨word, -, rfl⟩ := mem_map.1 mem
      exact wholeWord_alike word
  have products := oneChar_alike (.of_capitals (fun c => c == '*' || c == '/' || c == '\\')
    (by decide))
  have sums := oneChar_alike (.of_capitals (fun c => c == '+' || c == '-') (by decide))
  simp (disch := decide) only [lexemes, forall_mem_cons, not_mem_nil,
    IsEmpty.forall_iff, implies_true, and_true, label_alike, twoWords_alike, remark_alike,
    restOfLine_alike, name_alike, template_alike, string_alike, newline_alike, literal_alike,
    literals_alike, words, products, sums, signs, pair decimal_alike hexadecimal_alike,
    pair (twoWords_alike _ _ _) nextWord_alike, many_alike isBlank_caseless]

theorem firstMatch_map (cs : List Char) : firstMatch (cs.map uncase) = firstMatch cs := by
  apply findSome?_congr
  rintro ⟨terminal, scan⟩ mem
  exact congrArg (Option.map (terminal, ·)) (lexemes_alike _ mem cs)

theorem classify_map (terminal : Terminal) (text : List Char) :
    classify terminal (text.map uncase) = classify terminal text := by
  rw [classify, classify, map_map]
  have same : foldLetter ∘ uncase = foldLetter := funext foldLetter_caseless
  rw [same]

end Lexer

/-- A token without its case. -/
def Token.uncase (t : Token) : Token :=
  { t with text := uncased t.text }

def Lexer.Ending.uncase : Lexer.Ending → Lexer.Ending
  | .endOfText => .endOfText
  | .badCharacter c p => .badCharacter (Text.uncase c) p

def Lexer.Lexed.uncase (l : Lexed) : Lexed :=
  ⟨l.tokens.map Token.uncase, l.ending.uncase⟩

/-- A text without its case has the same tokens, without their case. -/
theorem Lexer.lexFrom_map (p : Position) (cs : List Char) :
    lexFrom p (cs.map uncase) = (lexFrom p cs).uncase := by
  fun_induction lexFrom p cs with
  | case1 =>
    rw [map_nil, lexFrom]
    rfl
  | case2 p c cs failed =>
    rw [map_cons, lexFrom, ← map_cons, firstMatch_map, failed]
    rfl
  | case3 p c cs length text more found ih =>
    rw [map_cons, lexFrom, ← map_cons, firstMatch_map, found]
    simp only [← map_take, ← map_drop, ← map_cons, Position.after_map_uncase]
    exact ih
  | case4 p c cs length text more t token found ih =>
    rw [map_cons, lexFrom, ← map_cons, firstMatch_map, found]
    simp only [← map_take, ← map_drop, ← map_cons, Position.after_map_uncase, classify_map]
    rw [ih]
    have text_eq : token.text.toList = text := String.toList_ofList
    simp only [Lexed.uncase, map_cons, Token.uncase, uncased, text_eq]
    rfl

namespace Template

/-! ## Templates -/

theorem closingDistance_map (depth : Nat) (inString : Bool) (cs : List Char) :
    closingDistance depth inString (cs.map uncase) = closingDistance depth inString cs := by
  induction cs generalizing depth inString with
  | nil => rfl
  | cons c cs ih =>
    have quote : (uncase c != '"') = (c != '"') := congrArg not (uncase_beq (by decide) c)
    cases inString with
    | true => rw [map_cons, closingDistance, closingDistance, quote, ih]
    | false =>
      cases depth <;>
        simp only [map_cons, closingDistance, uncase_beq (by decide : isSign '"'),
          uncase_beq (by decide : isSign '\x7b'), uncase_beq (by decide : isSign '\x7d'), ih]

/-- Behind a character that neither escapes nor opens an expression the search goes on. -/
theorem spansFrom_cons {rest : List Char} (escape : c ≠ '\\')
    (opening : c = '$' → rest.head? ≠ some '\x7b') (offset : Nat) :
    spansFrom offset (c :: rest) = spansFrom (offset + 1) rest := by
  by_cases dollar : c = '$'
  · cases rest with
    | nil => simp [spansFrom]
    | cons d rest =>
      have other : d ≠ '\x7b' := fun e => opening dollar (congrArg some e)
      simp [spansFrom, other]
  · simp [spansFrom, dollar]

theorem spansFrom_map (offset : Nat) (cs : List Char) :
    spansFrom offset (cs.map uncase) = spansFrom offset cs := by
  fun_induction spansFrom offset cs with
  | case1 => rw [map_nil, spansFrom]
  | case2 offset rest ih =>
    have same : uncase '\\' = '\\' := rfl
    rw [map_cons, same, spansFrom, ← map_drop, ih]
  | case3 offset rest length stop ih =>
    have dollar : uncase '$' = '$' := rfl
    have brace : uncase '\x7b' = '\x7b' := rfl
    rw [map_cons, map_cons, dollar, brace, spansFrom]
    simp only [closingDistance_map, ← map_drop]
    exact congrArg _ ih
  | case4 offset c rest escape opening ih =>
    have escape' : uncase c ≠ '\\' := fun e => escape ((uncase_eq_iff (by decide) c).1 e)
    have opening' : uncase c = '$' → (rest.map uncase).head? ≠ some '\x7b' := by
      intro dollar
      cases rest with
      | nil => exact (Option.some_ne_none _).symm
      | cons d rest =>
        rw [map_cons, head?_cons, ne_eq, Option.some.injEq, uncase_eq_iff (by decide)]
        exact fun e => opening rest ((uncase_eq_iff (by decide) c).1 dollar) (e ▸ rfl)
    rw [map_cons, spansFrom_cons escape' opening', ih]

@[simp] theorem spans_uncased (text : String) : spans (uncased text) = spans text := by
  rw [spans, spans, toList_uncased, spansFrom_map]

end Template

end ChannelLint
