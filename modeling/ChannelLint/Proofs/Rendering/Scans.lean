import ChannelLint.Proofs.Casing.Tokens
import ChannelLint.Proofs.Rendering.Words

/-!
# Reading signs, strings and numbers

The lexer takes the first lexeme that matches. A text that does not begin with a letter is matched
by no lexeme that is made of words, so in front of a blank or a line feed a sign, a string or a
number is taken as a whole.
-/
namespace ChannelLint

open List

variable {cs : List Char}

namespace Lexer

open Text

/-- The lexeme at a place of a list is taken if those before it do not match. -/
theorem findSome?_scan {ls : List (Option Terminal × Scanner)} {k n : Nat}
    {t : Option Terminal} {scan : Scanner} (place : ls[k]? = some (t, scan))
    (before : ∀ lexeme ∈ ls.take k, lexeme.2 cs = none) (scanned : scan cs = some n) :
    (ls.findSome? fun (terminal, scan) => (scan cs).map (terminal, ·)) = some (t, n) := by
  obtain ⟨inside, here⟩ := List.getElem?_eq_some_iff.1 place
  have none : ((ls.take k).findSome? fun (terminal, scan) => (scan cs).map (terminal, ·)) =
      none := by
    refine findSome?_eq_none_iff.2 fun lexeme member => ?_
    obtain ⟨terminal, other⟩ := lexeme
    exact Option.map_eq_none_iff.2 (before _ member)
  rw [← take_append_drop k ls, findSome?_append, none, Option.none_or,
    drop_eq_getElem_cons inside, here, findSome?_cons]
  dsimp only
  rw [scanned, Option.map_some]

/-! ## Words that do not begin with a letter -/

section Unnamed

variable {c : Char} (unnamed : isNameStart c = false)

include unnamed

theorem readWord_unnamed {word : List Char} (lower : word.head?.any Char.isLower)
    (cs : List Char) : readWord word (c :: cs) = none := by
  cases word with
  | nil => cases lower
  | cons w word =>
    have differs : foldLetter c ≠ w := by
      rintro rfl
      simp only [isNameStart, Bool.or_eq_false_iff] at unnamed
      simp [unnamed.1] at lower
    simp [readWord, differs]

theorem twoWords_unnamed {first : String} (lower : first.toList.head?.any Char.isLower)
    (second : String) (least : Nat) (cs : List Char) :
    twoWords first second least (c :: cs) = none := by
  rw [twoWords, readWord_unnamed unnamed lower]
  rfl

theorem wholeWord_unnamed {word : String} (lower : word.toList.head?.any Char.isLower)
    (cs : List Char) : wholeWord word (c :: cs) = none := by
  rw [wholeWord, readWord_unnamed unnamed lower]
  rfl

end Unnamed

variable {c : Char} {p : Char → Bool} {ds rest : List Char}

/-- The lexemes that can begin with another character than a letter or an underscore. -/
def unnamedLexemes : List (Option Terminal × Scanner) :=
  (lexemes.drop 1).take 1 ++ (lexemes.drop 16).take 1 ++ lexemes.drop 18

theorem firstMatch_unnamed (unnamed : isNameStart c = false) (cs : List Char) :
    firstMatch (c :: cs) =
      unnamedLexemes.findSome? fun (terminal, scan) => (scan (c :: cs)).map (terminal, ·) := by
  have noLabel : label (c :: cs) = none := by simp [label, unnamed]
  have noNext : nextWord (c :: cs) = none := by
    rw [nextWord, readWord_unnamed unnamed (by decide)]
    rfl
  have noRemark : remark (c :: cs) = none := by
    rw [remark, readWord_unnamed unnamed (by decide)]
    rfl
  rw [firstMatch, unnamedLexemes, lexemes]
  simp (disch := decide) only [findSome?_cons, anyOf, map_cons, map_nil,
    findSome?_nil, noLabel, noNext, noRemark, twoWords_unnamed unnamed,
    wholeWord_unnamed unnamed, Option.map_none, drop_succ_cons, drop_zero,
    take_succ_cons, take_zero, cons_append, nil_append]

/-- A sign in front of a blank or a line feed is read as itself. -/
theorem firstMatch_sign {w : Word} (isSign : w ∈ Word.signs) (ends : c = ' ' ∨ c = '\n')
    (rest : List Char) :
    firstMatch (w.text.toList ++ c :: rest) = some (some w.terminal, w.text.length) := by
  revert w
  rcases ends with rfl | rfl
  all_goals
    simp only [Word.signs, forall_mem_cons]
    refine ⟨?_, ?_, ?_, ?_, ?_, ?_, ?_, ?_, ?_, ?_, ?_, ?_, ?_, ?_, ?_, ?_, ?_, ?_, ?_, ?_, ?_, ?_,
      ?_, ?_, ?_, nofun⟩
    all_goals exact (firstMatch_unnamed rfl _).trans rfl

/-- What the longer operators and directives begin with. -/
def operatorStarts : List Char :=
  ['+', '-', '*', '/', '\\', '<', '>', '#']

/-- Operators do not begin with other characters. -/
theorem anyOf_literals_eq_none {texts : List String} (other : c ∉ operatorStarts)
    (starts : ∀ text ∈ texts, text.toList.head? ∈ operatorStarts.map some) (cs : List Char) :
    anyOf (texts.map literal) (c :: cs) = none := by
  refine findSome?_eq_none_iff.2 (forall_mem_map.2 fun text member => ?_)
  obtain ⟨d, isStart, isHead⟩ := mem_map.1 (starts text member)
  obtain ⟨ds, whole⟩ := head?_eq_some_iff.1 isHead.symm
  have differs : (d == c) = false := beq_false_of_ne fun same => other (same ▸ isStart)
  have apart : text.toList.isPrefixOf (c :: cs) = false := by
    rw [whole, List.isPrefixOf, differs, Bool.false_and]
  rw [literal, apart, if_neg Bool.false_ne_true]

theorem operators_eq_none (other : c ∉ operatorStarts) (cs : List Char) :
    ∀ lexeme ∈ unnamedLexemes.take 3, lexeme.2 (c :: cs) = none := by
  have noHash : (c == '#') = false := beq_false_of_ne fun same => other (same ▸ by decide)
  have assigns :
      anyOf (["+=", "-=", "*=", "/=", "\\=", "<<=", ">>="].map literal) (c :: cs) = none :=
    anyOf_literals_eq_none other (by decide) cs
  have shifts : anyOf (["<<", ">>"].map literal) (c :: cs) = none :=
    anyOf_literals_eq_none other (by decide) cs
  simp only [unnamedLexemes, lexemes, drop_succ_cons, drop_zero, take_succ_cons,
    take_zero, cons_append, nil_append, forall_mem_cons]
  refine ⟨assigns, ?_, shifts, forall_mem_nil _⟩
  rw [restOfLine, noHash, if_neg Bool.false_ne_true]

/-- Facts about the characters of names, by cases. -/
theorem forall_nameChar {P : Char → Prop}
    (ascii : ∀ n : Fin 128, isNameChar (Char.ofNat n) → P (Char.ofNat n))
    (others : ∀ c ∈ ['İ', 'ı', 'ſ', 'K'], P c) (isChar : isNameChar c) : P c := by
  have isLetter : isNameLetter c := by rw [isNameLetter, isChar, Bool.true_or]
  rcases ascii_or_mem_of_isNameLetter isLetter with low | other
  · rw [← Char.ofNat_toNat c] at isChar ⊢
    exact ascii ⟨c.toNat, low⟩ isChar
  · exact others c other

/-- What tells the characters of names from those that end a word. -/
structure PlainChar (c : Char) : Prop where
  word : isWordChar c
  gap : isGap c = false
  blank : isBlank c = false
  other : c ∉ operatorStarts ++ ['\r', ':', '\n', '\'', '.', '&']

instance (c : Char) : Decidable (PlainChar c) :=
  decidable_of_iff (isWordChar c ∧ isGap c = false ∧ isBlank c = false ∧
      c ∉ operatorStarts ++ ['\r', ':', '\n', '\'', '.', '&'])
    ⟨fun ⟨word, gap, blank, other⟩ => ⟨word, gap, blank, other⟩,
      fun plain => ⟨plain.word, plain.gap, plain.blank, plain.other⟩⟩

theorem plainChar_of_isNameChar (isChar : isNameChar c) : PlainChar c :=
  forall_nameChar (by decide +kernel) (by decide +kernel) isChar

theorem isDecimalDigit_of_isNameStart (start : isNameStart c) : isDecimalDigit c = false := by
  have isChar : isNameChar c := by rw [isNameChar, start, Bool.true_or]
  exact forall_nameChar (P := fun c => isNameStart c → isDecimalDigit c = false)
    (by decide +kernel) (by decide +kernel) isChar start

/-! ## Strings -/

theorem doubled_cons (c : Char) (cs : List Char) :
    doubled (c :: cs) = (if c = '"' then ['"', '"'] else [c]) ++ doubled cs :=
  flatMap_cons

theorem stringEnd_doubled {inner : List Char} (oneLine : '\n' ∉ inner) (single : c ≠ '"')
    (rest : List Char) (taken : Nat) (closed : Option Nat) :
    stringEnd taken closed (doubled inner ++ '"' :: c :: rest) =
      some (taken + (doubled inner).length + 1) := by
  induction inner generalizing taken closed with
  | nil =>
    have alone : (c :: rest).head? ≠ some '"' := fun same => single (Option.some.inj same)
    exact stringEnd_quote alone taken closed
  | cons d inner ih =>
    obtain ⟨inLine, rest⟩ := ne_and_not_mem_of_not_mem_cons oneLine
    rw [doubled_cons]
    split
    · rw [append_assoc, cons_append, singleton_append, stringEnd, ih rest]
      simp only [length_append, length_cons, length_nil]
      congr 1
      omega
    · next plain =>
      have other : (d == '\n') = false := beq_false_of_ne inLine.symm
      rw [append_assoc, singleton_append, stringEnd_cons plain, other,
        if_neg Bool.false_ne_true, ih rest]
      simp only [length_append, length_cons, length_nil]
      congr 1
      omega

theorem firstMatch_string {inner : String} (oneLine : '\n' ∉ inner.toList) (single : c ≠ '"')
    (rest : List Char) : firstMatch ((stringText inner).toList ++ c :: rest) =
      some (some .string, (stringText inner).length) := by
  have whole : (stringText inner).toList ++ c :: rest =
      '"' :: (doubled inner.toList ++ '"' :: c :: rest) := by
    simp [stringText]
  have scanned : string ('"' :: (doubled inner.toList ++ '"' :: c :: rest)) =
      some (stringText inner).length := by
    rw [string, stringEnd_doubled oneLine single, stringText, String.length_ofList]
    simp only [length_append, length_cons, length_nil]
    congr 1
    omega
  have place : unnamedLexemes[6]? = some (some .string, string) := rfl
  rw [whole, firstMatch_unnamed rfl]
  refine findSome?_scan place ?_ scanned
  simp only [unnamedLexemes, lexemes, drop_succ_cons, drop_zero, take_succ_cons,
    take_zero, cons_append, nil_append, forall_mem_cons]
  exact ⟨rfl, rfl, rfl, rfl, rfl, rfl, forall_mem_nil _⟩

/-! ## Numbers -/

theorem many_append (all : ∀ c ∈ ds, p c) (stops : ∀ c ∈ rest.head?, p c = false) :
    many p (ds ++ rest) = if ds = [] then none else some ds.length := by
  have front : (ds ++ rest).takeWhile p = ds := by
    rw [takeWhile_append_of_pos all]
    cases rest with
    | nil => simp
    | cons c rest => simp [stops c rfl]
  rw [many, front]
  cases ds <;> rfl

theorem optional_many (all : ∀ c ∈ ds, p c) (stops : ∀ c ∈ rest.head?, p c = false) :
    optional (many p) (ds ++ rest) = ds.length := by
  rw [optional, many_append all stops]
  cases ds <;> rfl

theorem many_digits (digits : IsDigits ds) (stops : ∀ c ∈ rest.head?, isDecimalDigit c = false) :
    many isDecimalDigit (ds ++ rest) = some ds.length := by
  rw [many_append digits.2 stops, if_neg digits.1]

theorem optional_oneChar (short : ds.length ≤ 1) (all : ∀ c ∈ ds, p c)
    (stops : ∀ c ∈ rest.head?, p c = false) : optional (oneChar p) (ds ++ rest) = ds.length := by
  match ds, short with
  | [], _ =>
    cases rest with
    | nil => rfl
    | cons c rest => simp [optional, oneChar, stops c rfl]
  | [d], _ => simp [optional, oneChar, all d mem_cons_self]

/-- The characters that may follow a mantissa. -/
def numberEnds : List Char :=
  [' ', '\n', '%', '!', '#', '&', 'e', 'E']

theorem mantissa_append {m : List Char} (isMantissa : IsMantissa m)
    (stops : ∀ c ∈ rest.head?, c ∈ numberEnds) : mantissa (m ++ rest) = some m.length := by
  have plain : ∀ c ∈ numberEnds, isDecimalDigit c = false ∧ (c == '.') = false := by decide
  have noDigit : ∀ c ∈ rest.head?, isDecimalDigit c = false :=
    fun c first => (plain c (stops c first)).1
  unfold mantissa
  cases isMantissa with
  | whole digits =>
    have point : optional (oneChar (· == '.')) ([] ++ rest) = 0 :=
      optional_oneChar (Nat.zero_le 1) nofun fun c first => (plain c (stops c first)).2
    rw [many_digits digits noDigit]
    dsimp only
    rw [drop_left, ← nil_append rest, point]
    rfl
  | @pointed ds fs digits fraction =>
    have stop : ∀ c ∈ ('.' :: (fs ++ rest)).head?, isDecimalDigit c = false := by
      rintro c ⟨⟩
      rfl
    have behind : (ds ++ '.' :: (fs ++ rest)).drop (ds.length + 1) = fs ++ rest := by
      rw [← drop_drop, drop_left]
      rfl
    rw [append_assoc, cons_append, many_digits digits stop]
    dsimp only
    rw [drop_left, behind, optional_many fraction noDigit, if_neg (by simp [optional, oneChar]),
      length_append, length_cons]
    congr 1
    omega
  | @fraction fs digits =>
    have none : many isDecimalDigit ('.' :: (fs ++ rest)) = none := rfl
    rw [cons_append, none]
    show (many isDecimalDigit (fs ++ rest)).map _ = _
    rw [many_digits digits noDigit, Option.map_some, length_cons, Nat.add_comm]

theorem exponent_append {x : List Char} (isExponent : IsExponent x)
    (stops : ∀ c ∈ rest.head?, c ∈ numberEnds.take 6) :
    optional exponent (x ++ rest) = x.length := by
  have plain : ∀ c ∈ numberEnds.take 6, isDecimalDigit c = false ∧ c.toLower ≠ 'e' := by
    decide
  have noDigit : ∀ c ∈ rest.head?, isDecimalDigit c = false :=
    fun c first => (plain c (stops c first)).1
  have lower {e : Char} (isE : e = 'e' ∨ e = 'E') : e.toLower == 'e' := by
    rcases isE with rfl | rfl <;> decide
  cases isExponent with
  | absent =>
    cases rest with
    | nil => rfl
    | cons c rest => simp [optional, exponent, (plain c (stops c rfl)).2]
  | @unsigned e ds isE digits =>
    have noSign : optional (oneChar fun c => c == '+' || c == '-') ([] ++ (ds ++ rest)) = 0 := by
      refine optional_oneChar (Nat.zero_le 1) (by simp) fun c first => ?_
      have digit : isDecimalDigit c := by
        refine digits.2 c (mem_of_head? ?_)
        rw [head?_append, Option.or_of_isSome] at first
        · exact first
        · exact isSome_head?.2 digits.1
      rw [Bool.eq_false_iff]
      intro isSign
      rcases Bool.or_eq_true_iff.1 isSign with plus | minus
      · rw [beq_iff_eq.1 plus] at digit
        exact absurd digit (by decide)
      · rw [beq_iff_eq.1 minus] at digit
        exact absurd digit (by decide)
    rw [nil_append] at noSign
    rw [cons_append, optional, exponent, if_pos (lower isE)]
    dsimp only
    rw [noSign, drop_zero, many_digits digits noDigit]
    simp only [Option.map_some, Option.getD_some, length_cons]
    omega
  | @signed e sign ds isE isSign digits =>
    have one : optional (oneChar fun c => c == '+' || c == '-') (sign :: (ds ++ rest)) = 1 := by
      rcases isSign with rfl | rfl <;> rfl
    rw [cons_append, cons_append, optional, exponent, if_pos (lower isE)]
    dsimp only
    rw [one, drop_succ_cons, drop_zero, many_digits digits noDigit]
    simp only [Option.map_some, Option.getD_some, length_cons]
    omega

theorem decimal_append {m x mark : List Char} (isMantissa : IsMantissa m)
    (isExponent : IsExponent x) (isMark : mark ∈ [[], ['%'], ['!'], ['#'], ['&']])
    (stops : ∀ c ∈ rest.head?, c = ' ' ∨ c = '\n') :
    decimal (m ++ (x ++ (mark ++ rest))) = some (m ++ x ++ mark).length := by
  have marks : ∀ mark ∈ [[], ['%'], ['!'], ['#'], ['&']], mark.length ≤ 1 ∧
      (∀ c ∈ mark, isTypeMark c && c != '$') ∧ ∀ c ∈ mark, c ∈ numberEnds.take 6 := by
    decide
  obtain ⟨short, typed, ends⟩ := marks mark isMark
  have behindMark : ∀ c ∈ rest.head?, (isTypeMark c && c != '$') = false := by
    intro c isFirst
    rcases stops c isFirst with rfl | rfl <;> rfl
  have behindExponent : ∀ c ∈ (mark ++ rest).head?, c ∈ numberEnds.take 6 := by
    intro c isFirst
    rw [head?_append] at isFirst
    rcases Option.or_eq_some_iff.1 isFirst with inMark | ⟨-, inRest⟩
    · exact ends c (mem_of_mem_head? inMark)
    · rcases stops c inRest with rfl | rfl <;> decide
  have behindMantissa : ∀ c ∈ (x ++ (mark ++ rest)).head?, c ∈ numberEnds := by
    intro c isFirst
    rw [head?_append] at isFirst
    rcases Option.or_eq_some_iff.1 isFirst with inExponent | ⟨-, behind⟩
    · cases isExponent with
      | absent => cases inExponent
      | unsigned isE => rcases isE with rfl | rfl <;> cases inExponent <;> decide
      | signed isE => rcases isE with rfl | rfl <;> cases inExponent <;> decide
    · exact mem_of_mem_take (behindExponent c behind)
  rw [decimal, mantissa_append isMantissa behindMantissa]
  show some _ = _
  rw [drop_left, exponent_append isExponent behindExponent, ← length_append,
    ← append_assoc, drop_left, optional_oneChar short typed behindMark,
    ← length_append]

theorem hexadecimal_append {h : Char} {mark : List Char} (isH : h = 'h' ∨ h = 'H')
    (nonempty : ds ≠ []) (digits : ∀ c ∈ ds, isHexDigit c) (isMark : mark ∈ [[], ['&']])
    (stops : ∀ c ∈ rest.head?, c = ' ' ∨ c = '\n') :
    hexadecimal ('&' :: h :: (ds ++ (mark ++ rest))) = some ('&' :: h :: ds ++ mark).length := by
  have isLower : h.toLower == 'h' := by rcases isH with rfl | rfl <;> decide
  have marks : ∀ mark ∈ [[], ['&']], mark.length ≤ 1 ∧ (∀ c ∈ mark, c == '&') ∧
      ∀ c ∈ mark, isHexDigit c = false := by
    decide
  obtain ⟨short, typed, ends⟩ := marks mark isMark
  have behindMark : ∀ c ∈ rest.head?, (c == '&') = false := by
    intro c isFirst
    rcases stops c isFirst with rfl | rfl <;> rfl
  have behindDigits : ∀ c ∈ (mark ++ rest).head?, isHexDigit c = false := by
    intro c isFirst
    rw [head?_append] at isFirst
    rcases Option.or_eq_some_iff.1 isFirst with inMark | ⟨-, inRest⟩
    · exact ends c (mem_of_mem_head? inMark)
    · rcases stops c inRest with rfl | rfl <;> rfl
  rw [hexadecimal, if_pos isLower, many_append digits behindDigits, if_neg nonempty,
    Option.map_some,
    drop_left, optional_oneChar short typed behindMark]
  simp only [length_append, length_cons, cons_append]
  congr 1
  omega

/-- What a number begins with. -/
theorem IsNumber.head (isNumber : IsNumber cs) :
    ∃ d ds, cs = d :: ds ∧ isNameStart d = false ∧ isBlank d = false ∧ d ∉ operatorStarts := by
  have digits {ds more : List Char} (isDigits : IsDigits ds) : ∃ d rest, ds ++ more = d :: rest ∧
      isNameStart d = false ∧ isBlank d = false ∧ d ∉ operatorStarts := by
    obtain ⟨nonempty, all⟩ := isDigits
    cases ds with
    | nil => exact absurd rfl nonempty
    | cons d ds =>
      have digit := all d mem_cons_self
      have others : ∀ c ∈ [' ', '\t', '\x0c', '\r'] ++ operatorStarts,
          isDecimalDigit c = false := by
        decide
      have apart {c : Char} (other : isDecimalDigit c = false) : d ≠ c := by
        rintro rfl
        rw [other] at digit
        cases digit
      refine ⟨d, ds ++ more, rfl, ?_, ?_, fun member => ?_⟩
      · rw [Bool.eq_false_iff]
        intro start
        exact apart (isDecimalDigit_of_isNameStart start) rfl
      · simp [isBlank, apart (others ' ' (by decide)), apart (others '\t' (by decide)),
          apart (others '\x0c' (by decide)), apart (others '\r' (by decide))]
      · exact apart (others d (mem_append_right _ member)) rfl
  cases isNumber with
  | decimal isMantissa =>
    cases isMantissa with
    | whole isDigits =>
      rw [append_assoc]
      exact digits isDigits
    | pointed isDigits =>
      rw [append_assoc, append_assoc]
      exact digits isDigits
    | fraction => exact ⟨_, _, rfl, by decide, by decide, by decide⟩
  | hexadecimal => exact ⟨_, _, rfl, by decide, by decide, by decide⟩

/-- A number in front of a blank or a line feed is taken as a whole. -/
theorem firstMatch_number (isNumber : IsNumber cs) (ends : c = ' ' ∨ c = '\n')
    (rest : List Char) : firstMatch (cs ++ c :: rest) = some (some .number, cs.length) := by
  have stops : ∀ d ∈ (c :: rest).head?, d = ' ' ∨ d = '\n' := by
    rintro d ⟨⟩
    exact ends
  have scanned : anyOf [decimal, hexadecimal] (cs ++ c :: rest) = some cs.length := by
    cases isNumber with
    | decimal isMantissa isExponent isMark =>
      rw [append_assoc, append_assoc, anyOf, findSome?_cons,
        decimal_append isMantissa isExponent isMark stops]
    | @hexadecimal h ds mark isH nonempty digits isMark =>
      have noDecimal : decimal ('&' :: h :: (ds ++ (mark ++ c :: rest))) = none := rfl
      rw [append_assoc, cons_append, cons_append, anyOf, findSome?_cons,
        noDecimal, findSome?_cons, hexadecimal_append isH nonempty digits isMark stops]
  obtain ⟨d, ds, rfl, unnamed, -, other⟩ := isNumber.head
  have place : unnamedLexemes[3]? = some (some .number, anyOf [decimal, hexadecimal]) := rfl
  rw [cons_append, firstMatch_unnamed unnamed]
  exact findSome?_scan place (operators_eq_none other _) scanned

end Lexer

end ChannelLint
