import ChannelLint.Proofs.Rendering.Scans

/-!
# Reading names and keywords

Many lexemes begin with the letters of a word, and some go on behind it: two words may be one
terminal, and `next` and `rem` look at what follows. In front of a blank or a line feed a word is
taken as a whole unless it is one of these, with one exception: `exit` joins a `for` or a `while`
that comes next.
-/
namespace ChannelLint.Lexer

open List

variable {word rest behind : List Char} {second : String}

open Text

theorem readWord_eq_some_iff {cs : List Char} :
    readWord word cs = some rest ↔ ∃ front, cs = front ++ rest ∧ front.map foldLetter = word := by
  induction word generalizing cs with
  | nil => simp [readWord, eq_comm]
  | cons w word ih =>
    cases cs with
    | nil => simp [readWord]
    | cons c cs =>
      rw [readWord]
      constructor
      · intro read
        split at read
        · next same =>
          obtain ⟨front, rfl, folded⟩ := ih.1 read
          exact ⟨c :: front, rfl, by rw [map_cons, folded, beq_iff_eq.1 same]⟩
        · cases read
      · rintro ⟨front, whole, folded⟩
        cases front with
        | nil => cases folded
        | cons d front =>
          obtain ⟨rfl, rfl⟩ := List.cons.inj whole
          obtain ⟨rfl, rfl⟩ := List.cons.inj folded
          rw [if_pos (beq_self_eq_true _)]
          exact ih.2 ⟨front, rfl, rfl⟩

theorem readWord_eq_none_of_head {word : String} (filled : word ≠ "") {cs : List Char}
    (differs : ∀ c ∈ cs.head?, word.toList.head? ≠ some (foldLetter c)) :
    readWord word.toList cs = none := by
  cases letters : word.toList with
  | nil => exact absurd (String.toList_inj.1 letters) filled
  | cons w ws =>
    cases cs with
    | nil => rfl
    | cons c cs =>
      have apart := differs c rfl
      rw [letters, head?_cons, Ne, Option.some.injEq] at apart
      rw [readWord, if_neg fun same => apart (beq_iff_eq.1 same).symm]

/-- A word in small letters is read inside the letters that a text begins with. -/
theorem exists_of_readWord {stem : List Char} (lower : ∀ w ∈ word, w.isLower)
    (ends : ∀ c ∈ behind.head?, isNameChar c = false)
    (read : readWord word (stem ++ behind) = some rest) :
    ∃ front more, stem = front ++ more ∧ rest = more ++ behind ∧ front.map foldLetter = word := by
  obtain ⟨front, whole, folded⟩ := readWord_eq_some_iff.1 read
  rcases append_eq_append_iff.1 whole with ⟨inner, rfl, same⟩ | ⟨more, rfl, same⟩
  · cases inner with
    | nil => exact ⟨stem, [], (append_nil _).symm, same.symm, by simpa using folded⟩
    | cons c inner =>
      -- the word would reach behind the letters
      have isLetter : (foldLetter c).isLower :=
        lower _ (folded ▸ mem_map_of_mem (mem_append_right _ mem_cons_self))
      have isChar : isNameChar c := by rw [isNameChar, isNameStart, isLetter]; rfl
      rw [ends c (same ▸ rfl)] at isChar
      cases isChar
  · exact ⟨front, more, rfl, same, folded⟩

/-! ## Lexemes that begin with letters -/

/-- The letters that a word begins with, with what stands behind them. -/
structure Stem (stem behind : List Char) : Prop where
  start : stem.head?.any isNameStart
  letters : ∀ c ∈ stem, isNameChar c
  ends : ∀ c ∈ behind.head?, isNameChar c = false

theorem drop_takeWhile (p : Char → Bool) (cs : List Char) :
    cs.drop (cs.takeWhile p).length = cs.dropWhile p := by
  have dropped : (cs.takeWhile p ++ cs.dropWhile p).drop (cs.takeWhile p).length =
      cs.dropWhile p :=
    drop_left
  rwa [takeWhile_append_dropWhile] at dropped

theorem endsWord_letters {more : List Char} (letters : ∀ c ∈ more, isNameChar c)
    (complete : endsWord (more ++ behind)) : more = [] := by
  cases more with
  | nil => rfl
  | cons c more =>
    have word := (plainChar_of_isNameChar (letters c mem_cons_self)).word
    simp [endsWord, word] at complete

/-- What comes next is no blank and no end of a statement, if letters or a type mark come next. -/
theorem exists_visible {more : List Char} (letters : ∀ c ∈ more, isNameChar c)
    (marked : more = [] → behind.head?.any isTypeMark) :
    ∃ c cs, more ++ behind = c :: cs ∧ (isNameChar c || isTypeMark c) ∧ isGap c = false ∧
      c ∉ ['\r', ':', '\n', '\''] := by
  cases more with
  | nil =>
    cases behind with
    | nil => cases marked rfl
    | cons c behind =>
      have isMark : isTypeMark c := marked rfl
      have plain : ∀ c ∈ ['$', '%', '!', '#', '&'], isGap c = false ∧
          c ∉ ['\r', ':', '\n', '\''] := by
        decide
      obtain ⟨noGap, noEnd⟩ := plain c (by simpa [isTypeMark, or_assoc] using isMark)
      exact ⟨c, behind, rfl, by rw [isMark, Bool.or_true], noGap, noEnd⟩
  | cons c more =>
    have isChar := letters c mem_cons_self
    have plain := plainChar_of_isNameChar isChar
    refine ⟨c, more ++ behind, rfl, by rw [isChar, Bool.true_or], plain.gap, fun member => ?_⟩
    have ends : ∀ c ∈ ['\r', ':', '\n', '\''],
        c ∈ operatorStarts ++ ['\r', ':', '\n', '\'', '.', '&'] := by
      decide
    exact plain.other (ends c member)

namespace Stem

variable {stem : List Char} (isStem : Stem stem behind)

include isStem

theorem wholeWord_eq_none {word : String} (lower : ∀ w ∈ word.toList, w.isLower)
    (other : stem.map foldLetter ≠ word.toList) : wholeWord word (stem ++ behind) = none := by
  unfold wholeWord
  cases read : readWord word.toList (stem ++ behind) with
  | none => rfl
  | some rest =>
    obtain ⟨front, more, rfl, rfl, folded⟩ := exists_of_readWord lower isStem.ends read
    have incomplete : endsWord (more ++ behind) = false := by
      rw [Bool.eq_false_iff]
      intro complete
      obtain rfl := endsWord_letters
        (fun c member => isStem.letters c (mem_append_right _ member)) complete
      exact other (by rw [append_nil, folded])
    show (if endsWord (more ++ behind) then some word.length else none) = none
    rw [incomplete, if_neg Bool.false_ne_true]

theorem twoWords_eq_none {first : String} (lower : ∀ w ∈ first.toList, w.isLower)
    (lower' : ∀ w ∈ second.toList, w.isLower) {least : Nat}
    (other : least = 0 → stem.map foldLetter ≠ first.toList ++ second.toList)
    (apart : stem.map foldLetter = first.toList →
      readWord second.toList (behind.dropWhile isGap) = none) :
    twoWords first second least (stem ++ behind) = none := by
  unfold twoWords
  cases read : readWord first.toList (stem ++ behind) with
  | none => rfl
  | some rest =>
    obtain ⟨front, more, rfl, rfl, folded⟩ := exists_of_readWord lower isStem.ends read
    have letters : ∀ c ∈ more, isNameChar c :=
      fun c member => isStem.letters c (mem_append_right _ member)
    show ((readWord second.toList ((more ++ behind).drop
      ((more ++ behind).takeWhile isGap).length)).bind _) = none
    rw [drop_takeWhile]
    cases more with
    | nil =>
      rw [append_nil] at apart
      rw [nil_append, apart folded]
      rfl
    | cons c more =>
      have noGap : isGap c = false := (plainChar_of_isNameChar (letters c mem_cons_self)).gap
      have kept : ((c :: more) ++ behind).dropWhile isGap = (c :: more) ++ behind :=
        dropWhile_cons_of_neg (by rw [noGap]; exact Bool.false_ne_true)
      have adjacent : (((c :: more) ++ behind).takeWhile isGap).length = 0 := by
        rw [cons_append, takeWhile_cons_of_neg (by rw [noGap]; exact Bool.false_ne_true)]
        rfl
      rw [kept, adjacent]
      cases read' : readWord second.toList ((c :: more) ++ behind) with
      | none => rfl
      | some rest =>
        obtain ⟨front', more', whole, rfl, folded'⟩ :=
          exists_of_readWord lower' isStem.ends read'
        refine if_neg fun fits => ?_
        obtain ⟨least_le, complete⟩ := Bool.and_eq_true_iff.1 fits
        obtain rfl := endsWord_letters
          (fun c member => letters c (whole ▸ mem_append_right _ member)) complete
        refine other (Nat.le_zero.1 (of_decide_eq_true least_le)) ?_
        rw [whole, append_nil, map_append, folded, folded']

theorem exists_visible_of_readWord (lower : ∀ w ∈ word, w.isLower)
    (marked : stem.map foldLetter = word → behind.head?.any isTypeMark)
    (read : readWord word (stem ++ behind) = some rest) :
    ∃ c cs, rest = c :: cs ∧ (isNameChar c || isTypeMark c) ∧ isGap c = false ∧
      c ∉ ['\r', ':', '\n', '\''] := by
  obtain ⟨front, more, rfl, rfl, folded⟩ := exists_of_readWord lower isStem.ends read
  refine exists_visible (fun c member => isStem.letters c (mem_append_right _ member)) ?_
  rintro rfl
  exact marked (by rw [append_nil, folded])

theorem nextWord_eq_none
    (marked : stem.map foldLetter = "next".toList → behind.head?.any isTypeMark) :
    nextWord (stem ++ behind) = none := by
  unfold nextWord
  cases read : readWord "next".toList (stem ++ behind) with
  | none => rfl
  | some rest =>
    obtain ⟨c, cs, rfl, -, noGap, noEnd⟩ :=
      isStem.exists_visible_of_readWord (by decide) marked read
    simp only [mem_cons, not_mem_nil, or_false, not_or] at noEnd
    obtain ⟨noReturn, noColon, noFeed, noComment⟩ := noEnd
    have kept : (c :: cs).dropWhile (fun c => isGap c || c == '\r') = c :: cs :=
      dropWhile_cons_of_neg (by simp [noGap, noReturn])
    simp [lineEnds, kept, noColon, noFeed, noComment]

theorem remark_eq_none (marked : stem.map foldLetter = "rem".toList → behind.head?.any isTypeMark) :
    remark (stem ++ behind) = none := by
  unfold remark
  cases read : readWord "rem".toList (stem ++ behind) with
  | none => rfl
  | some rest =>
    obtain ⟨c, cs, rfl, continues, -, -⟩ :=
      isStem.exists_visible_of_readWord (by decide) marked read
    show (if isNameChar c || isTypeMark c then none else some _) = none
    rw [if_pos continues]

theorem exists_cons : ∃ c cs, stem = c :: cs ∧ isNameStart c ∧
    (cs ++ behind).takeWhile isNameChar = cs := by
  obtain ⟨start, letters, ends⟩ := isStem
  cases stem with
  | nil => cases start
  | cons c cs =>
    refine ⟨c, cs, rfl, start, ?_⟩
    rw [takeWhile_append_of_pos fun d member => letters d (mem_cons_of_mem _ member)]
    cases behind with
    | nil => simp
    | cons d behind => simp [ends d rfl]

theorem label_eq_none (noColon : behind.head? ≠ some ':') : label (stem ++ behind) = none := by
  obtain ⟨c, cs, rfl, start, body⟩ := isStem.exists_cons
  rw [cons_append, label, start, body, drop_left]
  cases behind with
  | nil => rfl
  | cons d behind =>
    have other : d ≠ ':' := fun same => noColon (congrArg some same)
    simp [other]

theorem name_eq {mark : List Char} (whole : behind = mark ++ rest) (short : mark.length ≤ 1)
    (typed : ∀ c ∈ mark, isTypeMark c) (stops : ∀ c ∈ rest.head?, isTypeMark c = false) :
    name (stem ++ behind) = some (stem ++ mark).length := by
  obtain ⟨c, cs, rfl, start, body⟩ := isStem.exists_cons
  rw [cons_append, name, if_pos start, body]
  dsimp only
  rw [drop_left, whole, optional_oneChar short typed stops, length_append, length_cons]
  congr 1
  omega

theorem number_eq_none : anyOf [decimal, hexadecimal] (stem ++ behind) = none := by
  obtain ⟨c, cs, rfl, start, -⟩ := isStem.exists_cons
  have isChar : isNameChar c := by rw [isNameChar, start, Bool.true_or]
  have plain := (plainChar_of_isNameChar isChar).other
  have noDigit := isDecimalDigit_of_isNameStart start
  have noPoint : c ≠ '.' := by
    rintro rfl
    exact plain (by decide)
  have noHex : c ≠ '&' := by
    rintro rfl
    exact plain (by decide)
  have noMantissa : mantissa (c :: (cs ++ behind)) = none := by
    simp [mantissa, many, noDigit, noPoint]
  have noDecimal : decimal (c :: (cs ++ behind)) = none := by
    rw [decimal, noMantissa]
    rfl
  have noHexadecimal : hexadecimal (c :: (cs ++ behind)) = none := by
    simp [hexadecimal, noHex]
  rw [cons_append, anyOf, findSome?_cons, noDecimal, findSome?_cons, noHexadecimal, findSome?_nil]

end Stem

/-! ## Words -/

/-- A word is made of letters and at most one type mark, and is not read as anything else. -/
structure WordParts (text : String) (stem mark : List Char) : Prop where
  whole : text.toList = stem ++ mark
  start : stem.head?.any isNameStart
  letters : ∀ c ∈ stem, isNameChar c
  short : mark.length ≤ 1
  typed : ∀ c ∈ mark, isTypeMark c
  joined : String.ofList (stem.map foldLetter) ∉ joinedWords
  opened : String.ofList (text.toList.map foldLetter) ∉ openWords

theorem exists_of_isWord {text : String} (word : isWord text) :
    ∃ stem mark, WordParts text stem mark := by
  simp only [isWord, Bool.and_eq_true, Bool.not_eq_true', contains_eq_mem,
    decide_eq_false_iff_not, decide_eq_true_eq, all_eq_true] at word
  obtain ⟨⟨⟨⟨start, short⟩, typed⟩, joined⟩, opened⟩ := word
  refine ⟨_, _, takeWhile_append_dropWhile.symm, ?_, fun c member => ?_, short, typed,
    joined, opened⟩
  · cases chars : text.toList with
    | nil => simp [chars] at start
    | cons c cs =>
      rw [chars] at start
      have isStart : isNameStart c := start
      have isChar : isNameChar c := by rw [isNameChar, isStart, Bool.true_or]
      rw [takeWhile_cons_of_pos isChar]
      exact start
  · exact mem_takeWhile_imp member

namespace WordParts

variable {text : String} {stem mark : List Char} (parts : WordParts text stem mark)

include parts

theorem stem_ne {joint : String} (isJoined : joint ∈ joinedWords) :
    stem.map foldLetter ≠ joint.toList := by
  intro same
  have joined := parts.joined
  rw [same, String.ofList_toList] at joined
  exact joined isJoined

theorem text_ne {word : String} (isOpen : word ∈ openWords) :
    text.toList.map foldLetter ≠ word.toList := by
  intro same
  have opened := parts.opened
  rw [same, String.ofList_toList] at opened
  exact opened isOpen

/-- Without a type mark the letters are the whole text. -/
theorem text_eq_or_mark (same : stem.map foldLetter = word) :
    (mark = [] ∧ text.toList.map foldLetter = word) ∨ ∃ d, mark = [d] ∧ isTypeMark d := by
  cases mark with
  | nil => exact .inl ⟨rfl, by rw [parts.whole, append_nil, same]⟩
  | cons d mark =>
    obtain rfl : mark = [] := length_eq_zero_iff.1 (by simpa using parts.short)
    exact .inr ⟨d, rfl, parts.typed d mem_cons_self⟩

theorem mark_plain {d : Char} (member : d ∈ mark) :
    isNameChar d = false ∧ isGap d = false ∧ d ≠ ':' := by
  have plain : ∀ c ∈ ['$', '%', '!', '#', '&'], isNameChar c = false ∧ isGap c = false ∧
      c ≠ ':' := by
    decide
  exact plain d (by simpa [isTypeMark, or_assoc] using parts.typed d member)

variable {c : Char} (ends : c = ' ' ∨ c = '\n') (rest : List Char)

include ends in
theorem isStem : Stem stem (mark ++ c :: rest) := by
  refine ⟨parts.start, parts.letters, fun d first => ?_⟩
  rw [head?_append] at first
  rcases Option.or_eq_some_iff.1 first with inMark | ⟨-, ⟨⟩⟩
  · exact (parts.mark_plain (mem_of_head? inMark)).1
  · rcases ends with rfl | rfl <;> rfl

theorem marked_of_open {word : String} (isOpen : word ∈ openWords)
    (same : stem.map foldLetter = word.toList) : (mark ++ c :: rest).head?.any isTypeMark := by
  rcases parts.text_eq_or_mark same with ⟨-, all⟩ | ⟨d, rfl, isMark⟩
  · exact absurd all (parts.text_ne isOpen)
  · exact isMark

include ends in
/-- Nothing but `exit` goes on with a second word. -/
theorem twoWords_eq_none {first : String} {least : Nat}
    (lower : ∀ w ∈ first.toList, w.isLower) (lower' : ∀ w ∈ second.toList, w.isLower)
    (filled : second ≠ "") (other : least = 0 → first ++ second ∈ joinedWords)
    (loose : text.toList.map foldLetter = first.toList →
      readWord second.toList ((c :: rest).dropWhile isGap) = none) :
    twoWords first second least (stem ++ (mark ++ c :: rest)) = none := by
  refine (parts.isStem ends rest).twoWords_eq_none lower lower' (fun adjacent => ?_) fun same => ?_
  · rw [← String.toList_append]
    exact parts.stem_ne (other adjacent)
  · rcases parts.text_eq_or_mark same with ⟨rfl, all⟩ | ⟨d, rfl, isMark⟩
    · exact loose all
    · obtain ⟨noChar, noGap, -⟩ := parts.mark_plain mem_cons_self
      rw [isNameChar, Bool.or_eq_false_iff] at noChar
      rw [singleton_append, dropWhile_cons_of_neg (by rw [noGap]; exact Bool.false_ne_true)]
      refine readWord_unnamed noChar.1 ?_ _
      cases chars : second.toList with
      | nil => exact absurd (String.toList_inj.1 chars) filled
      | cons w word => exact lower' w (chars ▸ mem_cons_self)

include ends in
theorem end_eq_none (lower : ∀ w ∈ second.toList, w.isLower)
    (filled : second ≠ "") (isJoined : "end" ++ second ∈ joinedWords) :
    twoWords "end" second 0 (stem ++ (mark ++ c :: rest)) = none :=
  parts.twoWords_eq_none ends rest (by decide) lower filled (fun _ => isJoined)
    fun all => absurd all (parts.text_ne (by decide))

include ends in
theorem exit_eq_none (lower : ∀ w ∈ second.toList, w.isLower)
    (filled : second ≠ "") (isJoined : "exit" ++ second ∈ joinedWords)
    (apart : text.toList.map foldLetter = "exit".toList →
      ∀ d ∈ ((c :: rest).dropWhile isGap).head?, second.toList.head? ≠ some (foldLetter d)) :
    twoWords "exit" second 0 (stem ++ (mark ++ c :: rest)) = none :=
  parts.twoWords_eq_none ends rest (by decide) lower filled (fun _ => isJoined)
    fun all => readWord_eq_none_of_head filled (apart all)

include ends in
theorem modifier_eq_none : anyOf (["public", "private", "protected", "override"].map wholeWord)
    (stem ++ (mark ++ c :: rest)) = none := by
  refine findSome?_eq_none_iff.2 (forall_mem_map.2 fun modifier member => ?_)
  have listed : ∀ word ∈ ["public", "private", "protected", "override"],
      (∀ w ∈ word.toList, w.isLower) ∧ word ∈ joinedWords := by
    decide
  obtain ⟨lower, isJoined⟩ := listed modifier member
  exact (parts.isStem ends rest).wholeWord_eq_none lower (parts.stem_ne isJoined)

include ends in
theorem label_eq_none : label (stem ++ (mark ++ c :: rest)) = none := by
  refine (parts.isStem ends rest).label_eq_none fun first => ?_
  rw [head?_append] at first
  rcases Option.or_eq_some_iff.1 first with inMark | ⟨-, ⟨⟩⟩
  · exact (parts.mark_plain (mem_of_head? inMark)).2.2 rfl
  · rcases ends with same | same <;> cases same

end WordParts

/-- A word in front of a blank or a line feed is taken as a whole. Only `exit` looks further. -/
theorem firstMatch_word {text : String} (word : isWord text) {c : Char} (ends : c = ' ' ∨ c = '\n')
    (noLoop : text.toList.map foldLetter = "exit".toList →
      ∀ d ∈ ((c :: rest).dropWhile isGap).head?, foldLetter d ≠ 'f' ∧ foldLetter d ≠ 'w') :
    firstMatch (text.toList ++ c :: rest) = some (some .name, text.length) := by
  obtain ⟨stem, mark, parts⟩ := exists_of_isWord word
  have isStem := parts.isStem ends rest
  have place : lexemes[20]? = some (some .name, name) := rfl
  have scanned : name (stem ++ (mark ++ c :: rest)) = some text.length := by
    rw [isStem.name_eq rfl parts.short parts.typed, ← parts.whole, String.length_toList]
    rintro d ⟨⟩
    rcases ends with rfl | rfl <;> rfl
  have operators : ∀ lexeme ∈ unnamedLexemes.take 3,
      lexeme.2 (stem ++ (mark ++ c :: rest)) = none := by
    obtain ⟨d, cs, rfl, start, -⟩ := isStem.exists_cons
    have isChar : isNameChar d := by rw [isNameChar, start, Bool.true_or]
    exact operators_eq_none
      (fun member => (plainChar_of_isNameChar isChar).other (mem_append_left _ member)) _
  have loops : anyOf [twoWords "end" "for" 0, nextWord] (stem ++ (mark ++ c :: rest)) = none := by
    have ended : twoWords "end" "for" 0 (stem ++ (mark ++ c :: rest)) = none :=
      parts.end_eq_none ends rest (by decide) (by decide) (by decide)
    have next := isStem.nextWord_eq_none (parts.marked_of_open rest (by decide))
    rw [anyOf, findSome?_cons, ended, findSome?_cons, next, findSome?_nil]
  have each : twoWords "for" "each" 1 (stem ++ (mark ++ c :: rest)) = none :=
    parts.twoWords_eq_none ends rest (by decide) (by decide) (by decide) (by simp)
      fun all => absurd all (parts.text_ne (by decide))
  have elses : twoWords "else" "if" 0 (stem ++ (mark ++ c :: rest)) = none :=
    parts.twoWords_eq_none ends rest (by decide) (by decide) (by decide) (fun _ => by decide)
      fun all => absurd all (parts.text_ne (by decide))
  rw [parts.whole, append_assoc, firstMatch]
  refine findSome?_scan place ?_ scanned
  simp only [unnamedLexemes, lexemes, drop_succ_cons, drop_zero, take_succ_cons,
    take_zero, cons_append, nil_append, forall_mem_cons] at operators ⊢
  obtain ⟨assigns, hash, shifts, -⟩ := operators
  exact ⟨parts.label_eq_none ends rest, assigns, loops,
    isStem.remark_eq_none (parts.marked_of_open rest (by decide)),
    parts.end_eq_none ends rest (by decide) (by decide) (by decide),
    parts.end_eq_none ends rest (by decide) (by decide) (by decide),
    parts.exit_eq_none ends rest (by decide) (by decide) (by decide)
      fun all d first same => (noLoop all d first).2 (Option.some.inj same).symm,
    parts.end_eq_none ends rest (by decide) (by decide) (by decide),
    parts.end_eq_none ends rest (by decide) (by decide) (by decide),
    parts.exit_eq_none ends rest (by decide) (by decide) (by decide)
      fun all d first same => (noLoop all d first).1 (Option.some.inj same).symm,
    parts.end_eq_none ends rest (by decide) (by decide) (by decide), each, elses,
    parts.end_eq_none ends rest (by decide) (by decide) (by decide),
    parts.end_eq_none ends rest (by decide) (by decide) (by decide),
    parts.end_eq_none ends rest (by decide) (by decide) (by decide), hash,
    parts.modifier_eq_none ends rest, shifts, isStem.number_eq_none, forall_mem_nil _⟩

end ChannelLint.Lexer
