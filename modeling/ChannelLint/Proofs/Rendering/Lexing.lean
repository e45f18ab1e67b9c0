import ChannelLint.Proofs.Rendering.Names

/-!
# Reading rendered words

In front of a blank or a line feed every word of a rendered expression is read as itself, and the
blanks between them are dropped. So the tokens of a rendered expression are its words.
-/
namespace ChannelLint

open List

namespace Lexer

theorem isWord_of_isFreeName {text : String} (free : isFreeName text) :
    isWord text ∧ classify .name text.toList = .name := by
  simp only [isFreeName, Bool.and_eq_true, Option.isNone_iff_eq_none] at free
  exact ⟨free.1, by rw [classify, if_pos rfl, free.2, Option.getD_none]⟩

end Lexer

namespace Word.Legible

open Lexer

variable {w : Word} (legible : w.Legible)

include legible

/-- In front of a blank or a line feed a word is read as itself. A name must not be taken for the
first word of a loop exit. -/
theorem exists_firstMatch {c : Char} (ends : c = ' ' ∨ c = '\n') {rest : List Char}
    (noLoop : w.terminal = .name → ∀ d ∈ ((c :: rest).dropWhile isGap).head?,
      Text.foldLetter d ≠ 'f' ∧ Text.foldLetter d ≠ 'w') :
    ∃ t, firstMatch (w.text.toList ++ c :: rest) = some (some t, w.text.length) ∧
      classify t w.text.toList = w.terminal := by
  cases legible with
  | name free =>
    obtain ⟨word, isName⟩ := isWord_of_isFreeName free
    exact ⟨.name, firstMatch_word word ends fun _ => noLoop rfl, isName⟩
  | number isNumber => exact ⟨.number, firstMatch_number isNumber ends rest, rfl⟩
  | string oneLine =>
    have single : c ≠ '"' := by rcases ends with rfl | rfl <;> decide
    exact ⟨.string, firstMatch_string oneLine single rest, rfl⟩
  | sign isSign =>
    exact ⟨w.terminal, firstMatch_sign isSign ends rest, if_neg (joint_of_mem isSign).noName⟩
  | keyword isKeyword =>
    have keywords : ∀ w ∈ Word.keywords, isWord w.text ∧
        w.text.toList.map Text.foldLetter ≠ "exit".toList ∧
        classify .name w.text.toList = w.terminal := by
      decide +kernel
    obtain ⟨word, noExit, isTerminal⟩ := keywords w isKeyword
    exact ⟨.name, firstMatch_word word ends fun isExit => absurd isExit noExit, isTerminal⟩

theorem head : ∃ c cs, w.text.toList = c :: cs ∧ isBlank c = false := by
  have fixed : ∀ w ∈ signs ++ Word.keywords, ∃ c cs, w.text.toList = c :: cs ∧
      isBlank c = false := by
    intro w member
    have visible : ∀ w ∈ signs ++ Word.keywords, w.text.toList.head?.any (!isBlank ·) := by decide
    have first := visible w member
    cases chars : w.text.toList with
    | nil => simp [chars] at first
    | cons c cs => exact ⟨c, cs, rfl, by simpa [chars] using first⟩
  cases legible with
  | name free =>
    obtain ⟨stem, mark, parts⟩ := exists_of_isWord (isWord_of_isFreeName free).1
    obtain ⟨c, cs, rfl, start, -⟩ := (parts.isStem (.inl rfl) []).exists_cons
    have isChar : isNameChar c := by rw [isNameChar, start, Bool.true_or]
    exact ⟨c, cs ++ mark, parts.whole, (plainChar_of_isNameChar isChar).blank⟩
  | number isNumber =>
    obtain ⟨c, cs, whole, -, visible, -⟩ := isNumber.head
    exact ⟨c, cs, whole, visible⟩
  | string => exact ⟨_, _, String.toList_ofList, rfl⟩
  | sign isSign => exact fixed w (mem_append_left _ isSign)
  | keyword isKeyword => exact fixed w (mem_append_right _ isKeyword)

end Word.Legible

namespace Lexer

/-- A text is read as tokens that spell the given words, up to the rest of it. -/
def Spells (cs : List Char) (ws : List Word) (rest : List Char) : Prop :=
  ∀ p, ∃ tokens q, tokens.map Token.word = ws ∧
    lexFrom p cs = ⟨tokens ++ (lexFrom q rest).tokens, (lexFrom q rest).ending⟩

theorem Spells.trans {cs cs' cs'' : List Char} {ws ws' : List Word} (first : Spells cs ws cs')
    (second : Spells cs' ws' cs'') : Spells cs (ws ++ ws') cs'' := by
  intro p
  obtain ⟨tokens, q, spelled, lexed⟩ := first p
  obtain ⟨tokens', q', spelled', lexed'⟩ := second q
  refine ⟨tokens ++ tokens', q', by rw [map_append, spelled, spelled'], ?_⟩
  rw [lexed, lexed', append_assoc]

/-- A lexeme that is kept. -/
theorem spells_token {t : Terminal} (c : Char) (cs rest : List Char)
    (found : firstMatch (c :: cs ++ rest) = some (some t, cs.length + 1)) :
    Spells (c :: cs ++ rest) [⟨classify t (c :: cs), String.ofList (c :: cs)⟩] rest := by
  intro p
  refine ⟨[⟨classify t (c :: cs), String.ofList (c :: cs), ⟨p, p.after (c :: cs)⟩⟩],
    p.after (c :: cs), rfl, ?_⟩
  rw [cons_append] at found ⊢
  rw [lexFrom, found]
  dsimp only
  rw [Nat.add_sub_cancel, take_left, drop_left]
  rfl

/-- A lexeme that is dropped. -/
theorem spells_nothing (c : Char) (cs rest : List Char)
    (found : firstMatch (c :: cs ++ rest) = some (none, cs.length + 1)) :
    Spells (c :: cs ++ rest) [] rest := by
  intro p
  refine ⟨[], p.after (c :: cs), rfl, ?_⟩
  rw [cons_append] at found ⊢
  rw [lexFrom, found]
  dsimp only
  rw [Nat.add_sub_cancel, take_left, drop_left]
  rfl

/-- A blank in front of a word is dropped. -/
theorem spells_blank {d : Char} (visible : isBlank d = false) (rest : List Char) :
    Spells (' ' :: d :: rest) [] (d :: rest) := by
  have scanned : many isBlank ([' '] ++ d :: rest) = some 1 := by
    refine many_append (by decide) ?_
    rintro c ⟨⟩
    exact visible
  have place : unnamedLexemes[8]? = some (none, many isBlank) := rfl
  have found : firstMatch (' ' :: d :: rest) = some (none, 1) := by
    rw [firstMatch_unnamed rfl]
    refine findSome?_scan place ?_ scanned
    simp only [unnamedLexemes, lexemes, drop_succ_cons, drop_zero, take_succ_cons,
      take_zero, cons_append, nil_append, forall_mem_cons]
    exact ⟨rfl, rfl, rfl, rfl, rfl, rfl, rfl, rfl, forall_mem_nil _⟩
  exact spells_nothing ' ' [] (d :: rest) found

theorem spells_word {w : Word} (legible : w.Legible) {c : Char} (ends : c = ' ' ∨ c = '\n')
    {rest : List Char} (noLoop : w.terminal = .name → ∀ d ∈ ((c :: rest).dropWhile isGap).head?,
      Text.foldLetter d ≠ 'f' ∧ Text.foldLetter d ≠ 'w') :
    Spells (w.text.toList ++ c :: rest) [w] (c :: rest) := by
  obtain ⟨t, found, isTerminal⟩ := legible.exists_firstMatch ends noLoop
  obtain ⟨d, ds, whole, -⟩ := legible.head
  have same : w = ⟨classify t (d :: ds), String.ofList (d :: ds)⟩ := by
    rw [← whole, isTerminal, String.ofList_toList]
  rw [← String.length_toList, whole] at found
  rw [whole, same]
  exact spells_token d ds (c :: rest) found

theorem exists_intercalate_cons (x : List Char) (xs : List (List Char)) :
    ∃ more, [' '].intercalate (x :: xs) = x ++ more := by
  cases xs with
  | nil => exact ⟨[], by rw [intercalate_singleton, append_nil]⟩
  | cons y ys => exact ⟨_, by rw [intercalate_cons_cons, append_assoc]⟩

/-- Readable words with blanks between them are read as these words. -/
theorem spells_words {ws : List Word} (readable : Word.Readable ws) (filled : ws ≠ [])
    (rest : List Char) :
    Spells ([' '].intercalate (ws.map (·.text.toList)) ++ '\n' :: rest) ws ('\n' :: rest) := by
  induction ws with
  | nil => exact absurd rfl filled
  | cons w ws ih =>
    have legible := readable.each w mem_cons_self
    cases ws with
    | nil =>
      rw [map_singleton, intercalate_singleton]
      refine spells_word legible (.inr rfl) ?_
      rintro - d ⟨⟩
      decide
    | cons next ws =>
      obtain ⟨follows, chained⟩ := isChain_cons_cons.1 readable.chained
      have others : Word.Readable (next :: ws) :=
        ⟨fun word member => readable.each word (mem_cons_of_mem _ member), chained⟩
      obtain ⟨d, ds, text, visible⟩ :=
        (readable.each next (mem_cons_of_mem _ mem_cons_self)).head
      obtain ⟨more, joined⟩ :=
        exists_intercalate_cons next.text.toList (ws.map (·.text.toList))
      have split : [' '].intercalate ((next :: ws).map (·.text.toList)) ++ '\n' :: rest =
          d :: (ds ++ more ++ '\n' :: rest) := by
        rw [map_cons, joined, text]
        rfl
      have noLoop : w.terminal = .name →
          ∀ c ∈ ((' ' :: d :: (ds ++ more ++ '\n' :: rest)).dropWhile isGap).head?,
            Text.foldLetter c ≠ 'f' ∧ Text.foldLetter c ≠ 'w' := by
        intro isName c first
        have noGap : isGap d = false := by
          simp only [isBlank, Bool.or_eq_false_iff] at visible
          simp only [isGap, Bool.or_eq_false_iff]
          exact visible.1.1
        rw [dropWhile_cons_of_pos rfl,
          dropWhile_cons_of_neg (by rw [noGap]; exact Bool.false_ne_true)] at first
        cases first
        simpa [Word.mayFollowName, text] using follows isName
      have whole : [' '].intercalate ((w :: next :: ws).map (·.text.toList)) ++ '\n' :: rest =
          w.text.toList ++ ' ' :: d :: (ds ++ more ++ '\n' :: rest) := by
        rw [← split]
        simp only [map_cons, intercalate_cons_cons, append_assoc, cons_append, nil_append]
      have behind := ih others (cons_ne_nil _ _)
      rw [split] at behind
      rw [whole]
      exact (spells_word legible (.inl rfl) noLoop).trans ((spells_blank visible _).trans behind)

end Lexer

end ChannelLint
