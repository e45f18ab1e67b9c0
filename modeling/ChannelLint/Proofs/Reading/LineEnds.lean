import ChannelLint.Proofs.Casing.Places
import ChannelLint.Text.Utf8

/-!
# Positions in a text with other line ends

A script is read with unified line ends and without its byte-order mark; edits are applied to the
text as it is in the file. A line feed behind a carriage return ends one line in both, so a position
means the same place in both texts. Two things move places: a carriage return without a line feed
ends a line in one of the texts alone, and the mark moves the rest of the first line.
-/
namespace ChannelLint

open List Position

variable {cs ds raw : List Char}

open Text

/-! ## Positions -/

namespace Position

theorem line_le_after (p : Position) (cs : List Char) : p.line ≤ (p.after cs).line := by
  induction cs generalizing p with
  | nil => exact Nat.le_refl _
  | cons c cs ih =>
    refine Nat.le_trans ?_ (ih (p.next c))
    unfold next
    split
    · exact Nat.le_succ _
    · exact Nat.le_refl _

theorem line_after (line column column' : Nat) (cs : List Char) :
    ((⟨line, column⟩ : Position).after cs).line = ((⟨line, column'⟩ : Position).after cs).line := by
  induction cs generalizing line column column' with
  | nil => rfl
  | cons c cs ih =>
    simp only [after, foldl_cons, next] at ih ⊢
    split
    · rfl
    · exact ih line (column + 1) (column' + 1)

/-- The column in front of a text does not matter behind its first line. -/
theorem after_column (line column column' : Nat)
    (behind : ((⟨line, column⟩ : Position).after cs).line ≠ line) :
    (⟨line, column'⟩ : Position).after cs = (⟨line, column⟩ : Position).after cs := by
  induction cs generalizing column column' with
  | nil => exact absurd rfl behind
  | cons c cs ih =>
    by_cases feed : c = '\n'
    · subst feed
      rfl
    · have next (column : Nat) : (⟨line, column⟩ : Position).next c = ⟨line, column + 1⟩ := by
        simp [Position.next, feed]
      simp only [after, foldl_cons, next] at behind ih ⊢
      exact ih _ _ behind

end Position

/-! ## Unified line ends -/

namespace Text

theorem unifyLineEnds_cons {c : Char} (plain : c ≠ '\r') (cs : List Char) :
    unifyLineEnds (c :: cs) = c :: unifyLineEnds cs := by
  rw [unifyLineEnds]
  · exact fun _ same => absurd same plain
  · exact fun same => absurd same plain

theorem head?_ne_feed (lone : ∀ rest, cs = '\n' :: rest → False) :
    cs.head? ≠ some '\n' := fun feed =>
  (head?_eq_some_iff.1 feed).elim lone

theorem unifyLineEnds_return (lone : cs.head? ≠ some '\n') :
    unifyLineEnds ('\r' :: cs) = '\n' :: unifyLineEnds cs := by
  rw [unifyLineEnds]
  rintro rest rfl
  exact lone rfl

/-- Line ends are unified part by part, unless a line feed begins the second part. -/
theorem unifyLineEnds_append (apart : ds.head? ≠ some '\n') :
    unifyLineEnds (cs ++ ds) = unifyLineEnds cs ++ unifyLineEnds ds := by
  fun_induction unifyLineEnds cs with
  | case1 rest ih => rw [cons_append, cons_append, unifyLineEnds, ih, cons_append]
  | case2 rest lone ih =>
    have alone : (rest ++ ds).head? ≠ some '\n' := by
      cases rest with
      | nil => exact apart
      | cons c rest =>
        rintro ⟨⟩
        exact lone rest rfl
    rw [cons_append, unifyLineEnds_return alone, ih, cons_append]
  | case3 c rest _ plain ih =>
    rw [cons_append, unifyLineEnds_cons plain, ih, cons_append]
  | case4 => rfl

/-- A place in the unified text comes from a place in the text. -/
theorem exists_of_unifyLineEnds_eq (split : unifyLineEnds raw = cs ++ ds) :
    ∃ before behind, raw = before ++ behind ∧ unifyLineEnds before = cs ∧
      unifyLineEnds behind = ds := by
  fun_induction unifyLineEnds raw generalizing cs with
  | case1 rest ih =>
    cases cs with
    | nil => exact ⟨[], _, rfl, rfl, by rw [unifyLineEnds]; exact split⟩
    | cons c cs =>
      obtain ⟨rfl, others⟩ := List.cons.inj split
      obtain ⟨before, behind, rfl, rfl, rfl⟩ := ih others
      exact ⟨'\r' :: '\n' :: before, behind, rfl, by rw [unifyLineEnds], rfl⟩
  | case2 rest lone ih =>
    cases cs with
    | nil => exact ⟨[], _, rfl, rfl, (unifyLineEnds_return (head?_ne_feed lone)).trans split⟩
    | cons c cs =>
      obtain ⟨rfl, others⟩ := List.cons.inj split
      obtain ⟨before, behind, rfl, rfl, rfl⟩ := ih others
      refine ⟨'\r' :: before, behind, rfl, unifyLineEnds_return fun feed => ?_, rfl⟩
      obtain ⟨more, rfl⟩ := head?_eq_some_iff.1 feed
      exact lone _ rfl
  | case3 c rest _ plain ih =>
    cases cs with
    | nil => exact ⟨[], _, rfl, rfl, (unifyLineEnds_cons plain rest).trans split⟩
    | cons d cs =>
      obtain ⟨rfl, others⟩ := List.cons.inj split
      obtain ⟨before, behind, rfl, rfl, rfl⟩ := ih others
      exact ⟨c :: before, behind, rfl, unifyLineEnds_cons plain before, rfl⟩
  | case4 =>
    obtain ⟨rfl, rfl⟩ := append_eq_nil_iff.1 split.symm
    exact ⟨[], [], rfl, rfl, rfl⟩

/-- Within a line the unified text is the text. -/
theorem exists_of_unifyLineEnds_eq_word {word : List Char} (inLine : '\n' ∉ word)
    (split : unifyLineEnds raw = word ++ ds) :
    ∃ behind, raw = word ++ behind ∧ unifyLineEnds behind = ds := by
  induction word generalizing raw with
  | nil => exact ⟨raw, rfl, split⟩
  | cons c word ih =>
    obtain ⟨other, rest⟩ := ne_and_not_mem_of_not_mem_cons inLine
    fun_cases unifyLineEnds raw with
    | case1 more => exact absurd (List.cons.inj split).1 other
    | case2 more lone =>
      rw [unifyLineEnds_return (head?_ne_feed lone)] at split
      exact absurd (List.cons.inj split).1 other
    | case3 d more _ plain =>
      rw [unifyLineEnds_cons plain] at split
      obtain ⟨rfl, others⟩ := List.cons.inj split
      obtain ⟨behind, rfl, unified⟩ := ih rest others
      exact ⟨behind, rfl, unified⟩
    | case4 => cases split

/-- If every carriage return stands in front of a line feed, positions behind the text and behind
the unified text are the same. -/
theorem after_unifyLineEnds (p : Position)
    (paired : ∀ before behind, cs = before ++ '\r' :: behind → behind.head? = some '\n') :
    p.after (unifyLineEnds cs) = p.after cs := by
  have tail {c : Char} {rest : List Char}
      (paired : ∀ before behind, c :: rest = before ++ '\r' :: behind →
        behind.head? = some '\n') :
      ∀ before behind, rest = before ++ '\r' :: behind → behind.head? = some '\n' :=
    fun before behind same => paired (c :: before) behind (congrArg (c :: ·) same)
  fun_induction unifyLineEnds cs generalizing p with
  | case1 rest ih =>
    have feed : (p.next '\r').next '\n' = p.next '\n' := by
      simp [Position.next]
    show (p.next '\n').after _ = ((p.next '\r').next '\n').after rest
    rw [feed, ih _ (tail (tail paired))]
  | case2 rest lone ih =>
    obtain ⟨more, rfl⟩ := head?_eq_some_iff.1 (paired [] rest rfl)
    exact absurd rfl (lone more)
  | case3 c rest _ plain ih => exact ih _ (tail paired)
  | case4 => rfl

/-- A carriage return without a line feed ends a line of the unified text. -/
theorem line_lt_of_lone {behind : List Char} (lone : behind.head? ≠ some '\n')
    (before : List Char) : (Position.zero.after (unifyLineEnds before)).line <
      (Position.zero.after (unifyLineEnds (before ++ '\r' :: behind))).line := by
  rw [unifyLineEnds_append (by simp), unifyLineEnds_return lone, after_append]
  exact line_le_after ((Position.zero.after (unifyLineEnds before)).next '\n') _

end Text

/-! ## Places in a file -/

/-- Every carriage return that ends a line in front of `line` stands in front of a line feed. -/
def ReturnsPaired (raw : List Char) (line : Nat) : Prop :=
  ∀ before behind, raw = before ++ '\r' :: behind →
    (Position.zero.after (unifyLineEnds before)).line < line → behind.head? = some '\n'

/-- The byte-order mark that a text may start with stays in front when line ends are unified. -/
theorem exists_mark (cs : List Char) :
    ∃ mark, (mark = [] ∨ mark = ['\ufeff'] ∧ cs.head? = some '\ufeff') ∧
      cs = mark ++ dropByteOrderMark cs ∧
      dropByteOrderMark (unifyLineEnds cs) = unifyLineEnds (dropByteOrderMark cs) := by
  by_cases marked : cs.head? = some '\ufeff'
  · obtain ⟨rest, rfl⟩ := head?_eq_some_iff.1 marked
    refine ⟨['\ufeff'], .inr ⟨rfl, rfl⟩, rfl, ?_⟩
    rw [unifyLineEnds_cons (by decide)]
    rfl
  · have stays : (unifyLineEnds cs).head? ≠ some '\ufeff' := by
      fun_cases unifyLineEnds cs with
      | case1 rest => simp
      | case2 rest lone => simp
      | case3 c rest _ plain => simpa using marked
      | case4 => simp
    rw [dropByteOrderMark_eq marked, dropByteOrderMark_eq stays]
    exact ⟨[], .inl rfl, rfl, rfl⟩

theorem line_after_mark {mark : List Char}
    (isMark : mark = [] ∨ mark = ['\ufeff'] ∧ raw.head? = some '\ufeff') (cs : List Char) :
    (Position.zero.after (unifyLineEnds (mark ++ cs))).line =
      (Position.zero.after (unifyLineEnds cs)).line := by
  rcases isMark with rfl | ⟨rfl, -⟩
  · rfl
  · rw [singleton_append, unifyLineEnds_cons (by decide)]
    exact line_after 0 1 0 _

/-- A name that stands in a script stands in its file at the same range, if neither the mark nor
lone carriage returns move its place. -/
theorem StandsIn.textAt_raw {raw : String} {i : Ident}
    (stands : StandsIn (unmarkedText (String.ofList (unifyLineEnds raw.toList))) i)
    (unmoved : raw.toList.head? = some '\ufeff' → i.range.start.line ≠ 0)
    (paired : ReturnsPaired raw.toList i.range.start.line) : textAt raw i.range = i.text := by
  have nonempty : i.text.toList ≠ [] := fun none =>
    stands.text_ne_empty (String.toList_inj.1 none)
  have inLine : '\n' ∉ i.text.toList := fun member =>
    absurd (all_eq_true.1 stands.isName _ member) (by decide)
  obtain ⟨_, _, split, range⟩ := stands.place
  obtain ⟨mark, isMark, whole, commutes⟩ := exists_mark raw.toList
  rw [unmarkedText, String.toList_ofList, String.toList_ofList, commutes, append_assoc]
    at split
  obtain ⟨front, rest, inRaw, rfl, splitRest⟩ := exists_of_unifyLineEnds_eq split
  obtain ⟨behind, rfl, -⟩ := exists_of_unifyLineEnds_eq_word inLine splitRest
  rw [inRaw, ← append_assoc] at whole
  rw [range] at unmoved paired ⊢
  dsimp only at unmoved paired
  have frontPaired : ∀ before behind, front = before ++ '\r' :: behind →
      behind.head? = some '\n' := by
    rintro before more rfl
    by_contra lone
    have alone : (more ++ (i.text.toList ++ behind)).head? ≠ some '\n' := by
      rw [head?_append, head?_append, Ne, Option.or_eq_some_iff, Option.or_eq_some_iff]
      rintro (feed | ⟨-, feed | ⟨none, -⟩⟩)
      · exact lone feed
      · exact inLine (mem_of_head? feed)
      · exact nonempty (head?_eq_none_iff.1 none)
    have inFile : raw.toList = (mark ++ before) ++ '\r' :: (more ++ (i.text.toList ++ behind)) := by
      rw [whole]
      simp only [append_assoc, cons_append]
    refine alone (paired _ _ inFile ?_)
    rw [line_after_mark isMark before]
    exact line_lt_of_lone lone before
  have start : Position.zero.after (unifyLineEnds front) = Position.zero.after (mark ++ front) := by
    rw [after_unifyLineEnds _ frontPaired] at unmoved ⊢
    rcases isMark with rfl | ⟨rfl, marked⟩
    · rfl
    · exact (after_column 0 0 1 (unmoved marked)).symm
  rw [after_append, start, ← after_append, textAt_after
    (whole.trans (append_assoc ..).symm), String.ofList_toList]

end ChannelLint
