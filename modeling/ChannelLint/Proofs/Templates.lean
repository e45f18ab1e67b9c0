import ChannelLint.Script.Template

/-!
# Where the expressions of a template stand

The expressions of a template are found from the left. Each begins behind a dollar sign with an
opening brace and runs to the brace that closes it. No opening is missed but those inside another
expression and those that are escaped.
-/
namespace ChannelLint.Template

open List

variable {cs front : List Char} {c : Char} {n : Nat} {found : List (Nat × Nat)}

/-! ## The closing brace -/

/-- How many braces are open, and whether a quoted text is. -/
structure Braces where
  depth : Int
  quoted : Bool

namespace Braces

/-- Behind one more character. Braces between quotes do not count. -/
def next (b : Braces) (c : Char) : Braces :=
  if c = '"' then { b with quoted := !b.quoted }
  else if b.quoted then b
  else if c = '\x7b' then { b with depth := b.depth + 1 }
  else if c = '\x7d' then { b with depth := b.depth - 1 }
  else b

def after (b : Braces) (cs : List Char) : Braces :=
  cs.foldl next b

/-- The first `length` characters leave a brace open, and the next one closes it, unless the text
ends there. -/
structure Closes (b : Braces) (cs : List Char) (length : Nat) : Prop where
  inside : length ≤ cs.length
  positive : ∀ n ≤ length, 0 < (b.after (cs.take n)).depth
  closed : length < cs.length →
    cs[length]? = some '\x7d' ∧ (b.after (cs.take (length + 1))).depth = 0

variable {b : Braces}

theorem Closes.cons (later : (b.next c).Closes cs n) (positive : 0 < b.depth) :
    b.Closes (c :: cs) (1 + n) := by
  rw [Nat.add_comm]
  refine ⟨Nat.succ_le_succ later.inside, fun m le => ?_,
    fun less => later.closed (Nat.lt_of_succ_lt_succ less)⟩
  cases m with
  | zero => exact positive
  | succ m => exact later.positive m (Nat.le_of_succ_le_succ le)

theorem closes_closingDistance (depth : Nat) (inString : Bool) (cs : List Char) :
    Closes ⟨depth + 1, inString⟩ cs (closingDistance depth inString cs) := by
  induction cs generalizing depth inString with
  | nil =>
    refine ⟨Nat.le_refl 0, fun n _ => ?_, fun less => absurd less (Nat.lt_irrefl 0)⟩
    rw [take_nil]
    exact Int.natCast_succ_pos depth
  | cons c cs ih =>
    have positive : 0 < (depth + 1 : Int) := Int.natCast_succ_pos depth
    have step (depth' : Nat) (inString' : Bool)
        (next : next ⟨depth + 1, inString⟩ c = ⟨depth' + 1, inString'⟩) :
        Closes ⟨depth + 1, inString⟩ (c :: cs) (1 + closingDistance depth' inString' cs) :=
      .cons (next ▸ ih depth' inString') positive
    cases inString with
    | true =>
      refine step depth (c != '"') ?_
      by_cases quote : c = '"' <;> simp [next, quote]
    | false =>
      unfold closingDistance
      simp only [beq_iff_eq]
      split
      · next quote => exact step depth true (by simp [next, quote])
      · next quote =>
        split
        · next opening => exact step (depth + 1) false (by simp [next, opening])
        · next opening =>
          split
          · next closing =>
            cases depth with
            | zero =>
              refine ⟨Nat.zero_le _, fun n le => ?_, fun _ => ⟨congrArg some closing, ?_⟩⟩
              · rw [Nat.le_zero.1 le]
                exact positive
              · simp [after, next, closing]
            | succ outer => exact step outer false (by simp [next, closing])
          · next closing => exact step depth false (by simp [next, quote, opening, closing])

end Braces

/-! ## The openings -/

/-- The number of backslashes at the end of a text. -/
def backslashes (front : List Char) : Nat :=
  (front.reverse.takeWhile (· == '\\')).length

theorem backslashes_escape (front : List Char) :
    backslashes (front ++ ['\\']) = backslashes front + 1 := by
  simp [backslashes]

theorem backslashes_other (other : c ≠ '\\') (front : List Char) :
    backslashes (front ++ [c]) = 0 := by
  simp [backslashes, other]

/-- An expression opens at this offset. Backslashes in front of it make pairs among themselves, so
that none of them escapes the dollar sign. -/
structure Opens (cs : List Char) (i : Nat) : Prop where
  dollar : cs[i]? = some '$'
  brace : cs[i + 1]? = some '\x7b'
  unescaped : backslashes (cs.take i) % 2 = 0

/-- An expression runs from behind its opening to its closing brace. -/
structure IsSpan (cs : List Char) (span : Nat × Nat) : Prop where
  opens : ∃ i, span.1 = i + 2 ∧ Opens cs i
  forward : span.1 ≤ span.2
  closes : Braces.Closes ⟨1, false⟩ (cs.drop span.1) (span.2 - span.1)

/-- The expressions of a text that open at the offset `n` or later. -/
structure Scanned (cs : List Char) (n : Nat) (found : List (Nat × Nat)) : Prop where
  each : ∀ span ∈ found, n + 2 ≤ span.1 ∧ IsSpan cs span
  ordered : found.Pairwise fun a b => a.2 < b.1
  complete : ∀ i, n ≤ i → Opens cs i → (∀ span ∈ found, ¬ (span.1 ≤ i ∧ i < span.2)) →
    ∃ stop, (i + 2, stop) ∈ found

theorem Opens.lt_length {i : Nat} (opens : Opens cs i) : i + 1 < cs.length :=
  (List.getElem?_eq_some_iff.1 opens.brace).1

theorem scanned_nil (behind : cs.length ≤ n) : Scanned cs n [] := by
  refine ⟨forall_mem_nil _, .nil, fun i le opens _ => ?_⟩
  have inside := opens.lt_length
  omega

/-- Nothing opens at the offset `n`. -/
theorem Scanned.skip (later : Scanned cs (n + 1) found) (closed : ¬ Opens cs n) :
    Scanned cs n found := by
  refine ⟨fun span member => ⟨?_, (later.each span member).2⟩, later.ordered,
    fun i le opens => later.complete i ?_ opens⟩
  · have start := (later.each span member).1
    omega
  · rcases Nat.lt_or_eq_of_le le with less | rfl
    · exact less
    · exact absurd opens closed

/-- What opens behind an expression and not in it opens behind its closing brace. -/
theorem Braces.Closes.le_of_outside {length i : Nat}
    (closes : Closes ⟨1, false⟩ (cs.drop (n + 2)) length) (opens : Opens cs n) (behind : n < i)
    (opensThere : Opens cs i) (outside : ¬ (n + 2 ≤ i ∧ i < n + 2 + length)) :
    n + 2 + length + 1 ≤ i := by
  have inside := opensThere.lt_length
  have notBrace : i ≠ n + 1 := by
    rintro rfl
    cases opens.brace.symm.trans opensThere.dollar
  have notClosing : i ≠ n + 2 + length := by
    rintro rfl
    have closed := closes.closed (by rw [length_drop]; omega)
    rw [getElem?_drop, opensThere.dollar] at closed
    cases closed.1
  omega

theorem Scanned.cons {length : Nat} (later : Scanned cs (n + 2 + length + 1) found)
    (opens : Opens cs n) (closes : Braces.Closes ⟨1, false⟩ (cs.drop (n + 2)) length) :
    Scanned cs n ((n + 2, n + 2 + length) :: found) := by
  refine ⟨forall_mem_cons.2 ⟨⟨Nat.le_refl _, ⟨n, rfl, opens⟩, Nat.le_add_right _ _, ?_⟩,
    fun span member => ⟨?_, (later.each span member).2⟩⟩,
    pairwise_cons.2 ⟨fun span member => ?_, later.ordered⟩, fun i le opensThere outside => ?_⟩
  · simpa using closes
  · have start := (later.each span member).1
    omega
  · have start := (later.each span member).1
    omega
  · obtain ⟨notHere, notLater⟩ := forall_mem_cons.1 outside
    rcases Nat.lt_or_eq_of_le le with less | rfl
    · obtain ⟨stop, member⟩ := later.complete i (closes.le_of_outside opens less opensThere notHere)
        opensThere notLater
      exact ⟨stop, mem_cons_of_mem _ member⟩
    · exact ⟨_, mem_cons_self⟩

/-- All expressions behind `front` are found, if it does not end between a backslash and the
character that this escapes. -/
theorem scanned_spansFrom (offset : Nat) (cs : List Char) :
    ∀ front, front.length = offset → backslashes front % 2 = 0 →
      Scanned (front ++ cs) offset (spansFrom offset cs) := by
  fun_induction spansFrom offset cs with
  | case1 offset =>
    rintro front rfl -
    exact scanned_nil (by simp)
  | case2 offset rest ih =>
    rintro front rfl even
    have escape : ¬ Opens (front ++ '\\' :: rest) front.length := by
      intro opens
      simpa using opens.dollar
    refine .skip ?_ escape
    cases rest with
    | nil =>
      rw [drop_nil, spansFrom]
      exact scanned_nil (by simp)
    | cons c rest =>
      have odd : backslashes (front ++ ['\\']) % 2 = 1 := by
        rw [backslashes_escape]
        omega
      have whole : front ++ '\\' :: c :: rest = front ++ ['\\'] ++ [c] ++ rest := by simp
      have escaped : ¬ Opens (front ++ '\\' :: c :: rest) (front.length + 1) := by
        intro opens
        have even' := opens.unescaped
        rw [whole, append_assoc _ [c], take_left' (by simp), odd] at even'
        cases even'
      refine .skip ?_ escaped
      rw [whole]
      refine ih _ (by simp) ?_
      by_cases again : c = '\\'
      · rw [again, backslashes_escape]
        omega
      · rw [backslashes_other again]
  | case3 offset rest length stop ih =>
    rintro front rfl even
    have opens : Opens (front ++ '$' :: '\x7b' :: rest) front.length :=
      ⟨by simp, by simp, by rwa [take_left]⟩
    have closes : Braces.Closes ⟨1, false⟩ rest length := Braces.closes_closingDistance 0 false rest
    have behind : (front ++ '$' :: '\x7b' :: rest).drop (front.length + 2) = rest :=
      drop_length_add_append 2
    refine Scanned.cons ?_ opens (behind.symm ▸ closes)
    rcases Nat.lt_or_eq_of_le closes.inside with less | all
    · obtain ⟨_, closing⟩ := List.getElem?_eq_some_iff.1 (closes.closed less).1
      have whole : front ++ '$' :: '\x7b' :: rest =
          front ++ '$' :: '\x7b' :: rest.take length ++ ['\x7d'] ++ rest.drop (length + 1) := by
        have split := take_append_drop length rest
        rw [drop_eq_getElem_cons less, closing] at split
        simp [split]
      rw [whole]
      refine ih _ ?_ ?_
      · simp only [length_append, length_cons, length_take, length_nil,
          Nat.min_eq_left closes.inside]
        omega
      · rw [backslashes_other (by decide)]
    · rw [drop_of_length_le (by omega), spansFrom]
      refine scanned_nil ?_
      simp only [length_append, length_cons]
      omega
  | case4 offset c rest escape opening ih =>
    rintro front rfl even
    have closed : ¬ Opens (front ++ c :: rest) front.length := by
      intro opens
      have dollar : c = '$' := by simpa using opens.dollar
      obtain ⟨d, rest, rfl⟩ : ∃ d rest', rest = d :: rest' :=
        exists_cons_of_length_pos (by simpa using opens.lt_length)
      exact opening rest dollar (by simpa using opens.brace)
    refine .skip ?_ closed
    rw [append_cons]
    exact ih _ (by simp) (by rw [backslashes_other escape])

theorem scanned_spans (text : String) : Scanned text.toList 0 (spans text) :=
  scanned_spansFrom 0 text.toList [] rfl rfl

theorem IsSpan.stop_le {span : Nat × Nat} (isSpan : IsSpan cs span) : span.2 ≤ cs.length := by
  obtain ⟨i, start, opens⟩ := isSpan.opens
  have inside := opens.lt_length
  have length := isSpan.closes.inside
  rw [length_drop] at length
  omega

/-- The expressions of a template stand in its text one behind the other. Each of them begins behind
an opening and runs to the brace that closes it, or to the end of the text. What opens outside of
them and is not escaped opens one of them. -/
theorem spans_exact (text : String) :
    (∀ span ∈ spans text, 2 ≤ span.1 ∧ span.1 ≤ span.2 ∧ span.2 ≤ text.length ∧
      IsSpan text.toList span) ∧
    ((spans text).Pairwise fun a b => a.2 < b.1) ∧
    ∀ i, Opens text.toList i → (∀ span ∈ spans text, ¬ (span.1 ≤ i ∧ i < span.2)) →
      ∃ stop, (i + 2, stop) ∈ spans text := by
  have scanned := scanned_spans text
  refine ⟨fun span member => ?_, scanned.ordered, fun i => scanned.complete i (Nat.zero_le i)⟩
  obtain ⟨start, isSpan⟩ := scanned.each span member
  exact ⟨start, isSpan.forward, String.length_toList ▸ isSpan.stop_le, isSpan⟩

/-- An escaped opening, a brace between quotes, and an expression that is not closed. -/
theorem spans_exact_quoted : let text := "\\$\x7ba\x7d$\x7b\"\x7d\"\x7d$\x7bb"
    spans text = [(7, 10), (13, 14)] ∧ IsSpan text.toList (7, 10) ∧
      Opens text.toList 11 ∧ ∃ stop, (13, stop) ∈ spans text := by
  intro text
  have found : spans text = [(7, 10), (13, 14)] := by
    simp [text, spans, spansFrom, closingDistance]
  have opens : Opens text.toList 11 := ⟨by decide, by decide, by decide⟩
  obtain ⟨each, -, complete⟩ := spans_exact text
  exact ⟨found, (each (7, 10) (by simp [found])).2.2.2, opens, complete 11 opens (by simp [found])⟩

end ChannelLint.Template
