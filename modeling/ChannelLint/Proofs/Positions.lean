import ChannelLint.Proofs.Casing.Places
import ChannelLint.Proofs.Splicing

/-!
# Offsets and positions

The binary search finds the last line that does not start behind an offset. So it gives the position
that counting lines and columns up to the offset gives. The search and the look-up of a position
among the line starts are inverse to each other: on the offsets of a text, and on the positions that
have their column on their line. Both keep the order.
-/
namespace ChannelLint

open List

section

variable {starts : List Nat} {i j s t a b : Nat} {p q : Position}

theorem start_le (sorted : starts.Pairwise (· < ·)) (le : i ≤ j) (left : starts[i]? = some s)
    (right : starts[j]? = some t) : s ≤ t := by
  obtain ⟨_, rfl⟩ := List.getElem?_eq_some_iff.1 left
  obtain ⟨_, rfl⟩ := List.getElem?_eq_some_iff.1 right
  rcases Nat.lt_or_eq_of_le le with less | rfl
  · exact Nat.le_of_lt (pairwise_iff_getElem.1 sorted i j _ _ less)
  · exact Nat.le_refl _

namespace Position.OnLine

/-- The lines behind the one of an offset start behind the offset. -/
theorem lt_start (sorted : starts.Pairwise (· < ·)) (onLine : p.OnLine starts a s)
    (later : p.line < j) (found : starts[j]? = some t) : a < t := by
  have inside : p.line + 1 < starts.length :=
    Nat.lt_of_le_of_lt later (List.getElem?_eq_some_iff.1 found).1
  have next := getElem?_eq_getElem inside
  exact Nat.lt_of_lt_of_le (onLine.behind _ next) (start_le sorted later next found)

theorem mono (sorted : starts.Pairwise (· < ·)) (one : p.OnLine starts a s)
    (other : q.OnLine starts b t) (le : a ≤ b) : p ≤ q := by
  have left := one.reached
  have right := other.reached
  rcases Nat.lt_trichotomy p.line q.line with before | same | behind
  · exact .inl before
  · obtain rfl : s = t := Option.some.inj (one.found.symm.trans (same ▸ other.found))
    exact .inr ⟨same, by omega⟩
  · have := other.lt_start sorted behind one.found
    omega

/-- An offset is on one line only. -/
theorem unique (sorted : starts.Pairwise (· < ·)) (one : p.OnLine starts a s)
    (other : q.OnLine starts a t) : p = q := by
  obtain ⟨line, column⟩ := p
  obtain ⟨line', column'⟩ := q
  have le : line < line' ∨ line = line' ∧ column ≤ column' := one.mono sorted other (Nat.le_refl a)
  have ge : line' < line ∨ line' = line ∧ column' ≤ column := other.mono sorted one (Nat.le_refl a)
  rw [Position.mk.injEq]
  omega

end Position.OnLine

end

/-! ## The search -/

namespace Locator

variable {l : Locator} {offset low high : Nat} {p : Position}

/-- What the search knows of its bounds. -/
structure Bounds (l : Locator) (offset low high : Nat) : Prop where
  ordered : low ≤ high
  inside : high ≤ l.starts.size
  before : ∀ i s, i < low → l.starts.toList[i]? = some s → s ≤ offset
  behind : ∀ i s, high ≤ i → l.starts.toList[i]? = some s → offset < s

theorem getElem?_starts {i : Nat} (inside : i < l.starts.size) :
    l.starts.toList[i]? = some (l.starts.getD i 0) := by
  simp [Array.getD, inside]

theorem Bounds.bisect (bounds : l.Bounds offset low high) :
    l.Bounds offset (bisect l.starts offset low high) (bisect l.starts offset low high) := by
  have inside := bounds.inside
  fun_induction ChannelLint.bisect l.starts offset low high with
  | case1 low high wide middle less ih =>
    have found := l.getElem?_starts (i := middle) (by omega)
    refine ih ⟨by omega, by omega, bounds.before, fun i s le other => ?_⟩ (by omega)
    exact Nat.lt_of_lt_of_le less (start_le l.sorted le found other)
  | case2 low high wide middle notLess ih =>
    have found := l.getElem?_starts (i := middle) (by omega)
    refine ih ⟨by omega, inside, fun i s lt other => ?_, bounds.behind⟩ inside
    exact (start_le l.sorted (Nat.le_of_lt_succ lt) other found).trans (Nat.le_of_not_lt notLess)
  | case3 low high narrow =>
    obtain rfl : low = high := Nat.le_antisymm bounds.ordered (Nat.le_of_not_lt narrow)
    exact bounds

theorem onLine_position (l : Locator) (offset : Nat) :
    (l.position offset).OnLine l.starts.toList offset
      (l.starts.getD (l.position offset).line 0) := by
  have all : l.Bounds offset 0 l.starts.size :=
    ⟨Nat.zero_le _, Nat.le_refl _, nofun, fun i s le found =>
      absurd (List.getElem?_eq_some_iff.1 found).1 (Nat.not_lt.2 le)⟩
  obtain ⟨-, inside, before, behind⟩ := all.bisect
  have first : 0 < bisect l.starts offset 0 l.starts.size := by
    by_contra none
    have := behind 0 0 (Nat.le_of_not_lt none) (by simpa using l.first)
    omega
  have found := l.getElem?_starts (i := (l.position offset).line) (by simp only [position]; omega)
  refine ⟨found, Nat.add_sub_of_le (before _ _ ?_ found), fun next => behind _ next ?_⟩
  · exact Nat.sub_one_lt_of_lt first
  · exact Nat.le_of_eq (Nat.sub_add_cancel first).symm

theorem position_eq {start : Nat} (onLine : p.OnLine l.starts.toList offset start) :
    l.position offset = p :=
  (l.onLine_position offset).unique l.sorted onLine

/-- The search gives what counting gives. -/
theorem position_eq_after {text : String} (inside : offset ≤ text.length) :
    (of text).position offset = Position.zero.after (text.toList.take offset) := by
  obtain ⟨start, onLine⟩ := onLine_of_split (take_append_drop offset text.toList).symm
  rw [length_take, String.length_toList, Nat.min_eq_left inside] at onLine
  exact position_eq onLine

end Locator

/-! ## The text of a line -/

/-- The line of a position is one of the text, and its column is on the line or right behind it. -/
def Position.Within (text : String) (p : Position) : Prop :=
  ∃ start, (lineStarts text)[p.line]? = some start ∧
    p.column ≤ ((text.toList.drop start).takeWhile (· ≠ '\n')).length

/-- The next line starts behind the line feed that ends this one. -/
theorem head_lineStartsFrom {offset next : Nat} {cs : List Char}
    (first : (lineStartsFrom offset cs)[0]? = some next) :
    next = offset + (cs.takeWhile (· ≠ '\n')).length + 1 := by
  fun_induction lineStartsFrom offset cs with
  | case1 => cases first
  | case2 offset c cs feed ih => simpa [eq_of_beq feed] using first.symm
  | case3 offset c cs other ih =>
    have ne : c ≠ '\n' := by simpa using other
    rw [ih first]
    simp [ne]
    omega

/-- Behind a line start come the starts of the lines in the text from there on. -/
theorem drop_lineStartsFrom {offset k start : Nat} {cs : List Char}
    (found : (lineStartsFrom offset cs)[k]? = some start) :
    ∃ front rest, cs = front ++ rest ∧ start = offset + front.length ∧
      (lineStartsFrom offset cs).drop (k + 1) = lineStartsFrom start rest := by
  fun_induction lineStartsFrom offset cs generalizing k with
  | case1 => cases found
  | case2 offset c cs feed ih =>
    cases k with
    | zero => exact ⟨[c], cs, rfl, (Option.some.inj found).symm, Option.some.inj found ▸ rfl⟩
    | succ k =>
      obtain ⟨front, rest, rfl, length, behind⟩ := ih found
      exact ⟨c :: front, rest, rfl, by rw [length_cons]; omega, behind⟩
  | case3 offset c cs other ih =>
    obtain ⟨front, rest, rfl, length, behind⟩ := ih found
    exact ⟨c :: front, rest, rfl, by rw [length_cons]; omega, behind⟩

variable {text : String} {p q : Position} {start : Nat}

theorem drop_lineStarts {k : Nat} (found : (lineStarts text)[k]? = some start) :
    start ≤ text.length ∧
      (lineStarts text).drop (k + 1) = lineStartsFrom start (text.toList.drop start) := by
  cases k with
  | zero =>
    cases found
    exact ⟨Nat.zero_le _, rfl⟩
  | succ k =>
    obtain ⟨front, rest, split, rfl, behind⟩ := drop_lineStartsFrom found
    rw [Nat.zero_add] at behind ⊢
    refine ⟨by simp [← String.length_toList, split], behind.trans ?_⟩
    rw [split, drop_left]

/-- A position within a text is on its line. -/
theorem Position.Within.onLine (within : p.Within text) :
    ∃ start, p.OnLine (lineStarts text) (offsetIn text p) start := by
  obtain ⟨start, found, le⟩ := within
  obtain ⟨inside, behind⟩ := drop_lineStarts found
  have onLine := (takeWhile_sublist (· ≠ '\n') (l := text.toList.drop start)).length_le
  rw [length_drop, String.length_toList] at onLine
  have offset : start + p.column = offsetIn text p := by
    rw [offsetIn, offsetOf, found]
    exact (Nat.min_eq_left (by omega)).symm
  refine ⟨start, found, offset, fun next nextFound => ?_⟩
  rw [← Nat.add_zero (p.line + 1), ← getElem?_drop, behind] at nextFound
  have := head_lineStartsFrom nextFound
  omega

theorem offsetIn_position {offset : Nat} (inside : offset ≤ text.length) :
    offsetIn text ((Locator.of text).position offset) = offset := by
  have onLine : ((Locator.of text).position offset).OnLine (lineStarts text) offset _ :=
    (Locator.of text).onLine_position offset
  rw [offsetIn, offsetOf, onLine.found]
  exact (congrArg (min · _) onLine.reached).trans (Nat.min_eq_left inside)

theorem offsetIn_mono (within : p.Within text) (le : p ≤ q) :
    offsetIn text p ≤ offsetIn text q := by
  obtain ⟨start, onLine⟩ := within.onLine
  have inside : offsetIn text p ≤ text.length := offsetOf_le _ _ _
  have offset := onLine.reached
  rw [offsetIn.eq_def text q, offsetOf]
  split
  · exact inside
  · next start' found =>
    rcases le with less | ⟨same, le⟩
    · have := onLine.lt_start (Locator.of text).sorted less found
      omega
    · have : start = start' := Option.some.inj (onLine.found.symm.trans (same ▸ found))
      omega

/-- The position of an offset and the offset of a position are inverse to each other and keep the
order, on the offsets of a text and on the positions within it. Counting gives the same position. -/
theorem position_inverse (text : String) :
    (∀ offset ≤ text.length, offsetIn text ((Locator.of text).position offset) = offset) ∧
    (∀ p, p.Within text → (Locator.of text).position (offsetIn text p) = p) ∧
    (∀ a b, a ≤ b → (Locator.of text).position a ≤ (Locator.of text).position b) ∧
    (∀ p q, p.Within text → p ≤ q → offsetIn text p ≤ offsetIn text q) ∧
    ∀ offset ≤ text.length,
      (Locator.of text).position offset = Position.zero.after (text.toList.take offset) := by
  refine ⟨fun _ => offsetIn_position, fun p within => ?_, fun a b le => ?_,
    fun _ _ => offsetIn_mono, fun _ => Locator.position_eq_after⟩
  · obtain ⟨start, onLine⟩ := within.onLine
    exact Locator.position_eq onLine
  · exact (Locator.onLine_position _ a).mono (Locator.sorted _) (Locator.onLine_position _ b) le

/-- An empty line, a position right behind a line, and the end of a text that ends a line. -/
theorem position_inverse_lines : let text := "ab\n\nc\n"
    let position := (Locator.of text).position
    offsetIn text (position 6) = 6 ∧ position (offsetIn text ⟨0, 2⟩) = ⟨0, 2⟩ ∧
      position (offsetIn text ⟨1, 0⟩) = ⟨1, 0⟩ ∧ position 2 ≤ position 3 ∧
      offsetIn text ⟨0, 2⟩ ≤ offsetIn text ⟨3, 9⟩ ∧ position 6 = ⟨3, 0⟩ := by
  intro text position
  obtain ⟨offsets, positions, mono, mono', counted⟩ := position_inverse text
  have first : Position.Within text ⟨0, 2⟩ := ⟨0, rfl, by decide⟩
  exact ⟨offsets 6 (by decide), positions _ first, positions _ ⟨3, by decide, by decide⟩,
    mono 2 3 (by decide), mono' _ _ first (by decide), (counted 6 (by decide)).trans (by decide)⟩

end ChannelLint
