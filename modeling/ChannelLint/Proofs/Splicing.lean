import ChannelLint.Edit
import Mathlib

/-!
# Which edits are applied

Edits are sorted by where they start, the last one first, and an edit is left out if it reaches
beyond the start of the edit applied before it. What was applied is in order and does not overlap,
so the text is the original with those parts replaced. What was left out overlaps something that was
applied, and no choice of edits that do not overlap is larger.
-/
namespace ChannelLint

open List

namespace Splice

/-- A splice ends before another one starts, or where it starts. -/
def Before (a b : Splice) : Prop :=
  a.stop ≤ b.start

/-- Both can be applied to the same text. -/
def Compatible (a b : Splice) : Prop :=
  a.Before b ∨ b.Before a

variable {a b : Splice}

theorem follows_iff : a.follows b ↔ b.start < a.start ∨ a.start = b.start ∧ b.stop ≤ a.stop := by
  simp [follows]

theorem start_le_of_follows (h : a.follows b) : b.start ≤ a.start := by
  rw [follows_iff] at h
  omega

theorem follows_trans (a b c : Splice) (first : a.follows b) (second : b.follows c) :
    a.follows c := by
  rw [follows_iff] at *
  omega

theorem follows_total (a b : Splice) : a.follows b || b.follows a := by
  rw [Bool.or_eq_true, follows_iff, follows_iff]
  omega

/-- Of two compatible splices the one that is sorted behind ends before the other starts. -/
theorem before_of_follows (forward : a.start ≤ a.stop) (h : a.follows b) (fit : a.Compatible b) :
    b.Before a := by
  rw [follows_iff] at h
  unfold Compatible Before at *
  omega

end Splice

/-! ## The text between and behind the edits -/

/-- What follows `offset` in a text whose parts are replaced, when these are given in order. -/
def spliced (source : List Char) (offset : Nat) : List Splice → List Char
  | [] => source.drop offset
  | s :: rest => (source.take s.start).drop offset ++ s.text.toList ++ spliced source s.stop rest

section

variable {source : List Char} {kept : List Splice} {n : Nat}

/-- In front of the first part the text is the original. -/
theorem take_spliced (inside : n ≤ source.length) (front : ∀ s ∈ kept.head?, n ≤ s.start) :
    (spliced source 0 kept).take n = source.take n := by
  cases kept with
  | nil => rfl
  | cons s rest =>
    have le : n ≤ s.start := front s rfl
    have reaches : n ≤ (source.take s.start).length := by
      rw [length_take]
      exact le_min le inside
    rw [spliced, drop_zero, append_assoc, take_append_of_le_length reaches,
      take_take, Nat.min_eq_left le]

theorem drop_spliced (inside : n ≤ source.length) (front : ∀ s ∈ kept.head?, n ≤ s.start) :
    (spliced source 0 kept).drop n = spliced source n kept := by
  cases kept with
  | nil => rfl
  | cons s rest =>
    have reaches : n ≤ (source.take s.start).length := by
      rw [length_take]
      exact le_min (front s rfl) inside
    rw [spliced, spliced, drop_zero, append_assoc, append_assoc, drop_append_of_le_length reaches]

end

/-! ## One edit after the other -/

namespace Edited

/-- The edits `done` have been looked at. Those in `kept` were applied, the last one first. -/
structure Reached (source : List Char) (done kept : List Splice) (e : Edited) : Prop where
  all : (kept ++ e.overlaps).Perm done
  applied : e.applied = kept.length
  frontier : e.frontier = kept.head?.map (·.start)
  ordered : kept.Pairwise Splice.Before
  text : e.text = spliced source 0 kept
  overlap : ∀ s ∈ e.overlaps, ∃ k ∈ kept, ¬ s.Compatible k

variable {source : List Char} {done kept : List Splice} {e : Edited} {s : Splice}

/-- If the edits are equal or do not overlap, all of them were applied. -/
theorem Reached.mem_kept (r : e.Reached source done kept)
    (apart : ∀ a ∈ done, ∀ b ∈ done, a = b ∨ a.Compatible b) (member : s ∈ done) : s ∈ kept := by
  rcases mem_append.1 (r.all.mem_iff.2 member) with isKept | left
  · exact isKept
  · obtain ⟨k, isKept, overlap⟩ := r.overlap s left
    have isDone := r.all.subset (mem_append_left _ isKept)
    exact (apart s member k isDone).resolve_right overlap ▸ isKept

theorem Reached.apply (r : e.Reached source done kept) (doneForward : ∀ d ∈ done, d.start ≤ d.stop)
    (sorted : ∀ d ∈ done, d.follows s) (forward : s.start ≤ s.stop)
    (inside : s.stop ≤ source.length) : ∃ kept', (e.apply s).Reached source (s :: done) kept' := by
  have isDone {k : Splice} (member : k ∈ kept) : k ∈ done :=
    r.all.subset (mem_append_left _ member)
  unfold Edited.apply
  split
  · next blocked =>
    -- The edit applied last starts where this one has not ended yet.
    rw [r.frontier, Option.any_map, Option.any_eq_true] at blocked
    obtain ⟨k, isHead, reaches⟩ := blocked
    have member : k ∈ kept := mem_of_mem_head? isHead
    have follows := Splice.follows_iff.1 (sorted k (isDone member))
    refine ⟨kept, ?_, r.applied, r.frontier, r.ordered, r.text, ?_⟩
    · rw [← append_assoc]
      exact perm_append_singleton s _ |>.trans (r.all.cons s)
    · intro other listed
      rcases mem_append.1 listed with old | new
      · exact r.overlap other old
      · obtain rfl := mem_singleton.1 new
        refine ⟨k, member, ?_⟩
        have kForward := doneForward k (isDone member)
        rw [decide_eq_true_eq] at reaches
        unfold Splice.Compatible Splice.Before
        omega
  · next free =>
    have front : ∀ k ∈ kept.head?, s.stop ≤ k.start := by
      intro k isHead
      rw [r.frontier, Option.mem_def.1 isHead] at free
      simpa using free
    refine ⟨s :: kept, r.all.cons s, congrArg (· + 1) r.applied, rfl, ?_, ?_, ?_⟩
    · refine pairwise_cons.2 ⟨fun k member => ?_, r.ordered⟩
      cases kept with
      | nil => cases member
      | cons first rest =>
        have le : s.stop ≤ first.start := front first rfl
        rcases mem_cons.1 member with rfl | later
        · exact le
        · have behind : first.stop ≤ k.start := rel_of_pairwise_cons r.ordered later
          have := doneForward first (isDone mem_cons_self)
          unfold Splice.Before
          omega
    · have startFront : ∀ k ∈ kept.head?, s.start ≤ k.start := fun k isHead =>
        forward.trans (front k isHead)
      simp only [r.text, take_spliced (forward.trans inside) startFront, drop_spliced inside front,
        spliced, drop_zero]
    · intro other listed
      obtain ⟨k, member, conflict⟩ := r.overlap other listed
      exact ⟨k, mem_cons_of_mem _ member, conflict⟩

theorem Reached.foldl {rest : List Splice} (r : e.Reached source done kept)
    (sorted : rest.Pairwise (·.follows ·)) (behind : ∀ d ∈ done, ∀ s ∈ rest, d.follows s)
    (forward : ∀ s ∈ done ++ rest, s.start ≤ s.stop) (inside : ∀ s ∈ rest, s.stop ≤ source.length) :
    ∃ kept', (rest.foldl Edited.apply e).Reached source (rest.reverse ++ done) kept' := by
  induction rest generalizing e done kept with
  | nil => exact ⟨kept, r⟩
  | cons s rest ih =>
    obtain ⟨first, others⟩ := pairwise_cons.1 sorted
    obtain ⟨kept', next⟩ := r.apply (fun d member => forward d (mem_append_left _ member))
      (fun d member => behind d member s mem_cons_self)
      (forward s (mem_append_right _ mem_cons_self)) (inside s mem_cons_self)
    rw [reverse_cons, append_assoc, singleton_append]
    refine ih next others ?_ ?_ fun s member => inside s (mem_cons_of_mem _ member)
    · exact forall_mem_cons.2 ⟨first, fun d member s' listed =>
        behind d member s' (mem_cons_of_mem _ listed)⟩
    · intro s' listed
      refine forward s' (perm_middle.mem_iff.2 ?_)
      exact listed

/-- Of sorted splices, no compatible choice in front of the frontier is larger than what is applied.
The one that is chosen first starts no later than the one that is applied first, so leaving it out
leaves a choice in front of the new frontier. -/
theorem length_le_applied {rest chosen : List Splice} (sorted : rest.Pairwise (·.follows ·))
    (forward : ∀ s ∈ rest, s.start ≤ s.stop) (choice : chosen.Sublist rest)
    (fit : chosen.Pairwise Splice.Compatible) (front : ∀ c ∈ chosen, ∀ n ∈ e.frontier, c.stop ≤ n) :
    e.applied + chosen.length ≤ (rest.foldl Edited.apply e).applied := by
  induction rest generalizing e chosen with
  | nil => simp [sublist_nil.1 choice]
  | cons s rest ih =>
    obtain ⟨first, others⟩ := pairwise_cons.1 sorted
    have restForward : ∀ s ∈ rest, s.start ≤ s.stop := fun s member =>
      forward s (mem_cons_of_mem _ member)
    rw [foldl_cons]
    by_cases blocked : e.frontier.any (· < s.stop)
    · have skipped : chosen.Sublist rest := by
        cases choice with
        | cons _ skipped => exact skipped
        | cons_cons _ _ =>
          obtain ⟨n, isFrontier, reaches⟩ := (Option.any_eq_true _ _).1 blocked
          have := front s mem_cons_self n isFrontier
          rw [decide_eq_true_eq] at reaches
          omega
      simpa [Edited.apply, blocked] using
        ih (e := { e with overlaps := e.overlaps ++ [s] }) others restForward skipped fit front
    · have advanced : (e.apply s).frontier = some s.start ∧
          (e.apply s).applied = e.applied + 1 := by
        simp [Edited.apply, blocked]
      cases chosen with
      | nil =>
        have := ih (e := e.apply s) others restForward (nil_sublist rest) .nil nofun
        rw [advanced.2] at this
        exact Nat.le_of_succ_le this
      | cons c chosen =>
        obtain ⟨fitsFirst, fitRest⟩ := pairwise_cons.1 fit
        have starts : c.start ≤ s.start := by
          rcases mem_cons.1 (choice.subset mem_cons_self) with rfl | later
          · exact Nat.le_refl _
          · exact Splice.start_le_of_follows (first c later)
        have ends : ∀ d ∈ chosen, ∀ n ∈ (e.apply s).frontier, d.stop ≤ n := by
          intro d member n isFrontier
          rw [advanced.1] at isFrontier
          obtain rfl := Option.some.inj isFrontier
          have follows : c.follows d :=
            rel_of_pairwise_cons (sorted.sublist choice) member
          exact (Splice.before_of_follows (forward c (choice.subset mem_cons_self)) follows
            (fitsFirst d member)).trans starts
        have : (e.apply s).applied + chosen.length ≤ _ :=
          ih others restForward choice.tail fitRest ends
        rw [advanced.2] at this
        rw [length_cons]
        omega

end Edited

/-! ## All edits of a text -/

section

variable {text : String} {edits : List TextEdit}

theorem offsetOf_le (starts : List Nat) (length : Nat) (p : Position) :
    offsetOf starts length p ≤ length := by
  unfold offsetOf
  split
  · exact Nat.le_refl _
  · exact Nat.min_le_right _ _

theorem stop_le_of_mem_splices {s : Splice} (member : s ∈ splices text edits) :
    s.stop ≤ text.length := by
  obtain ⟨e, -, rfl⟩ := mem_map.1 member
  exact offsetOf_le _ _ _

theorem pairwise_sorted (ss : List Splice) : (ss.mergeSort Splice.follows).Pairwise (·.follows ·) :=
  pairwise_mergeSort Splice.follows_trans Splice.follows_total ss

/-- Sorting and the look at each edit, in one. -/
theorem exists_reached (forward : ∀ s ∈ splices text edits, s.start ≤ s.stop) :
    ∃ kept, (applyEdits text edits).Reached text.toList (splices text edits) kept := by
  have start : Edited.Reached text.toList [] [] ⟨text.toList, 0, [], none⟩ :=
    ⟨.refl _, rfl, rfl, .nil, rfl, nofun⟩
  obtain ⟨kept, r⟩ := start.foldl (pairwise_sorted (splices text edits)) nofun
    (fun s member => forward s (mem_mergeSort.1 member))
    (fun s member => text.length_toList ▸ stop_le_of_mem_splices (mem_mergeSort.1 member))
  refine ⟨kept, { r with all := r.all.trans ?_ }⟩
  rw [append_nil]
  exact (reverse_perm _).trans (mergeSort_perm _ _)

/-- A choice among the splices of edits is a choice among the edits. -/
theorem exists_edits_of_perm {ss : List Splice} (same : ss.Perm (splices text edits)) :
    ∃ es : List TextEdit, splices text es = ss ∧ es.Perm edits := by
  obtain ⟨es, isMap, perm⟩ :=
    (congrFun₂ (eq_map_comp_perm (TextEdit.splice (lineStarts text) text.length)) ss edits).mpr
      same
  exact ⟨es, isMap.symm, perm⟩

end

/-- Applying edits replaces the parts of a choice of edits that come one behind the other and keeps
everything between them; every edit that was not chosen overlaps a chosen one. -/
theorem applyEdits_splices (text : String) (edits : List TextEdit)
    (forward : ∀ s ∈ splices text edits, s.start ≤ s.stop) :
    ∃ kept left : List TextEdit, (kept ++ left).Perm edits ∧
      kept.length = (applyEdits text edits).applied ∧
      (splices text kept).Pairwise Splice.Before ∧
      (applyEdits text edits).text = spliced text.toList 0 (splices text kept) ∧
      ∀ s ∈ splices text left, ∃ k ∈ splices text kept, ¬ s.Compatible k := by
  obtain ⟨chosen, r⟩ := exists_reached forward
  obtain ⟨es, isMap, perm⟩ := exists_edits_of_perm r.all
  obtain ⟨kept, left, rfl, rfl, isLeft⟩ := map_eq_append_iff.1 isMap
  refine ⟨kept, left, perm, ?_, r.ordered, r.text, fun s member => r.overlap s ?_⟩
  · rw [r.applied, length_map]
  · rwa [← isLeft]

def threeLines : String :=
  "ab\ncdef\ng"

/-- Two edits that touch, one that overlaps both, two insertions at one place and one edit behind
the text. -/
def crossingEdits : List TextEdit :=
  [⟨⟨⟨0, 0⟩, ⟨0, 1⟩⟩, "x"⟩, ⟨⟨⟨0, 1⟩, ⟨1, 0⟩⟩, ""⟩, ⟨⟨⟨0, 0⟩, ⟨1, 2⟩⟩, "wide"⟩,
    ⟨⟨⟨1, 3⟩, ⟨1, 3⟩⟩, "+"⟩, ⟨⟨⟨1, 3⟩, ⟨1, 3⟩⟩, "+"⟩, ⟨⟨⟨7, 0⟩, ⟨9, 4⟩⟩, "!"⟩]

theorem applyEdits_splices_crossingEdits :
    (∀ s ∈ splices threeLines crossingEdits, s.start ≤ s.stop) ∧
    ∃ kept left : List TextEdit, (kept ++ left).Perm crossingEdits ∧
      kept.length = (applyEdits threeLines crossingEdits).applied ∧
      (splices threeLines kept).Pairwise Splice.Before ∧
      (applyEdits threeLines crossingEdits).text =
        spliced threeLines.toList 0 (splices threeLines kept) ∧
      ∀ s ∈ splices threeLines left, ∃ k ∈ splices threeLines kept, ¬ s.Compatible k := by
  have forward : ∀ s ∈ splices threeLines crossingEdits, s.start ≤ s.stop := by decide
  exact ⟨forward, applyEdits_splices threeLines crossingEdits forward⟩

/-- As many edits are applied as any choice of edits that do not overlap has. -/
theorem applied_isGreatest (text : String) (edits : List TextEdit)
    (forward : ∀ s ∈ splices text edits, s.start ≤ s.stop) :
    IsGreatest {n | ∃ chosen : List TextEdit, chosen.Subperm edits ∧
      (splices text chosen).Pairwise Splice.Compatible ∧ chosen.length = n}
      (applyEdits text edits).applied := by
  constructor
  · obtain ⟨chosen, r⟩ := exists_reached forward
    obtain ⟨es, isMap, perm⟩ := exists_edits_of_perm r.all
    obtain ⟨kept, left, rfl, rfl, -⟩ := map_eq_append_iff.1 isMap
    refine ⟨kept, (sublist_append_left kept left).subperm.trans perm.subperm,
      r.ordered.imp .inl, ?_⟩
    rw [r.applied, length_map]
  · rintro n ⟨chosen, ⟨es, same, sub⟩, fit, rfl⟩
    have among : (splices text chosen).Subperm ((splices text edits).mergeSort Splice.follows) :=
      List.Subperm.trans ⟨splices text es, same.map _, sub.map _⟩
        (mergeSort_perm _ _).symm.subperm
    obtain ⟨sorted, perm, isSublist⟩ := among
    have bound := Edited.length_le_applied (e := ⟨text.toList, 0, [], none⟩)
      (pairwise_sorted (splices text edits))
      (fun s member => forward s (mem_mergeSort.1 member)) isSublist
      ((perm.pairwise_iff .symm).2 fit) nofun
    rw [Nat.zero_add, perm.length_eq, splices, length_map] at bound
    exact bound

theorem applied_isGreatest_crossingEdits :
    (∀ s ∈ splices threeLines crossingEdits, s.start ≤ s.stop) ∧
    IsGreatest {n | ∃ chosen : List TextEdit, chosen.Subperm crossingEdits ∧
      (splices threeLines chosen).Pairwise Splice.Compatible ∧ chosen.length = n} 5 := by
  have forward : ∀ s ∈ splices threeLines crossingEdits, s.start ≤ s.stop := by decide
  have five : (applyEdits threeLines crossingEdits).applied = 5 := by cbv
  exact ⟨forward, five ▸ applied_isGreatest threeLines crossingEdits forward⟩

/-- The order of the edits does not matter if those with the same place have the same text. -/
theorem applyEdits_of_perm (text : String) {edits edits' : List TextEdit} (perm : edits.Perm edits')
    (agree : ∀ a ∈ splices text edits, ∀ b ∈ splices text edits,
      a.start = b.start → a.stop = b.stop → a.text = b.text) :
    applyEdits text edits = applyEdits text edits' := by
  have sorted : (splices text edits).mergeSort Splice.follows =
      (splices text edits').mergeSort Splice.follows := by
    refine List.Perm.eq_of_pairwise ?_ (pairwise_sorted _) (pairwise_sorted _) ?_
    · intro a b inFirst inSecond first second
      have inFirst := mem_mergeSort.1 inFirst
      have inSecond := (perm.map _).mem_iff.2 (mem_mergeSort.1 inSecond)
      rw [Splice.follows_iff] at first second
      have start : a.start = b.start := by omega
      have stop : a.stop = b.stop := by omega
      have text := agree a inFirst b inSecond start stop
      cases a
      cases b
      simp_all
    · exact (mergeSort_perm _ _).trans ((perm.map _).trans (mergeSort_perm _ _).symm)
  rw [applyEdits, applyEdits, sorted]

theorem applyEdits_of_perm_crossingEdits : crossingEdits.Perm crossingEdits.reverse ∧
    (∀ a ∈ splices threeLines crossingEdits, ∀ b ∈ splices threeLines crossingEdits,
      a.start = b.start → a.stop = b.stop → a.text = b.text) ∧
    applyEdits threeLines crossingEdits = applyEdits threeLines crossingEdits.reverse := by
  have perm : crossingEdits.Perm crossingEdits.reverse := (reverse_perm _).symm
  have agree : ∀ a ∈ splices threeLines crossingEdits,
      ∀ b ∈ splices threeLines crossingEdits,
      a.start = b.start → a.stop = b.stop → a.text = b.text := by decide
  exact ⟨perm, agree, applyEdits_of_perm threeLines perm agree⟩

end ChannelLint
