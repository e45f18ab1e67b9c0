import ChannelLint.Proofs.Casing.Letters
import ChannelLint.Scope

/-!
# Dotted names

A dotted name and the list of its segments determine each other, because a segment holds no dot.
Lower case acts on each segment by itself and leaves a dotted name that has it already as it is.
-/
namespace ChannelLint

open List

variable {c : Char} {s : String}

namespace Text

/-! ## Lower case, letter by letter -/

/-- The lower case of a letter that may stand in a dotted name. -/
def lowerLetter (c : Char) : List Char :=
  if c = 'İ' then ['i', '\u0307'] else [uncase c]

/-- The characters of dotted names in any case: in lower case U+0130 ends with U+0307. -/
def isDottedLetter (c : Char) : Bool :=
  isNameLetter c || c == '.' || c == '\u0307'

def isDotted (s : String) : Bool :=
  s.toList.all isDottedLetter

theorem lowerFrom_dottedLetter (h : isDottedLetter c) (before cs : List Char) :
    lowerFrom before (c :: cs) = lowerLetter c ++ lowerFrom (c :: before) cs := by
  simp only [isDottedLetter, Bool.or_eq_true, beq_iff_eq] at h
  obtain (letter | rfl) | rfl := h
  · obtain rfl | plain := isPlainLetter_of_isNameLetter letter
    · exact lowerFrom_dotted before cs
    · have other : c ≠ 'İ' := by
        rintro rfl
        revert plain
        decide
      rw [lowerFrom_plain plain, lowerLetter, if_neg other]
      rfl
  · exact lowerFrom_plain (by decide) before cs
  · have small : lowerChar '\u0307' = '\u0307' := by decide +kernel
    rw [lowerFrom, small]
    rfl

theorem toList_lower (h : isDotted s) : (lower s).toList = s.toList.flatMap lowerLetter := by
  have letters (before cs : List Char) (h : cs.all isDottedLetter) :
      lowerFrom before cs = cs.flatMap lowerLetter := by
    induction cs generalizing before with
    | nil => rfl
    | cons c cs ih =>
      rw [all_cons, Bool.and_eq_true] at h
      rw [lowerFrom_dottedLetter h.1, ih _ h.2, flatMap_cons]
  rw [lower_eq, String.toList_ofList, letters [] _ h]

theorem isNameLetter_uncase (c : Char) : isNameLetter (uncase c) = isNameLetter c :=
  uncase_congr isNameLetter (by decide +kernel) c

theorem isDottedLetter_uncase (c : Char) : isDottedLetter (uncase c) = isDottedLetter c := by
  rw [isDottedLetter, isDottedLetter, isNameLetter_uncase, uncase_beq (by decide),
    uncase_beq (by decide)]

/-- The letters of the lower case are in lower case. -/
theorem lowerLetter_eq_self {d : Char} (h : d ∈ lowerLetter c) : lowerLetter d = [d] := by
  unfold lowerLetter at h
  split at h
  · revert h
    have each : ∀ d ∈ ['i', '\u0307'], lowerLetter d = [d] :=
      forall_mem_cons.2 ⟨by decide, forall_mem_singleton.2 (by decide)⟩
    exact each d
  · next other =>
    obtain rfl := mem_singleton.1 h
    have stays : uncase c ≠ 'İ' := fun same => other ((uncase_eq_iff (by decide) c).1 same)
    rw [lowerLetter, if_neg stays, uncase_uncase]

theorem isDottedLetter_of_mem_lowerLetter {d : Char} (h : isDottedLetter c)
    (member : d ∈ lowerLetter c) : isDottedLetter d := by
  unfold lowerLetter at member
  split at member
  · revert member
    have each : ∀ d ∈ ['i', '\u0307'], isDottedLetter d :=
      forall_mem_cons.2 ⟨by decide, forall_mem_singleton.2 (by decide)⟩
    exact each d
  · obtain rfl := mem_singleton.1 member
    rwa [isDottedLetter_uncase]

theorem isDotted_lower (h : isDotted s) : isDotted (lower s) := by
  rw [isDotted, toList_lower h, all_eq_true]
  intro d member
  obtain ⟨c, inText, inLetter⟩ := mem_flatMap.1 member
  exact isDottedLetter_of_mem_lowerLetter (all_eq_true.1 h c inText) inLetter

theorem lower_lower (h : isDotted s) : lower (lower s) = lower s := by
  apply String.toList_inj.1
  rw [toList_lower (isDotted_lower h), toList_lower h, flatMap_assoc]
  refine flatMap_congr fun c _ => ?_
  calc (lowerLetter c).flatMap lowerLetter
      = (lowerLetter c).flatMap fun d => [d] :=
        flatMap_congr fun d member => lowerLetter_eq_self member
    _ = lowerLetter c := flatMap_singleton' _

theorem isDotted_append {t : String} (hs : isDotted s) (ht : isDotted t) : isDotted (s ++ t) := by
  rw [isDotted, String.toList_append, all_append, Bool.and_eq_true]
  exact ⟨hs, ht⟩

theorem lower_append {t : String} (hs : isDotted s) (ht : isDotted t) :
    lower (s ++ t) = lower s ++ lower t := by
  apply String.toList_inj.1
  rw [toList_lower (isDotted_append hs ht), String.toList_append, String.toList_append,
    toList_lower hs, toList_lower ht, flatMap_append]

theorem isDotted_of_isName (h : isName s) : isDotted s :=
  all_eq_true.2 fun c member => by simp [isDottedLetter, all_eq_true.1 h c member]

end Text

open Text

/-! ## Segments -/

variable {segments first second : List String}

/-- A segment of a dotted name. -/
structure IsSegment (s : String) : Prop where
  isName : isName s
  nonempty : s ≠ ""

/-- A dotted name with the given segments. -/
def dotted (segments : List String) : String :=
  ".".intercalate segments

theorem dotted_cons (more : segments ≠ []) :
    dotted (s :: segments) = s ++ "." ++ dotted segments := by
  rw [dotted, dotted, String.intercalate_cons_of_ne_nil more, String.append_assoc]

theorem dotted_append (hfirst : first ≠ []) (hsecond : second ≠ []) :
    dotted (first ++ second) = dotted first ++ "." ++ dotted second := by
  rw [dotted, dotted, dotted, String.intercalate_append_of_ne_nil hfirst hsecond]

/-- A text that stands between the dots of dotted names. -/
def Dotless (s : String) : Prop :=
  '.' ∉ s.toList

theorem dottedParts_dotted (each : ∀ s ∈ segments, Dotless s) (nonempty : segments ≠ []) :
    dottedParts (dotted segments) = segments := by
  have parts : ∀ l ∈ segments.map String.toList, '.' ∉ l := forall_mem_map.2 each
  have split := splitOn_intercalate '.' parts (by simpa using nonempty)
  rw [dottedParts, dotted, String.toList_intercalate]
  change ((['.'].intercalate (segments.map String.toList)).splitOn '.').map _ = _
  rw [split, map_map]
  exact (map_congr_left fun s _ => String.ofList_toList).trans (map_id _)

/-- Dotted names with the same text have the same segments. -/
theorem dotted_inj (hfirst : ∀ s ∈ first, Dotless s) (hsecond : ∀ s ∈ second, Dotless s)
    (one : first ≠ []) (two : second ≠ []) : dotted first = dotted second ↔ first = second := by
  refine ⟨fun same => ?_, congrArg dotted⟩
  rw [← dottedParts_dotted hfirst one, same, dottedParts_dotted hsecond two]

namespace IsSegment

theorem dotless (h : IsSegment s) : Dotless s := fun member =>
  absurd (all_eq_true.1 h.isName _ member) (by decide)

theorem dotless_lower (h : IsSegment s) : Dotless (lower s) := by
  intro member
  rw [toList_lower (isDotted_of_isName h.isName)] at member
  obtain ⟨c, inText, inLetter⟩ := mem_flatMap.1 member
  unfold lowerLetter at inLetter
  split at inLetter
  · revert inLetter
    decide
  · have same : uncase c = '.' := (mem_singleton.1 inLetter).symm
    rw [uncase_eq_iff (by decide)] at same
    exact h.dotless (same ▸ inText)

theorem lower_ne_empty (h : IsSegment s) : lower s ≠ "" := by
  intro empty
  have none := toList_lower (isDotted_of_isName h.isName)
  rw [empty] at none
  refine h.nonempty (String.toList_inj.1 (eq_nil_iff_forall_not_mem.2 fun c member => ?_))
  have gone := flatMap_eq_nil_iff.1 none.symm c member
  unfold lowerLetter at gone
  split at gone <;> cases gone

end IsSegment

theorem isDotted_dotted (each : ∀ s ∈ segments, isDotted s) : isDotted (dotted segments) := by
  induction segments with
  | nil => decide
  | cons s rest ih =>
    obtain ⟨first, others⟩ := forall_mem_cons.1 each
    by_cases last : rest = []
    · subst last
      rwa [dotted, String.intercalate_singleton]
    · rw [dotted_cons last]
      exact isDotted_append (isDotted_append first (by decide)) (ih others)

/-- Lower case acts on each segment by itself. -/
theorem lower_dotted (each : ∀ s ∈ segments, isDotted s) :
    lower (dotted segments) = dotted (segments.map lower) := by
  induction segments with
  | nil => decide
  | cons s rest ih =>
    obtain ⟨first, others⟩ := forall_mem_cons.1 each
    by_cases last : rest = []
    · subst last
      rw [map_cons, map_nil, dotted, dotted, String.intercalate_singleton,
        String.intercalate_singleton]
    · have dot : isDotted "." := by decide
      rw [map_cons, dotted_cons last, dotted_cons (by simpa using last), ← ih others,
        lower_append (isDotted_append first dot) (isDotted_dotted others),
        lower_append first dot]
      rfl

theorem dotted_ne_empty (each : ∀ s ∈ segments, s ≠ "") (nonempty : segments ≠ []) :
    dotted segments ≠ "" := by
  cases segments with
  | nil => exact absurd rfl nonempty
  | cons s rest =>
    have first := each s mem_cons_self
    by_cases last : rest = []
    · subst last
      rwa [dotted, String.intercalate_singleton]
    · rw [dotted_cons last]
      intro empty
      exact first (String.append_eq_empty_iff.1 (String.append_eq_empty_iff.1 empty).1).1

theorem mem_dottedPrefixes {name : String} {parts : List String} :
    name ∈ dottedPrefixes parts ↔ ∃ start, start <+: parts ∧ start ≠ [] ∧ name = dotted start := by
  simp only [dottedPrefixes, mem_map, mem_range]
  constructor
  · rintro ⟨i, small, rfl⟩
    refine ⟨parts.take (i + 1), take_prefix _ _, ?_, rfl⟩
    have first : 0 < parts.length := by omega
    simpa [take_eq_nil_iff] using ne_nil_of_length_pos first
  · rintro ⟨start, ⟨rest, rfl⟩, nonempty, rfl⟩
    have positive := length_pos_iff.2 nonempty
    refine ⟨start.length - 1, by simp; omega, ?_⟩
    rw [Nat.sub_add_cancel positive, take_left]
    rfl

/-! ## Declared names -/

namespace Decl

/-- The function, class, constant or enumeration that a declaration declares. -/
def declaredName? : Decl → Option String
  | .function name _ => some name.text
  | .class decl => some decl.name.text
  | .const name _ _ _ => some name.text
  | .enum name _ _ _ => some name.text
  | _ => none

/-- The segments of the namespace that a declaration opens. -/
def opened? : Decl → Option (List String)
  | .nspace name _ _ => some (dottedParts name)
  | _ => none

/-- Declared names and the parts of opened namespaces are segments. -/
structure NamedHere (d : Decl) : Prop where
  declared : ∀ name ∈ d.declaredName?, IsSegment name
  opened : ∀ segments ∈ d.opened?, ∀ s ∈ segments, IsSegment s

theorem NamedHere.of_none {d : Decl} (declared : d.declaredName? = none)
    (opened : d.opened? = none) : d.NamedHere :=
  ⟨by simp [declared], by simp [opened]⟩

end Decl

end ChannelLint
