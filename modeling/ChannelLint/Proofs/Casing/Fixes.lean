import ChannelLint.Proofs.Casing.Outline
import ChannelLint.Proofs.Spans.Names
import ChannelLint.Proofs.Splicing

/-!
# Fixing the case of names

A diagnostic about the case of a name is resolved by writing the known spelling in its place. The
known spelling has the same letters up to case, so the fixed text differs from the text in case
alone, and only where names are used. It is therefore read to the same script without its case, and
has the same diagnostics apart from those about case.
-/
namespace ChannelLint

open List Text

variable {loopsBranch : Bool} {finding : Finding} {n k : Nat}

/-! ## What is fixed -/

/-- The edits that resolve the diagnostics of a script, in their order. -/
def Script.fixes (settings : Settings) (s : Script) : List TextEdit :=
  (lintScript settings s).flatMap (·.fixes)

section

variable {f : Func}

/-- A diagnostic about case comes from a comparison. -/
theorem Func.compared_of_mismatch (found : finding ∈ (f.flow loopsBranch).findings)
    (mismatch : finding.issue.code = .caseMismatch) : ∃ name known again,
      (TraceEntry.compare name known again).Fits (eventsOf f.body.sites) f.vocabulary ∧
      known.text ≠ name.text ∧ finding = ⟨.caseMismatch name.text known.text, name.range⟩ := by
  obtain ⟨entries, fit, -, reported, -⟩ := (f.flow_respell .uncase loopsBranch).trace
  rw [reported] at found
  obtain ⟨e, listed, inEntry⟩ := mem_flatMap.1 found
  cases e with
  | note other =>
    obtain rfl := mem_singleton.1 inEntry
    exact absurd mismatch (fit _ listed).1
  | compare name known again =>
    have compared : finding ∈ name.mismatch known := inEntry
    unfold Ident.mismatch at compared
    split at compared
    · exact absurd compared not_mem_nil
    · next differ => exact ⟨name, known, again, fit _ listed, differ, mem_singleton.1 compared⟩

theorem Func.known_of_mismatch (found : finding ∈ (f.flow loopsBranch).findings)
    (mismatch : finding.issue.code = .caseMismatch) :
    ∃ name known, Known (eventsOf f.body.sites) f.given name known ∧
      finding = ⟨.caseMismatch name.text known.text, name.range⟩ := by
  obtain ⟨name, known, again, fits, -, same⟩ := compared_of_mismatch found mismatch
  exact ⟨name, known, fits.known, same⟩

theorem Func.mem_given {key : String} {i : Ident} (found : f.given.find? key = some i) :
    i ∈ f.paramNames ∨ i = ⟨"m", .empty⟩ ∨ i = ⟨"super", .empty⟩ := by
  have added (ps : List Param) (m : OrderedMap Binding) {entry : String × Binding}
      (member : entry ∈ (ps.foldl Walk.addParam m).entries) :
      entry.2.ident ∈ ps.map (·.name) ∨ entry ∈ m.entries := by
    induction ps generalizing m with
    | nil => exact .inr member
    | cons p rest ih =>
      rcases ih _ member with inRest | inserted
      · exact .inl (mem_cons_of_mem _ inRest)
      · rcases OrderedMap.mem_insertEntry inserted with rfl | original
        · exact .inl mem_cons_self
        · exact .inr original
  have own {entry : String × Binding}
      (member : entry ∈ (f.params.foldl Walk.addParam
        ((∅ : OrderedMap Binding).insert "m" (Walk.givenBinding "m"))).entries) :
      entry.2.ident ∈ f.paramNames ∨ entry.2.ident = ⟨"m", .empty⟩ := by
    rcases added f.params _ member with isParam | isM
    · exact .inl isParam
    · obtain rfl := mem_singleton.1 isM
      exact .inr rfl
  obtain ⟨entry, member, same⟩ := mem_map.1 (OrderedMap.mem_of_find? found)
  obtain ⟨-, rfl⟩ := Prod.mk.inj same
  unfold Walk.paramBindings at member
  dsimp only at member
  split at member
  · rcases OrderedMap.mem_insertEntry member with rfl | original
    · exact .inr (.inr rfl)
    · exact (own original).imp_right .inl
  · exact (own member).imp_right .inl

theorem Known.key_eq {name known : Ident} (h : Known (eventsOf f.body.sites) f.given name known) :
    known.key = name.key := by
  rcases h.source with isParam | loose
  · exact f.key_of_given isParam
  · exact loose.key_eq

end

section

variable {settings : Settings} {s : Script} {e : TextEdit}

/-- A diagnostic about case was found in a function of the script. -/
theorem exists_finding_of_mismatch {d : Diagnostic} (diagnosed : d ∈ lintScript settings s)
    (mismatch : d.issue.code = .caseMismatch) :
    settings.isIgnored s.path = false ∧ settings.severity? .caseSensitivity = some d.severity ∧
      ∃ f ∈ s.functions, ⟨d.issue, d.range⟩ ∈ (f.flow settings.loopsBranch).findings := by
  rw [lintScript_eq] at diagnosed
  split at diagnosed
  · exact absurd diagnosed not_mem_nil
  · next watched =>
    obtain ⟨finding, found, reported⟩ := mem_filterMap.1 (mem_mergeSort.1 diagnosed)
    obtain ⟨severity, on, rfl⟩ := Option.map_eq_some_iff.1 reported
    dsimp only at mismatch
    rw [mismatch] at on
    refine ⟨Bool.eq_false_iff.2 watched, on, ?_⟩
    rcases mem_append.1 found with walked | unknown
    · obtain ⟨⟨f, walk⟩, pair, inWalk⟩ := mem_flatMap.1 walked
      obtain ⟨f, isFunction, same⟩ := mem_map.1 pair
      cases same
      exact ⟨f, isFunction, inWalk⟩
    · obtain ⟨use, -, rfl⟩ := mem_map.1 unknown
      cases mismatch

/-- An edit that lint proposes replaces a name by the spelling that is known for it. -/
theorem exists_mismatch_of_mem_fixes (member : e ∈ s.fixes settings) : ∃ f ∈ s.functions, ∃ name,
      ⟨.caseMismatch name e.text, e.range⟩ ∈ (f.flow settings.loopsBranch).findings := by
  obtain ⟨d, diagnosed, fix⟩ := mem_flatMap.1 member
  unfold Diagnostic.fixes at fix
  split at fix
  · next name known isMismatch =>
    obtain rfl := mem_singleton.1 fix
    obtain ⟨-, -, f, isFunction, found⟩ :=
      exists_finding_of_mismatch diagnosed (congrArg Issue.code isMismatch)
    exact ⟨f, isFunction, name, isMismatch ▸ found⟩
  · exact absurd fix not_mem_nil

/-- If names in the wrong case are reported at all, every one of them is fixed. -/
theorem mem_fixes_of_mismatch {severity : Severity}
    (on : settings.severity? .caseSensitivity = some severity)
    (watched : settings.isIgnored s.path = false) {f : Func} (isFunction : f ∈ s.functions)
    {name known : String} {range : Range}
    (found : ⟨.caseMismatch name known, range⟩ ∈ (f.flow settings.loopsBranch).findings) :
    ⟨range, known⟩ ∈ s.fixes settings := by
  refine mem_flatMap.2 ⟨⟨severity, .caseMismatch name known, range, s.pkgPath⟩, ?_,
    mem_singleton_self _⟩
  rw [lintScript_eq, watched]
  refine mem_mergeSort.2 (mem_filterMap.2 ⟨⟨.caseMismatch name known, range⟩, ?_, ?_⟩)
  · refine mem_append_left _ (mem_flatMap.2 ⟨(f, f.flow settings.loopsBranch), ?_, found⟩)
    exact mem_map_of_mem isFunction
  · show (settings.severity? .caseSensitivity).map _ = _
    rw [on, Option.map_some]

end

/-! ## Edits that change the case of letters -/

/-- A splice replaces a part of the text by the same letters up to case. -/
structure Splice.Recases (source : List Char) (s : Splice) : Prop where
  start_le : s.start ≤ s.stop
  stop_le : s.stop ≤ source.length
  letters : s.text.toList.map uncase = ((source.take s.stop).drop s.start).map uncase

namespace Splice.Recases

variable {source : List Char} {s : Splice}

theorem length (recases : s.Recases source) : s.text.toList.length = s.stop - s.start := by
  have length := congrArg List.length recases.letters
  rw [length_map, length_map, length_drop, length_take, Nat.min_eq_left recases.stop_le] at length
  exact length

/-- A text is what stands before a splice, at its place and behind it. -/
theorem drop_eq (recases : s.Recases source) (front : n ≤ s.start) :
    source.drop n = (source.take s.start).drop n ++ (source.take s.stop).drop s.start ++
      source.drop s.stop := by
  have reaches : n ≤ (source.take s.start).length := by
    rw [length_take]
    exact le_min front ((front.trans recases.start_le).trans recases.stop_le)
  rw [append_assoc, ← drop_append_of_le_length reaches, ← append_assoc,
    show source.take s.start = (source.take s.stop).take s.start by
      rw [take_take, Nat.min_eq_left recases.start_le],
    take_append_drop, take_append_drop]

end Splice.Recases

theorem getElem?_slice {α : Type} (text : List α) (start stop k : Nat) :
    ((text.take stop).drop start)[k]? = if start + k < stop then text[start + k]? else none := by
  rw [getElem?_drop, getElem?_take]

section

variable {source : List Char} {s : Splice} {kept : List Splice}

theorem front_of_ordered (ordered : (s :: kept).Pairwise Splice.Before) :
    ∀ t ∈ kept.head?, s.stop ≤ t.start :=
  fun _ isHead => rel_of_pairwise_cons ordered (mem_of_mem_head? isHead)

theorem getElem?_spliced_cons (recases : s.Recases source) (front : n ≤ s.start) :
    (spliced source n (s :: kept))[k]? =
      if n + k < s.start then source[n + k]?
      else if n + k < s.stop then s.text.toList[n + k - s.start]?
      else (spliced source s.stop kept)[n + k - s.stop]? := by
  have start_le := recases.start_le
  have stop_le := recases.stop_le
  have length := recases.length
  have before : ((source.take s.start).drop n).length = s.start - n := by
    rw [length_drop, length_take]
    omega
  rw [spliced]
  split
  · next early =>
    rw [append_assoc, getElem?_append_left (by omega), getElem?_slice, if_pos early]
  · split
    · rw [append_assoc, getElem?_append_right (by omega), before, getElem?_append_left (by omega)]
      congr 1
      omega
    · rw [getElem?_append_right (by rw [length_append]; omega), length_append, before, length]
      congr 1
      omega

variable (recase : ∀ s ∈ kept, s.Recases source) (ordered : kept.Pairwise Splice.Before)
  (front : ∀ s ∈ kept.head?, n ≤ s.start)

include recase ordered front

theorem uncase_spliced : (spliced source n kept).map uncase = (source.drop n).map uncase := by
  induction kept generalizing n with
  | nil => rfl
  | cons s rest ih =>
    obtain ⟨here, others⟩ := forall_mem_cons.1 recase
    rw [spliced, here.drop_eq (front s rfl), map_append, map_append,
      ih others ordered.of_cons (front_of_ordered ordered), here.letters, map_append,
      map_append]

/-- Where no splice reaches, the text stays. -/
theorem getElem?_spliced_of_away (away : ∀ s ∈ kept, ¬ (s.start ≤ n + k ∧ n + k < s.stop)) :
    (spliced source n kept)[k]? = source[n + k]? := by
  induction kept generalizing n k with
  | nil => exact getElem?_drop
  | cons s rest ih =>
    obtain ⟨here, others⟩ := forall_mem_cons.1 recase
    obtain ⟨awayHere, awayLater⟩ := forall_mem_cons.1 away
    rw [getElem?_spliced_cons here (front s rfl)]
    split
    · rfl
    · have same : s.stop + (n + k - s.stop) = n + k := by omega
      rw [if_neg (by omega), ih others ordered.of_cons (front_of_ordered ordered) (by rwa [same]),
        same]

/-- Where a splice reaches, its text stands. -/
theorem getElem?_spliced_of_mem (member : s ∈ kept) (low : s.start ≤ n + k) (high : n + k < s.stop) :
    (spliced source n kept)[k]? = s.text.toList[n + k - s.start]? := by
  induction kept generalizing n k with
  | nil => cases member
  | cons t rest ih =>
    obtain ⟨here, others⟩ := forall_mem_cons.1 recase
    rw [getElem?_spliced_cons here (front t rfl)]
    rcases mem_cons.1 member with rfl | later
    · rw [if_neg (by omega), if_pos high]
    · have behind : t.stop ≤ s.start := rel_of_pairwise_cons ordered later
      have start_le := here.start_le
      have same : t.stop + (n + k - t.stop) = n + k := by omega
      rw [if_neg (by omega), if_neg (by omega), ih others ordered.of_cons (front_of_ordered ordered)
        later (by rwa [same]) (by rwa [same]), same]

end

/-! ## The fixed text -/

/-- The text of a script with all its fixes. -/
def Script.fixed (settings : Settings) (s : Script) : String :=
  String.ofList (applyEdits s.source (s.fixes settings)).text

section

variable {settings : Settings} {s : Script} {names : List Ident}

/-- Names and their known spelling differ in case alone. -/
theorem Known.uncased_eq {text : String} (named : s.Named text names) {f : Func}
    (isFunction : f ∈ s.functions) {name known : Ident}
    (h : Known (eventsOf f.body.sites) f.given name known) :
    uncased known.text = uncased name.text := by
  have isName : isName name.text :=
    (named.stand _ (named.inner f isFunction name (mem_append_right _ h.used))).isName
  have knownIsName : Text.isName known.text := by
    rcases h.source with isParam | loose
    · rcases Func.mem_given isParam with written | rfl | rfl
      · exact (named.stand _
          (named.inner f isFunction known (mem_append_left _ written))).isName
      · decide
      · decide
    · exact (named.stand _
        (named.inner f isFunction known (mem_append_right _ loose.used))).isName
  exact uncased_eq_of_lower_eq knownIsName isName h.key_eq

/-- Every fix stands at a name that is used, and changes its case alone. -/
theorem recases_of_mem_fixes (named : s.Named s.source names) {e : TextEdit}
    (member : e ∈ s.fixes settings) :
    (e.splice (lineStarts s.source) s.source.length).Recases s.source.toList ∧
      ∃ f ∈ s.functions, ∃ name ∈ f.uses, e.range = name.range := by
  obtain ⟨f, isFunction, written, found⟩ := exists_mismatch_of_mem_fixes member
  obtain ⟨name, known, isKnown, same⟩ := Func.known_of_mismatch found rfl
  obtain ⟨range, text⟩ := e
  obtain ⟨issue, rfl⟩ := Finding.mk.inj same
  obtain ⟨-, rfl⟩ := Issue.caseMismatch.inj issue
  have stands := named.stand _
    (named.inner f isFunction name (mem_append_right _ isKnown.used))
  refine ⟨⟨stands.start_lt.le, ?_, ?_⟩, f, isFunction, name, isKnown.used, rfl⟩
  · rw [String.length_toList]
    exact stands.stop_le
  · have letters := congrArg String.toList (isKnown.uncased_eq named isFunction)
    rw [toList_uncased, toList_uncased, ← stands.text, textAt, String.toList_ofList]
      at letters
    exact letters

/-- Every fix stands at one of the names of the script. -/
theorem Script.Named.place_of_fix (named : s.Named s.source names) {e : TextEdit}
    (member : e ∈ s.fixes settings) : ∃ name ∈ names, e.range = name.range := by
  obtain ⟨-, f, isFunction, name, used, here⟩ := recases_of_mem_fixes named member
  exact ⟨name, named.inner f isFunction name (mem_append_right _ used), here⟩

theorem Script.exists_kept (settings : Settings) (named : s.Named s.source names) : ∃ kept,
    (applyEdits s.source (s.fixes settings)).Reached s.source.toList
      (splices s.source (s.fixes settings)) kept ∧
    ∀ splice ∈ kept, splice.Recases s.source.toList := by
  have recase : ∀ splice ∈ splices s.source (s.fixes settings), splice.Recases s.source.toList :=
    forall_mem_map.2 fun e isFix => (recases_of_mem_fixes named isFix).1
  obtain ⟨kept, reached⟩ := exists_reached fun splice member => (recase splice member).start_le
  exact ⟨kept, reached, fun splice member =>
    recase splice (reached.all.subset (mem_append_left _ member))⟩

theorem Script.uncased_fixed (named : s.Named s.source names) :
    uncased (s.fixed settings) = uncased s.source := by
  obtain ⟨kept, reached, recase⟩ := Script.exists_kept settings named
  unfold Script.fixed uncased
  rw [String.toList_ofList, reached.text, uncase_spliced recase reached.ordered
    fun _ _ => Nat.zero_le _, drop_zero]

/-- Where no fix reaches, the text stays. -/
theorem Script.getElem?_fixed (named : s.Named s.source names) (away : ∀ e ∈ s.fixes settings,
      ¬ (offsetIn s.source e.range.start ≤ k ∧ k < offsetIn s.source e.range.stop)) :
    (s.fixed settings).toList[k]? = s.source.toList[k]? := by
  obtain ⟨kept, reached, recase⟩ := Script.exists_kept settings named
  have within : ∀ splice ∈ kept, splice ∈ splices s.source (s.fixes settings) := fun _ member =>
    reached.all.subset (mem_append_left _ member)
  rw [Script.fixed, String.toList_ofList, reached.text, getElem?_spliced_of_away recase
    reached.ordered (fun _ _ => Nat.zero_le _) ?_, Nat.zero_add]
  intro splice member
  obtain ⟨e, isFix, rfl⟩ := mem_map.1 (within splice member)
  rw [Nat.zero_add]
  exact away e isFix

end

theorem Script.source_of_read {source path pkgPath : String} {s : Script}
    (read : Script.read source path pkgPath = .ok s) : s.source = source := by
  obtain ⟨ds, -, rfl⟩ := Script.exists_parsed read
  rfl

/-- Fixing the case of names keeps the program. The fixed text is as long as the text and differs
from it in case alone, and only inside names that functions use; it is accepted, and its diagnostics
are those of the text apart from the ones about case. -/
theorem Script.outline_of_fixed (settings : Settings) {source path pkgPath : String} {s : Script}
    (read : Script.read source path pkgPath = .ok s)
    (unmarked : source.toList.head? ≠ some '\ufeff') : (s.fixed settings).length = source.length ∧
    Text.lower (s.fixed settings) = Text.lower source ∧
    (∀ k, (s.fixed settings).toList[k]? ≠ source.toList[k]? →
      ∃ f ∈ s.functions, ∃ name ∈ f.uses,
        offsetIn source name.range.start ≤ k ∧ k < offsetIn source name.range.stop) ∧
    ∃ s', Script.read (s.fixed settings) path pkgPath = .ok s' ∧
      Diagnostic.outline (lintScript settings s') = Diagnostic.outline (lintScript settings s) := by
  obtain ⟨names, named⟩ := Script.exists_named read unmarked
  obtain rfl := Script.source_of_read read
  have recased : uncased (s.fixed settings) = uncased s.source :=
    Script.uncased_fixed named
  refine ⟨?_, lower_eq_of_uncased_eq recased, fun k differs => ?_, ?_⟩
  · simpa only [length_uncased] using congrArg String.length recased
  · by_contra away
    refine differs (Script.getElem?_fixed named fun e isFix within => ?_)
    obtain ⟨-, f, isFunction, name, used, sameRange⟩ := recases_of_mem_fixes named isFix
    refine away ⟨f, isFunction, name, used, ?_⟩
    rw [← sameRange]
    exact within
  · obtain ⟨s', u, read', loses, loses'⟩ := Script.read_ok_of_uncased_eq recased.symm read
    refine ⟨s', read', ?_⟩
    rw [← loses.outline_lintScript, loses'.outline_lintScript]

/-- Names in the wrong case in templates, behind a loop and behind a test for `invalid`. -/
def mixedCase : String :=
  "sub s(Item)\nfor i = 1 to 3\n  print `${I} ${item}`\nend for\nif i <> invalid then\n" ++
    "  Total = i\n  print total\nend if\nprint TOTAL, J\nend sub"

theorem Script.outline_of_fixed_mixedCase : mixedCase.toList.head? ≠ some '\ufeff' ∧
    ∃ s, Script.read mixedCase "a.brs" "" = .ok s ∧
    (s.fixed {}).length = mixedCase.length ∧
    Text.lower (s.fixed {}) = Text.lower mixedCase ∧
    (∀ k, (s.fixed {}).toList[k]? ≠ mixedCase.toList[k]? →
      ∃ f ∈ s.functions, ∃ name ∈ f.uses,
        offsetIn mixedCase name.range.start ≤ k ∧ k < offsetIn mixedCase name.range.stop) ∧
    ∃ s', Script.read (s.fixed {}) "a.brs" "" = .ok s' ∧
      Diagnostic.outline (lintScript {} s') = Diagnostic.outline (lintScript {} s) := by
  have unmarked : mixedCase.toList.head? ≠ some '\ufeff' := by decide +kernel
  have accepted : (Script.read mixedCase "a.brs" "").toOption.map (·.path) = some "a.brs" := by
    decide +kernel
  obtain ⟨s, read, -⟩ := exists_ok_of_map_toOption accepted
  exact ⟨unmarked, s, read, Script.outline_of_fixed {} read unmarked⟩

end ChannelLint
