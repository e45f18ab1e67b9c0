import ChannelLint.Proofs.Index
import ChannelLint.Proofs.Literals.Scripts

/-!
# Scripts share no vertex with anything else

The vertices of a usage graph are texts. The vertex of a component and every literal of a script end
with a quote; the vertex of a script ends with an extension. So a literal never leads to a script,
and the vertex of a script is neither a component nor the main program.
-/
namespace ChannelLint

open List

variable {path : String}

namespace Text

set_option maxRecDepth 4000 in
/-- Only a quote becomes a quote in lower case. -/
theorem lowerChar_eq_quote_iff (c : Char) : lowerChar c = '"' ↔ c = '"' := by
  by_cases small : c.toNat < 128
  · have notKelvin : c ≠ '\u212a' := by
      rintro rfl
      exact absurd small (by decide)
    have same : lowerChar c = uncase c := by
      rw [lowerChar_of_ascii small, uncase, if_neg notKelvin]
    rw [same, uncase_eq_iff (by decide)]
  · rw [lowerChar, if_neg small]
    cases found : caseRuns.find? (·.contains c.toNat) with
    | none => rfl
    | some run =>
      -- No run of capital letters leads down to a quote.
      have high : ∀ run ∈ caseRuns, 34 < (run.first : Int) + run.shift := by decide
      have above := high run (mem_of_find?_eq_some found)
      have within := find?_some found
      have isFirst : run.first ≤ c.toNat := by
        simp only [CaseRun.contains, Bool.and_eq_true, decide_eq_true_eq] at within
        exact within.1.1
      have code (n : Nat) : (Char.ofNat n).toNat = n ∨ (Char.ofNat n).toNat = 0 := by
        unfold Char.ofNat
        split
        · exact .inl rfl
        · exact .inr rfl
      have quote : ('"' : Char).toNat = 34 := rfl
      constructor
      · intro same
        have same : (Char.ofNat ((c.toNat : Int) + run.shift).toNat).toNat = ('"' : Char).toNat :=
          congrArg Char.toNat same
        rcases code ((c.toNat : Int) + run.shift).toNat with valid | invalid
        · omega
        · omega
      · rintro rfl
        omega

/-- The last character is put in lower case last. -/
theorem exists_lowerFrom_concat (before cs : List Char) (c : Char) :
    ∃ front behind, lowerFrom before (cs ++ [c]) = front ++ lowerFrom behind [c] := by
  induction cs generalizing before with
  | nil => exact ⟨[], before, rfl⟩
  | cons d cs ih =>
    obtain ⟨front, behind, rest⟩ := ih (d :: before)
    rw [cons_append, lowerFrom, rest]
    exact ⟨_ ++ front, behind, (append_assoc ..).symm⟩

/-- A text ends with a quote if it does so in lower case. -/
theorem endsQuoted_lower_iff (s : String) : EndsQuoted (lower s) ↔ EndsQuoted s := by
  unfold EndsQuoted
  rw [lower_eq, String.toList_ofList]
  obtain empty | ⟨cs, c, split⟩ := eq_nil_or_concat s.toList
  · rw [empty]
    rfl
  · obtain ⟨front, behind, lowered⟩ := exists_lowerFrom_concat [] cs c
    rw [split, concat_eq_append, lowered, getLast?_concat, Option.some.injEq]
    by_cases sigma : c = 'Σ'
    · subst sigma
      have final : lowerFrom behind ['Σ'] =
          (if meetsCased behind && !meetsCased [] then ['ς'] else ['σ']) ++ [] := rfl
      rw [final]
      split <;> simp
    · by_cases dotted : c = 'İ'
      · subst dotted
        simp [lowerFrom]
      · simp [lowerFrom, sigma, dotted, lowerChar_eq_quote_iff]

theorem dot_mem_lower {s : String} (member : '.' ∈ s.toList) : '.' ∈ (lower s).toList := by
  have step (before cs : List Char) (member : '.' ∈ cs) : '.' ∈ lowerFrom before cs := by
    induction cs generalizing before with
    | nil => cases member
    | cons c cs ih =>
      rw [lowerFrom, mem_append]
      cases member with
      | head => exact .inl mem_cons_self
      | tail _ inRest => exact .inr (ih _ inRest)
  rw [lower_eq, String.toList_ofList]
  exact step [] s.toList member

end Text

/-! ## Paths of source files -/

namespace Path

/-- The last character of a path belongs to its extension. -/
theorem endsQuoted_extension (quoted : EndsQuoted path)
    (named : extension path ≠ "") : EndsQuoted (extension path) := by
  unfold extension at named ⊢
  dsimp only at named ⊢
  split
  · rw [Text.endsQuoted_lower_iff, EndsQuoted, String.toList_ofList]
    obtain ⟨front, split⟩ := getLast?_eq_some_iff.1 quoted
    rw [split]
    simp only [reverse_append, reverse_singleton, singleton_append]
    rw [takeWhile_cons_of_pos (by decide), takeWhile_cons_of_pos (by decide), reverse_cons]
    exact getLast?_concat (l := '.' :: _)
  · next bare => exact absurd (if_neg bare) named

theorem dot_mem_of_extension (named : extension path ≠ "") : '.' ∈ path.toList := by
  unfold extension at named
  dsimp only at named
  split at named
  · next dotted =>
    by_contra absent
    have inName (c : Char) (member : c ∈ path.toList.reverse.takeWhile (· != '/')) : c != '.' := by
      have inPath := mem_reverse.1 ((takeWhile_sublist _).mem member)
      exact bne_iff_ne.2 fun same => absent (same ▸ inPath)
    have whole := takeWhile_eq_self_iff.2 inName
    rw [whole] at dotted
    simp at dotted
  · exact absurd rfl named

/-- Only a quote is a quote when slashes are turned. -/
theorem endsQuoted_forwardSlashes_iff (path : String) :
    EndsQuoted (forwardSlashes path) ↔ EndsQuoted path := by
  unfold EndsQuoted forwardSlashes
  rw [String.toList_ofList, getLast?_map, Option.map_eq_some_iff]
  constructor
  · rintro ⟨c, isLast, slashed⟩
    split at slashed
    · cases slashed
    · exact slashed ▸ isLast
  · exact fun isLast => ⟨_, isLast, rfl⟩

/-- A path with one of the given extensions does not end with a quote. -/
theorem not_endsQuoted_of_extension {extensions : List String}
    (closed : ∀ e ∈ extensions, e ≠ "" ∧ ¬ EndsQuoted e) (known : extension path ∈ extensions) :
    ¬ EndsQuoted path := fun quoted =>
  (closed _ known).2 (endsQuoted_extension quoted (closed _ known).1)

theorem forwardSlashes_forwardSlashes (path : String) :
    forwardSlashes (forwardSlashes path) = forwardSlashes path := by
  unfold forwardSlashes
  rw [String.toList_ofList, map_map]
  congr 2
  funext c
  by_cases back : c = '\\'
  · simp [back]
  · simp [back]

end Path

namespace FileTree

/-- A source file has an extension. -/
theorem exists_of_mem_sources {t : FileTree} {root : String} (member : path ∈ t.sources root) :
    ∃ folders name, path = pkgPath (folders ++ [name]) ∧
      Path.extension name ∈ scriptExtensions ++ componentExtensions := by
  unfold sources at member
  split at member
  · cases member
  · dsimp only at member
    obtain ⟨names, isBelow, isPath⟩ := mem_map.1 (mem_mergeSort.1 member)
    obtain ⟨-, isSource⟩ := mem_filter.1 isBelow
    simp only [FileTree.isSource, Bool.and_eq_true, contains_iff_mem] at isSource
    obtain rfl | ⟨folders, name, rfl⟩ := eq_nil_or_concat names
    · exact absurd isSource.2 (by decide)
    · rw [concat_eq_append] at isPath isSource
      rw [getLast?_concat] at isSource
      exact ⟨folders, name, isPath.symm, isSource.2⟩

/-- The path of a source file has no backward slash, does not end with a quote and has a dot. -/
theorem path_of_mem_sources {t : FileTree} {root : String} (member : path ∈ t.sources root) :
    Path.forwardSlashes path = path ∧ ¬ EndsQuoted path ∧ '.' ∈ path.toList := by
  obtain ⟨folders, name, rfl, known⟩ := exists_of_mem_sources member
  have closed : ∀ e ∈ scriptExtensions ++ componentExtensions, e ≠ "" ∧ ¬ EndsQuoted e := by
    decide
  have dot := Path.dot_mem_of_extension (closed _ known).1
  -- The name stands at the end of the path.
  have split : ∃ above, ("/".intercalate (folders ++ [name])).toList = above ++ name.toList := by
    by_cases top : folders = []
    · exact ⟨[], by rw [top, nil_append, String.intercalate_singleton, nil_append]⟩
    · rw [String.intercalate_append_of_ne_nil top (cons_ne_nil _ _),
        String.intercalate_singleton, String.toList_append]
      exact ⟨_, rfl⟩
  obtain ⟨above, split⟩ := split
  refine ⟨Path.forwardSlashes_forwardSlashes _, fun quoted => ?_, ?_⟩
  · rw [pkgPath, Path.endsQuoted_forwardSlashes_iff, EndsQuoted, split,
      getLast?_append_of_ne_nil _ (ne_nil_of_mem dot)] at quoted
    exact Path.not_endsQuoted_of_extension closed known quoted
  · unfold pkgPath Path.forwardSlashes
    rw [String.toList_ofList, split]
    exact mem_map.2 ⟨'.', mem_append_right _ dot, rfl⟩

theorem ne_empty_of_mem_sources {t : FileTree} {root : String} (member : path ∈ t.sources root) :
    path ≠ "" := by
  rintro rfl
  exact absurd (path_of_mem_sources member).2.2 (by decide)

end FileTree

/-! ## Vertices -/

theorem endsQuoted_componentVertex (name : String) : EndsQuoted (componentVertex name) := by
  unfold EndsQuoted componentVertex
  rw [String.toList_append]
  exact getLast?_concat

theorem endsQuoted_of_mem_builtinVertices {name : String} (member : name ∈ builtinVertices) :
    EndsQuoted name := by
  obtain ⟨own, -, rfl⟩ := mem_map.1 member
  exact endsQuoted_componentVertex own

theorem sourceScope_not_builtin : sourceScope ∉ builtinVertices :=
  fun member => absurd (endsQuoted_of_mem_builtinVertices member) (by decide)

namespace SourceSet

variable {t : FileTree} {root key : String} {s : SourceSet} {f : Script}
  (indexed : s.Indexed root (t.sources root)) (found : s.scripts.find? key = some f)

include indexed found

/-- The vertex of a script is the key that the script is kept under. -/
theorem Indexed.scriptVertex_eq : scriptVertex f.pkgPath = key := by
  obtain ⟨path, listed, rfl, -, text, read⟩ := indexed.script key f found
  rw [(Source.paths_of_read read).2 (FileTree.ne_empty_of_mem_sources listed), scriptVertex,
    (FileTree.path_of_mem_sources listed).1]

/-- A script is kept under one key. -/
theorem Indexed.key_unique {key' : String} (found' : s.scripts.find? key' = some f) :
    key = key' := by
  rw [← indexed.scriptVertex_eq found, indexed.scriptVertex_eq found']

theorem Indexed.not_endsQuoted_key : ¬ EndsQuoted key := by
  obtain ⟨path, listed, rfl, -⟩ := indexed.script key f found
  rw [Text.endsQuoted_lower_iff]
  exact (FileTree.path_of_mem_sources listed).2.1

theorem Indexed.key_ne_sourceScope : key ≠ sourceScope := by
  obtain ⟨path, listed, rfl, -⟩ := indexed.script key f found
  intro same
  have dot := Text.dot_mem_lower (FileTree.path_of_mem_sources listed).2.2
  rw [same] at dot
  exact absurd dot (by decide)

theorem Indexed.not_mem_builtinVertices : key ∉ builtinVertices :=
  fun member => indexed.not_endsQuoted_key found (endsQuoted_of_mem_builtinVertices member)

/-- The literals of an indexed script end with a quote. -/
theorem Indexed.endsQuoted_of_mem_stringLiterals {text : String} {range : Range}
    (member : (text, range) ∈ f.stringLiterals) : EndsQuoted text := by
  obtain ⟨path, -, -, -, source, read⟩ := indexed.script key f found
  obtain ⟨written, quoted, rfl⟩ :=
    Script.exists_quoted_of_mem_stringLiterals (Script.quoted_of_read read) member
  exact (Text.endsQuoted_lower_iff written).2 quoted

end SourceSet

end ChannelLint
