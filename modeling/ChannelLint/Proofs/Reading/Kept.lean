import ChannelLint.Proofs.Reading.OnDisk
import ChannelLint.Proofs.Usage.DeadScripts

/-!
# Every source file is kept once

A file that is read is kept as a script, as a component or as skipped. Scripts are kept under their
paths in lower case, components under their paths, and a path that comes again replaces what was
kept. So nothing is lost if the paths are different, and those of scripts different in lower case.
Paths lead from the current folder of a tree; with an absolute root nothing is read.
-/
namespace ChannelLint

open List

/-- The package paths of what is kept: of the scripts, of the components, and of skipped files. -/
def SourceSet.paths (s : SourceSet) : List String :=
  s.scripts.values.map (·.pkgPath) ++ s.components.keys ++ s.skipped.map (·.path)

/-- Files with two paths are kept apart. -/
def FileTree.Apart (t : FileTree) (root a b : String) : Prop :=
  a ≠ b ∧ ∀ f g, Source.read t root a = .ok (.script f) → Source.read t root b = .ok (.script g) →
    Text.lower a ≠ Text.lower b

theorem OrderedMap.not_mem_keys_insert {α : Type} {m : OrderedMap α} {key other : String}
    (missing : other ∉ m.keys) (differs : key ≠ other) (value : α) :
    other ∉ (m.insert key value).keys := by
  rw [keys_insert]
  split
  · exact missing
  · simp [missing, differs.symm]

namespace SourceSet

/-- What is read from a path replaces nothing. -/
def IsNew (s : SourceSet) (path : String) : Source → Prop
  | .script _ => Text.lower path ∉ s.scripts.keys
  | .component _ => path ∉ s.components.keys
  | .malformed _ | .unreadable _ => True

variable {t : FileTree} {root path : String} {source : Source}

/-- What is new is kept beside what was kept before. -/
theorem perm_paths_add {s : SourceSet} (isNew : s.IsNew path source) (named : path ≠ "")
    (readFrom : source.ReadFrom root path) : (s.add path source).paths.Perm (path :: s.paths) := by
  cases source with
  | script f =>
    obtain ⟨-, text, parsed⟩ := readFrom
    have entries := OrderedMap.entries_insert isNew f
    simp only [paths, add, OrderedMap.values, entries, map_append, map_cons, map_nil,
      (Source.paths_of_read parsed).2 named]
    rw [append_assoc, append_assoc, append_assoc]
    exact perm_middle
  | component c =>
    simp only [paths, add, OrderedMap.keys, OrderedMap.entries_insert isNew c, map_append,
      map_cons, map_nil]
    rw [append_assoc, append_assoc, ← append_assoc _ _ ([path] ++ _)]
    exact perm_middle
  | malformed reason =>
    simpa [paths, add, Source.skipped?] using perm_append_singleton path s.paths
  | unreadable reason =>
    simpa [paths, add, Source.skipped?] using perm_append_singleton path s.paths

theorem IsNew.add {s : SourceSet} {other : String} {later : Source} (isNew : s.IsNew other later)
    (apart : t.Apart root path other) (read : Source.read t root path = .ok source)
    (readLater : Source.read t root other = .ok later) : (s.add path source).IsNew other later := by
  cases later with
  | script g =>
    cases source with
    | script f => exact OrderedMap.not_mem_keys_insert isNew (apart.2 f g read readLater) f
    | _ => exact isNew
  | component d =>
    cases source with
    | component c => exact OrderedMap.not_mem_keys_insert isNew apart.1 c
    | _ => exact isNew
  | _ => trivial

theorem perm_paths_addAll {sources : List (String × Source)}
    (apart : sources.Pairwise fun a b => t.Apart root a.1 b.1)
    (read : ∀ entry ∈ sources, Source.read t root entry.1 = .ok entry.2 ∧ entry.1 ≠ "")
    {s : SourceSet} (isNew : ∀ entry ∈ sources, s.IsNew entry.1 entry.2) :
    (sources.foldl (fun s (path, source) => s.add path source) s).paths.Perm
      (sources.map (·.1) ++ s.paths) := by
  induction sources generalizing s with
  | nil => exact .refl _
  | cons entry rest ih =>
    obtain ⟨first, apart⟩ := pairwise_cons.1 apart
    obtain ⟨⟨readFirst, named⟩, read⟩ := forall_mem_cons.1 read
    obtain ⟨newFirst, isNew⟩ := forall_mem_cons.1 isNew
    have later := ih apart read fun other member =>
      (isNew other member).add (first other member) readFirst (read other member).1
    have added := perm_paths_add newFirst named (Source.readFrom_of_read readFirst)
    exact later.trans ((added.append_left _).trans perm_middle)

end SourceSet

namespace Project

variable {t : FileTree} {root : String} {p : Project}

/-- All files of a project that was read were read. -/
theorem map_fst_readAll (read : (Project.read t root).result = .ok p) :
    (Source.readAll t root p.files).1.map (·.1) = p.files := by
  have all (files : List String) (noFault : (Source.readAll t root files).2 = none) :
      (Source.readAll t root files).1.map (·.1) = files := by
    induction files with
    | nil => rfl
    | cons path rest ih =>
      unfold Source.readAll at noFault ⊢
      split at noFault
      · cases noFault
      · exact congrArg (path :: ·) (ih noFault)
  unfold Project.read at read
  split at read
  · cases read
  · dsimp only at read
    split at read
    · cases read
    · next noFault =>
      cases read
      exact all _ noFault

/-- Every file of a project is kept exactly once, if no two files share a path and no two scripts
share one in lower case: under its own path as a script, as a component or as skipped. -/
theorem files_kept_once (read : (Project.read t root).result = .ok p)
    (apart : p.files.Pairwise (t.Apart root)) :
    p.sources.paths.Perm p.files ∧ (∀ path ∈ p.files, p.sources.paths.count path = 1) ∧
      p.files.length = p.sources.scripts.entries.length + p.sources.components.entries.length +
        p.sources.skipped.length := by
  have listed := map_fst_readAll read
  have entry {path : String} {source : Source}
      (member : (path, source) ∈ (Source.readAll t root p.files).1) :
      Source.read t root path = .ok source ∧ path ≠ "" := by
    obtain ⟨inFiles, isRead⟩ := Source.read_of_mem_readAll member
    rw [eq_ofSources_of_read read] at inFiles
    exact ⟨isRead, FileTree.ne_empty_of_mem_sources inFiles⟩
  have kept : p.sources.paths.Perm p.files := by
    have run := SourceSet.perm_paths_addAll (s := {}) (pairwise_map.1 (listed.symm ▸ apart))
      (fun _ member => entry member) fun (_, source) _ => by
        cases source <;> first | exact not_mem_nil | trivial
    have empty : ({} : SourceSet).paths = [] := rfl
    rw [listed, empty, append_nil] at run
    have isKept : p.sources = .ofList (Source.readAll t root p.files).1 := by
      rw [eq_ofSources_of_read read]
      rfl
    rw [isKept]
    exact run
  have distinct : p.files.Nodup := apart.imp fun apart => apart.1
  refine ⟨kept, fun path member => ?_, ?_⟩
  · rw [kept.count_eq]
    exact distinct.count.trans (if_pos member)
  · rw [← kept.length_eq]
    simp [SourceSet.paths, OrderedMap.values, OrderedMap.keys, Nat.add_assoc]

/-- A component and three scripts, none of which share a path in lower case. -/
theorem files_kept_once_abandoned :
    (Project.read Abandoned.tree "proj").result = .ok Abandoned.project ∧
    Abandoned.project.files.Pairwise (Abandoned.tree.Apart "proj") ∧
    Abandoned.project.sources.paths.Perm Abandoned.files ∧
    Abandoned.files.length = Abandoned.project.sources.scripts.entries.length +
      Abandoned.project.sources.components.entries.length +
      Abandoned.project.sources.skipped.length := by
  have distinct : (Abandoned.files.map Text.lower).Nodup := by decide
  have apart : Abandoned.files.Pairwise (Abandoned.tree.Apart "proj") :=
    (pairwise_map.1 distinct).imp fun differs =>
      ⟨fun same => differs (congrArg _ same), fun _ _ _ _ => differs⟩
  obtain ⟨kept, -, count⟩ := files_kept_once Abandoned.read_eq apart
  exact ⟨Abandoned.read_eq, apart, kept, count⟩

/-- Two scripts whose names differ in case only. -/
def twins : FileTree where
  files := [(["proj", "lib", "Util.brs"], Text.encode "sub first()\nend sub\n"),
    (["proj", "lib", "util.brs"], Text.encode "sub second()\nend sub\n")]
  folders := [["proj"], ["proj", "lib"]]

/-- The second script replaces the first one, which is not kept at all. -/
theorem not_kept_twins : ∃ p, (Project.read twins "proj").result = .ok p ∧
      p.files = ["lib/Util.brs", "lib/util.brs"] ∧ p.sources.paths = ["lib/util.brs"] := by
  have layout : twins.isFolder "proj" = true ∧
      (twins.resolve "proj").toOption = some ["proj"] ∧
      ((twins.files.filterMap fun entry =>
        if ["proj"].isPrefixOf entry.1 then some (entry.1.drop 1) else none).filter
          FileTree.isSource).map FileTree.pkgPath = ["lib/Util.brs", "lib/util.brs"] ∧
      ["lib/Util.brs", "lib/util.brs"].Pairwise (· ≤ ·) ∧
      (Source.readAll twins "proj" ["lib/Util.brs", "lib/util.brs"]).2 = none ∧
      (SourceSet.ofList (Source.readAll twins "proj" ["lib/Util.brs", "lib/util.brs"]).1).paths =
        ["lib/util.brs"] := by
    decide +kernel
  obtain ⟨isFolder, resolved, listed, sorted, noFault, paths⟩ := layout
  exact ⟨_, read_of_sources isFolder
    (FileTree.sources_of_sorted (ok_of_toOption resolved) listed sorted) noFault, rfl, paths⟩

end Project

end ChannelLint
