import ChannelLint.Project
import ChannelLint.Proofs.OrderedMap

/-!
# What an index of files holds

A script is kept under its package path in lower case, a component under its package path. Both were
read from that path below the root, so scripts that were read from the same path are the same.
-/
namespace ChannelLint

open List

variable {path root : String} {files : List String}

/-! ## Reading a file -/

/-- A path from the root of the file system leads nowhere. -/
theorem FileTree.startsWith_of_readText {t : FileTree} {text : String}
    (read : t.readText path = .ok text) : path.startsWith "/" = false := by
  cases rooted : path.startsWith "/" with
  | false => rfl
  | true =>
    have missing : t.resolve path = .error .missing := by
      unfold FileTree.resolve
      rw [rooted, Bool.or_true, if_pos rfl]
    unfold FileTree.readText FileTree.readBytes at read
    rw [missing] at read
    cases read

/-- Source files that are listed in order. -/
theorem FileTree.sources_of_sorted {t : FileTree} {top : List String}
    (resolved : t.resolve root = .ok top) (listed : ((t.files.filterMap fun (place, _) =>
      if top.isPrefixOf place then some (place.drop top.length) else none).filter
        FileTree.isSource).map FileTree.pkgPath = files)
    (sorted : files.Pairwise (· ≤ ·)) : t.sources root = files := by
  unfold FileTree.sources
  rw [resolved]
  dsimp only
  rw [listed]
  exact mergeSort_of_pairwise (by simpa using sorted)

namespace Path

theorem startsWith_of_join
    (relative : (join root path).startsWith "/" = false) : path.startsWith "/" = false := by
  cases rooted : path.startsWith "/" with
  | false => rfl
  | true =>
    rw [join, if_pos rooted, rooted] at relative
    cases relative

/-- Different paths below a folder stay different. -/
theorem join_inj {a b : String} (relative : a.startsWith "/" = false)
    (relative' : b.startsWith "/" = false) (same : join root a = join root b) : a = b := by
  unfold join at same
  rw [relative, relative'] at same
  simp only [Bool.false_eq_true, ↓reduceIte] at same
  split at same
  · exact (String.append_right_inj root).1 same
  · exact (String.append_right_inj (root ++ "/")).1 same

end Path

namespace Source

variable {text pkgPath : String} {t : FileTree} {source : Source}

/-- What was read from a path: a script comes from the text of a file below the root, a component
knows its package path. -/
def ReadFrom (root path : String) : Source → Prop
  | script f => path.startsWith "/" = false ∧
      ∃ text, Script.read text (Path.join root path) path = .ok f
  | component c => c.pkgPath = path
  | malformed _ | unreadable _ => True

theorem pkgPath_of_read {c : Component} (read : Component.read text path pkgPath = .ok c) :
    c.pkgPath = pkgPath := by
  unfold Component.read at read
  cases parsed : Markup.Element.read text with
  | error fault =>
    rw [parsed] at read
    cases read
  | ok root =>
    rw [parsed] at read
    cases read
    unfold Component.ofElement
    split <;> rfl

theorem paths_of_read {f : Script} (read : Script.read text path pkgPath = .ok f) :
    f.path = path ∧ (pkgPath ≠ "" → f.pkgPath = pkgPath) := by
  unfold Script.read at read
  cases parsed : readDeclarations text with
  | error fault =>
    rw [parsed] at read
    cases read
  | ok decls =>
    rw [parsed] at read
    cases read
    refine ⟨rfl, fun named => if_neg ?_⟩
    simpa using named

theorem readFrom_of_read (read : Source.read t root path = .ok source) :
    source.ReadFrom root path := by
  unfold Source.read at read
  dsimp only at read
  split at read
  · cases read
    trivial
  · next text isText =>
    split at read
    · split at read
      · next c parsed =>
        cases read
        exact pkgPath_of_read parsed
      · cases read
        trivial
      · cases read
    · split at read
      · next f parsed =>
        cases read
        exact ⟨Path.startsWith_of_join (FileTree.startsWith_of_readText isText), text, parsed⟩
      · cases read
        trivial

theorem read_of_mem_readAll (member : (path, source) ∈ (readAll t root files).1) :
    path ∈ files ∧ Source.read t root path = .ok source := by
  induction files with
  | nil => cases member
  | cons first rest ih =>
    unfold readAll at member
    split at member
    · cases member
    · next read =>
      rcases mem_cons.1 member with same | inRest
      · cases same
        exact ⟨mem_cons_self, read⟩
      · exact (ih inRest).imp_left (mem_cons_of_mem _)

theorem mem_readAll (member : (path, source) ∈ (readAll t root files).1) :
    path ∈ files ∧ source.ReadFrom root path :=
  (read_of_mem_readAll member).imp_right readFrom_of_read

end Source

/-! ## The index -/

namespace SourceSet

/-- Every script and every component of an index was read from a file below the root. -/
structure Indexed (root : String) (files : List String) (s : SourceSet) : Prop where
  script : ∀ key f, s.scripts.find? key = some f →
    ∃ path ∈ files, key = Text.lower path ∧ (Source.script f).ReadFrom root path
  component : ∀ key c, s.components.find? key = some c → key ∈ files ∧ c.pkgPath = key
  keys : s.components.keys.Nodup

variable {s : SourceSet}

theorem Indexed.empty : ({} : SourceSet).Indexed root files :=
  ⟨nofun, nofun, nodup_nil⟩

theorem Indexed.add (indexed : s.Indexed root files) {source : Source}
    (listed : path ∈ files) (readFrom : source.ReadFrom root path) :
    (s.add path source).Indexed root files := by
  cases source with
  | script f =>
    refine ⟨fun key g found => ?_, indexed.component, indexed.keys⟩
    rcases (OrderedMap.find?_insert_eq_some ..).1 found with ⟨rfl, rfl⟩ | ⟨-, older⟩
    · exact ⟨path, listed, rfl, readFrom⟩
    · exact indexed.script key g older
  | component c =>
    refine ⟨indexed.script, fun key d found => ?_, OrderedMap.keys_insert_nodup indexed.keys _ _⟩
    rcases (OrderedMap.find?_insert_eq_some ..).1 found with ⟨rfl, rfl⟩ | ⟨-, older⟩
    · exact ⟨listed, readFrom⟩
    · exact indexed.component key d older
  | malformed reason => exact ⟨indexed.script, indexed.component, indexed.keys⟩
  | unreadable reason => exact ⟨indexed.script, indexed.component, indexed.keys⟩

theorem Indexed.addAll {sources : List (String × Source)}
    (readFrom : ∀ entry ∈ sources, entry.1 ∈ files ∧ entry.2.ReadFrom root entry.1)
    (indexed : s.Indexed root files) :
    (sources.foldl (fun s (path, source) => s.add path source) s).Indexed root files := by
  induction sources generalizing s with
  | nil => exact indexed
  | cons entry rest ih =>
    obtain ⟨first, others⟩ := forall_mem_cons.1 readFrom
    exact ih others (indexed.add first.1 first.2)

/-- Scripts that were read from the same path are the same. -/
theorem Indexed.eq_of_path (indexed : s.Indexed root files) {key key' : String} {f g : Script}
    (found : s.scripts.find? key = some f) (found' : s.scripts.find? key' = some g)
    (same : f.path = g.path) : f = g := by
  obtain ⟨path, -, isKey, relative, _, read⟩ := indexed.script key f found
  obtain ⟨path', -, isKey', relative', _, read'⟩ := indexed.script key' g found'
  have isPath := (Source.paths_of_read read).1
  have isPath' := (Source.paths_of_read read').1
  have samePath : path = path' :=
    Path.join_inj relative relative' (isPath.symm.trans (same.trans isPath'))
  have sameKey : key = key' := by rw [isKey, isKey', samePath]
  rw [sameKey, found', Option.some.injEq] at found
  exact found.symm

/-- A component that is looked up by its name is kept under its package path. -/
theorem Indexed.find?_of_component? (indexed : s.Indexed root files) {name : String}
    {c : Component} (found : s.component? name = some c) :
    s.components.find? c.pkgPath = some c := by
  have member : c ∈ s.components.values := mem_of_find?_eq_some found
  obtain ⟨⟨key, _⟩, inEntries, rfl⟩ := mem_map.1 member
  have kept := OrderedMap.find?_of_mem indexed.keys inEntries
  rw [(indexed.component key _ kept).2, kept]

end SourceSet

namespace Project

variable {t : FileTree} {p : Project}

/-- A project that was read consists of its files, all of which were read. -/
theorem eq_ofSources_of_read (read : (Project.read t root).result = .ok p) :
    p = .ofSources root (t.sources root) (Source.readAll t root (t.sources root)).1 := by
  unfold Project.read at read
  split at read
  · cases read
  · dsimp only at read
    split at read
    · cases read
    · cases read
      rfl

theorem read_of_readAll (isFolder : t.isFolder root = true)
    (noFault : (Source.readAll t root (t.sources root)).2 = none) : (Project.read t root).result =
      .ok (.ofSources root (t.sources root) (Source.readAll t root (t.sources root)).1) := by
  unfold Project.read
  rw [isFolder]
  dsimp only
  rw [noFault]
  rfl

theorem read_of_sources (isFolder : t.isFolder root = true)
    (listed : t.sources root = files) (noFault : (Source.readAll t root files).2 = none) :
    (Project.read t root).result = .ok (.ofSources root files (Source.readAll t root files).1) := by
  subst listed
  exact read_of_readAll isFolder noFault

theorem indexed_of_read (read : (Project.read t root).result = .ok p) :
    p.sources.Indexed root (t.sources root) := by
  rw [eq_ofSources_of_read read]
  exact SourceSet.Indexed.addAll (fun _ member => Source.mem_readAll member) .empty

theorem scopes_of_read (read : (Project.read t root).result = .ok p) :
    p.scopes = p.sources.scopes := by
  rw [eq_ofSources_of_read read]
  rfl

end Project

end ChannelLint
