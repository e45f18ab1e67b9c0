import ChannelLint.Lint
import ChannelLint.Proofs.Casing.Outline
import ChannelLint.Proofs.Index
import ChannelLint.Proofs.Reading.Utf8

/-!
# A script that is alone in its project

A project that holds one script and nothing else has one scope, with that script in it, whatever the
script imports. So linting the project gives what linting the text of the script gives. The root is
a relative path: no absolute path leads into a tree of files.
-/
namespace ChannelLint

open List Text

variable {path root text : String} {top : List String} {settings : Settings}

/-! ## Paths below a folder -/

namespace Path

theorem parts_append_slash (a b : String) : parts (a ++ "/" ++ b) = parts a ++ parts b := by
  rw [parts, parts, parts, String.toList_append, String.toList_append, append_assoc,
    ← map_append, ← splitOn_append_cons_self]
  rfl

theorem exists_of_endsWith (ends : path.endsWith "/" = true) : ∃ front, path = front ++ "/" := by
  obtain ⟨front, split⟩ := String.Slice.endsWith_string_iff.1 ends
  rw [String.copy_toSlice] at split
  refine ⟨String.ofList front, String.toList_inj.1 ?_⟩
  rw [String.toList_append, String.toList_ofList, split]

/-- A path behind a folder has the names of the folder, without the empty name behind its last
slash, and its own names behind them. -/
theorem parts_join (filled : root ≠ "") (relative : path.startsWith "/" = false) :
    ∃ names, (parts root = names ∨ parts root = names ++ [""]) ∧
      parts (join root path) = names ++ parts path := by
  rw [join, relative, if_neg Bool.false_ne_true]
  have nonempty : root.isEmpty = false :=
    Bool.eq_false_iff.2 fun empty => filled (String.isEmpty_iff.1 empty)
  rw [nonempty, Bool.false_or]
  split
  · next ends =>
    obtain ⟨front, same⟩ := exists_of_endsWith ends
    refine ⟨parts front, .inr ?_, ?_⟩
    · have behind := parts_append_slash front ""
      rw [String.append_empty] at behind
      rw [same, behind]
      rfl
    · rw [same, parts_append_slash]
  · exact ⟨parts root, .inl rfl, parts_append_slash root path⟩

theorem startsWith_append {a b : String} (filled : a ≠ "") :
    (a ++ b).startsWith "/" = a.startsWith "/" := by
  have nonempty : a.toList ≠ [] := fun none => filled (String.toList_inj.1 none)
  rw [Bool.eq_iff_iff, String.startsWith_string_iff, String.startsWith_string_iff,
    String.toList_append]
  cases chars : a.toList with
  | nil => exact absurd chars nonempty
  | cons c cs => simp [cons_prefix_cons]

end Path

namespace FileTree

variable {t : FileTree}

theorem follow_append (t : FileTree) (place first second : List String) :
    t.follow place (first ++ second) = (t.follow place first).bind (t.follow · second) := by
  induction first generalizing place with
  | nil => rfl
  | cons name rest ih =>
    rw [cons_append, follow, follow]
    dsimp only
    split_ifs
    · rfl
    · exact ih place
    · rfl
    · exact ih place.dropLast
    · exact ih (place ++ [name])
    · rfl

theorem follow_empty (t : FileTree) (place : List String) :
    t.follow place [""] = if t.hasFolder place then .ok place else .error .notFolder := by
  unfold follow
  cases t.hasFolder place <;> rfl

/-- A path behind a folder is followed from that folder. -/
theorem resolve_join (found : t.resolve root = .ok top) (relative : path.startsWith "/" = false) :
    t.resolve (Path.join root path) = t.follow top (Path.parts path) := by
  unfold resolve at found
  split at found
  · cases found
  · next legal =>
    simp only [Bool.or_eq_true, not_or, Bool.not_eq_true, String.isEmpty_eq_false_iff] at legal
    obtain ⟨filled, local_⟩ := legal
    obtain ⟨names, ends, whole⟩ := Path.parts_join filled relative
    have legal : ((Path.join root path).isEmpty || (Path.join root path).startsWith "/") =
        false := by
      unfold Path.join
      rw [relative, if_neg Bool.false_ne_true]
      split
      · simp [Path.startsWith_append filled, local_, filled]
      · rw [String.append_assoc]
        simp [Path.startsWith_append filled, local_, filled]
    have reached : t.follow t.current names = .ok top := by
      rcases ends with same | same
      · rwa [← same]
      · rw [same, follow_append] at found
        cases followed : t.follow t.current names with
        | error fault =>
          rw [followed] at found
          cases found
        | ok place =>
          rw [followed] at found
          have here : t.follow place [""] = .ok top := found
          rw [follow_empty] at here
          split at here
          · exact here
          · cases here
    rw [resolve, legal, if_neg Bool.false_ne_true, whole, follow_append, reached]
    rfl

/-- The path `root` leads to the folder `top`, and below it is one file: the one at
`source/main.brs`. -/
structure HoldsMain (t : FileTree) (root : String) (top : List String) (bytes : ByteArray) :
    Prop where
  found : t.resolve root = .ok top
  folder : t.hasFolder top
  sourceFolder : t.hasFolder (top ++ ["source"])
  files : t.files.filter (fun entry => top.isPrefixOf entry.1) =
    [(top ++ ["source", "main.brs"], bytes)]
  isFile : t.hasFolder (top ++ ["source", "main.brs"]) = false

theorem lookup_filter {entries : List (List String × ByteArray)} {p : List String → Bool}
    {place : List String} (holds : p place) :
    (entries.filter fun entry => p entry.1).lookup place = entries.lookup place := by
  induction entries with
  | nil => rfl
  | cons entry rest ih =>
    obtain ⟨key, bytes⟩ := entry
    by_cases same : place = key
    · subst same
      simp [holds]
    · have differs : (place == key) = false := beq_false_of_ne same
      rw [filter_cons]
      split
      · simp only [lookup_cons, differs, ih]
      · simp only [lookup_cons, differs, ih]

variable {bytes : ByteArray}

theorem HoldsMain.readBytes (main : t.HoldsMain root top bytes) :
    t.readBytes (Path.join root "source/main.brs") = .ok bytes := by
  have there : t.file? (top ++ ["source", "main.brs"]) = some bytes := by
    have inTop : top.isPrefixOf (top ++ ["source", "main.brs"]) := by simp
    rw [file?, ← lookup_filter inTop, main.files]
    simp
  have names : Path.parts "source/main.brs" = ["source", "main.brs"] := by decide
  have place : t.resolve (Path.join root "source/main.brs") =
      .ok (top ++ ["source", "main.brs"]) := by
    rw [resolve_join main.found (String.startsWith_string_eq_false_iff.2 (by decide)), names]
    simp [follow, main.folder, main.sourceFolder, there]
  unfold FileTree.readBytes
  rw [place]
  simp only [bind, Except.bind, main.isFile, there]
  rfl

theorem HoldsMain.isFolder (main : t.HoldsMain root top bytes) : t.isFolder root = true := by
  rw [FileTree.isFolder, main.found]
  exact main.folder

theorem HoldsMain.sources (main : t.HoldsMain root top bytes) :
    t.sources root = ["source/main.brs"] := by
  have below : (t.files.filterMap fun entry =>
      if top.isPrefixOf entry.1 then some (entry.1.drop top.length) else none) =
      (t.files.filter fun entry => top.isPrefixOf entry.1).map (·.1.drop top.length) := by
    rw [← filterMap_eq_map, filterMap_filter]
    rfl
  unfold FileTree.sources
  rw [main.found]
  show (((t.files.filterMap fun entry => if top.isPrefixOf entry.1 then
    some (entry.1.drop top.length) else none).filter isSource).map pkgPath).mergeSort _ = _
  have kept : [["source", "main.brs"]].filter isSource = [["source", "main.brs"]] := by decide
  rw [below, main.files, map_singleton, drop_left, kept, map_singleton, mergeSort_singleton]
  decide

theorem HoldsMain.readRaw (main : t.HoldsMain root top (encode text)) :
    t.readRaw (Path.join root "source/main.brs") = .ok text := by
  unfold FileTree.readRaw
  rw [main.readBytes]
  show (decode (encode text)).mapError _ = _
  rw [decode_encode]
  rfl

theorem HoldsMain.readText (main : t.HoldsMain root top (encode text)) :
    t.readText (Path.join root "source/main.brs") =
      .ok (String.ofList (unifyLineEnds text.toList)) := by
  unfold FileTree.readText
  rw [main.readBytes]
  show (decodeLines (encode text)).mapError _ = _
  rw [decodeLines_encode]
  rfl

end FileTree

/-! ## A project with one script -/

theorem Worklist.visit_of_seen {graph : OrderedMap (List String)} {stack seen : List String}
    (all : ∀ name ∈ stack, name ∈ seen) : visit graph stack seen = [] := by
  induction stack with
  | nil => rw [visit]
  | cons name rest ih =>
    obtain ⟨first, others⟩ := forall_mem_cons.1 all
    rw [visit, dif_pos first, ih others]

namespace Script

/-- A script as the only source. -/
def onlySource (f : Script) : SourceSet :=
  { scripts := ⟨[("source/main.brs", f)]⟩ }

/-- The project in which a script is the only file. -/
def alone (f : Script) (root : String) : Project :=
  .ofSources root ["source/main.brs"] [("source/main.brs", .script f)]

theorem sources_alone (f : Script) (root : String) : (f.alone root).sources = f.onlySource := by
  have key : lower "source/main.brs" = "source/main.brs" := by decide
  simp only [alone, Project.ofSources, SourceSet.ofList, foldl_cons, foldl_nil, SourceSet.add, key]
  rfl

theorem sortedScripts_alone (f : Script) (root : String) : (f.alone root).sortedScripts = [f] := by
  rw [Project.sortedScripts, sources_alone]
  show (["source/main.brs"].mergeSort _).filterMap _ = _
  rw [mergeSort_singleton]
  rfl

theorem sourceRoots_onlySource (f : Script) : f.onlySource.sourceRoots = ["source/main.brs"] := by
  show (["source/main.brs"].mergeSort _).filter _ = _
  rw [mergeSort_singleton, filter_cons_of_pos, filter_nil]
  exact String.startsWith_string_iff.2 (by decide)

/-- The script can import nothing but itself. -/
theorem visit_onlySource (f : Script) :
    Worklist.visit f.onlySource.imports ["source/main.brs"] [] = ["source/main.brs"] := by
  obtain ⟨next, imports, itself⟩ : ∃ next,
      f.onlySource.imports.find? "source/main.brs" = some next ∧
      ∀ name ∈ next, name ∈ ["source/main.brs"] := by
    refine ⟨_, rfl, fun name member => ?_⟩
    obtain ⟨-, held⟩ := mem_filter.1 (mem_reverse.1 member)
    obtain ⟨g, found⟩ := Option.isSome_iff_exists.1 held
    exact Worklist.mem_keys_of_find? found
  rw [Worklist.visit, dif_neg not_mem_nil]
  split
  · next missing => simp [imports] at missing
  · next found =>
    obtain rfl := Option.some.inj (imports.symm.trans found)
    rw [append_nil, Worklist.visit_of_seen itself]

/-- Whatever the script imports, it is the only one in its scope. -/
theorem scopes_alone (f : Script) (root : String) : (f.alone root).scopes = [f.ownScope] := by
  have scopes : (f.alone root).scopes = f.onlySource.scopes := by
    rw [← sources_alone f root]
    rfl
  have components : f.onlySource.namedComponents = [] := by
    show (([].mergeSort _).filterMap _).filter _ = _
    rw [mergeSort_nil]
    rfl
  rw [scopes, SourceSet.scopes, components, SourceSet.scope, sourceRoots_onlySource,
    visit_onlySource]
  rfl

/-- The analysis of a script does not look at the path of its file, as long as no file is
ignored. -/
theorem lintScript_path (unignored : settings.ignores = []) (f : Script)
    (path : String) : lintScript settings { f with path } = lintScript settings f := by
  have kept (path : String) : settings.isIgnored path = false := by
    simp [Settings.isIgnored, unignored]
  rw [lintScript_eq, lintScript_eq, kept, kept]
  rfl

/-- Linting the project of a script gives what linting the script gives. -/
theorem diagnostics_alone (unignored : settings.ignores = []) (f : Script) (root : String) :
    kept settings (((f.alone root).analyze settings).1 ++
      (f.alone root).scopes.flatMap (((f.alone root).analyze settings).2.finalize settings)) =
    lintScript settings f := by
  have all (ds : List Diagnostic) : ds.filter (fun d => !settings.isIgnored d.file) = ds := by
    refine filter_eq_self.2 fun d _ => ?_
    simp [Settings.isIgnored, unignored]
  rw [kept, all, scopes_alone, Project.analyze, sortedScripts_alone, flatMap_singleton]
  rfl

end Script

/-- Linting a project whose only file is a script gives the diagnostics of the text of that script
with unified line ends, whether the fixes are written or not. -/
theorem FileTree.HoldsMain.exists_lint {t : FileTree}
    {s : Script} (main : t.HoldsMain root top (encode text))
    (read : Script.read (String.ofList (unifyLineEnds text.toList)) "source/main.brs"
      "source/main.brs" = .ok s)
    (unignored : settings.ignores = []) (unchecked : settings.checkUsage = false) (fix : Bool) :
    ∃ r, (lintProject t settings root fix).result = .ok r ∧
      r.diagnostics = lintScript settings s ∧ r.fixes = fixesByFile r.diagnostics := by
  generalize unified : String.ofList (unifyLineEnds text.toList) = lines at read
  obtain ⟨f, read', path⟩ : ∃ f,
      Script.read lines (Path.join root "source/main.brs") "source/main.brs" = .ok f ∧
      { f with path := "source/main.brs" } = s := by
    obtain ⟨ds, parsed, rfl⟩ := Script.exists_parsed read
    refine ⟨⟨Path.join root "source/main.brs", "source/main.brs", lines, Decl.placeAll none ds⟩, ?_, rfl⟩
    rw [Script.read_eq, parsed]
    rfl
  have source : Source.read t root "source/main.brs" = .ok (.script f) := by
    have isScript : FileTree.componentExtensions.contains (Path.extension "source/main.brs") =
        false := by
      decide +kernel
    unfold Source.read
    dsimp only
    rw [main.readText, unified]
    dsimp only
    rw [isScript, if_neg Bool.false_ne_true, read']
  have project : (Project.read t root).result = .ok (f.alone root) := by
    have all : Source.readAll t root (t.sources root) =
        ([("source/main.brs", .script f)], none) := by
      rw [main.sources]
      unfold Source.readAll
      rw [source]
      rfl
    rw [Project.read_of_readAll main.isFolder (congrArg Prod.snd all), all, main.sources]
    rfl
  have usage : (checkUsage settings (f.alone root)).result = .ok {} := by
    rw [checkUsage, unchecked]
    rfl
  rw [← path, Script.lintScript_path unignored, ← Script.diagnostics_alone unignored f root]
  unfold lintProject
  dsimp only
  rw [project]
  dsimp only
  rw [usage]
  dsimp only
  exact ⟨_, rfl, by rw [append_nil], rfl⟩

/-- Linting a project whose only file is a script without carriage returns gives the diagnostics of
the text of that script, whether the fixes are written or not. -/
theorem lintProject_eq_lintScript {t : FileTree} {root text : String} {top : List String}
    {s : Script} {settings : Settings} (main : t.HoldsMain root top (Text.encode text))
    (plain : '\r' ∉ text.toList)
    (read : Script.read text "source/main.brs" "source/main.brs" = .ok s)
    (unignored : settings.ignores = []) (unchecked : settings.checkUsage = false) (fix : Bool) :
    ∃ r, (lintProject t settings root fix).result = .ok r ∧
      r.diagnostics = lintScript settings s := by
  have unified : String.ofList (unifyLineEnds text.toList) = text := by
    rw [unifyLineEnds_eq_self plain, String.ofList_toList]
  obtain ⟨r, linted, diagnostics, -⟩ :=
    main.exists_lint (unified.symm ▸ read) unignored unchecked fix
  exact ⟨r, linted, diagnostics⟩

/-- A tree with one script. -/
def mainOnly (text : String) : FileTree where
  files := [(["app", "source", "main.brs"], encode text)]
  folders := [["app"], ["app", "source"]]

theorem holdsMain_mainOnly (text : String) :
    (mainOnly text).HoldsMain "app" ["app"] (encode text) where
  found := by
    have relative : "app".startsWith "/" = false :=
      String.startsWith_string_eq_false_iff.2 (by decide)
    have names : Path.parts "app" = ["app"] := by decide
    rw [FileTree.resolve, relative, names]
    rfl
  folder := by simp [mainOnly, FileTree.hasFolder]
  sourceFolder := by simp [mainOnly, FileTree.hasFolder]
  files := rfl
  isFile := by simp [mainOnly, FileTree.hasFolder]

/-- A script behind a byte-order mark that imports itself and a file that is not there. -/
def selfImporting : String :=
  "\ufeffimport \"pkg:/source/main.brs\"\nimport \"lost.brs\"\nsub main()\n  x = 1\n" ++
    "  print X, y\nend sub\n"

theorem lintProject_eq_lintScript_selfImporting :
    (mainOnly selfImporting).HoldsMain "app" ["app"] (Text.encode selfImporting) ∧
    '\r' ∉ selfImporting.toList ∧
    ∃ s, Script.read selfImporting "source/main.brs" "source/main.brs" = .ok s ∧
      (s.lintFindings {}).map (·.issue) = [.caseMismatch "X" "x", .uninitialized "y" "source"] ∧
      ∃ r, (lintProject (mainOnly selfImporting) {} "app" true).result = .ok r ∧
        r.diagnostics = lintScript {} s := by
  have plain : '\r' ∉ selfImporting.toList := by decide +kernel
  have linted : (Script.read selfImporting "source/main.brs" "source/main.brs").toOption.map
      (fun s => (s.lintFindings {}).map (·.issue)) =
      some [.caseMismatch "X" "x", .uninitialized "y" "source"] := by
    decide +kernel
  obtain ⟨s, read, issues⟩ := exists_ok_of_map_toOption linted
  have main := holdsMain_mainOnly selfImporting
  exact ⟨main, plain, s, read, issues, lintProject_eq_lintScript main plain read rfl rfl true⟩

end ChannelLint
