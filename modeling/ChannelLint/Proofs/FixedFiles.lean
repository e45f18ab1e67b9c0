import ChannelLint.Fixer
import ChannelLint.Proofs.OrderedMap

/-!
# Which files are changed

Edits are applied file by file. Writing a file keeps the layout of the tree and the bytes of every
other file, so what happens to a file depends on its own bytes and edits alone, and counting without
writing gives the same numbers.
-/
namespace ChannelLint

open List

namespace FileTree

/-! ## Writing a file -/

/-- Every file stands in folders. -/
def Housed (t : FileTree) : Prop :=
  ∀ entry ∈ t.files, ∀ k < entry.1.length, t.hasFolder (entry.1.take k)

/-- The same files and folders, whatever the files hold. -/
structure SameLayout (t u : FileTree) : Prop where
  places : u.files.map (·.1) = t.files.map (·.1)
  folders : ∀ place, u.hasFolder place = t.hasFolder place
  current : u.current = t.current

variable {t u v : FileTree} {path : String} {place : List String}

theorem SameLayout.refl (t : FileTree) : t.SameLayout t :=
  ⟨rfl, fun _ => rfl, rfl⟩

theorem SameLayout.trans (first : t.SameLayout u) (second : u.SameLayout v) : t.SameLayout v :=
  ⟨second.places.trans first.places,
    fun place => (second.folders place).trans (first.folders place),
    second.current.trans first.current⟩

theorem isSome_file? (t : FileTree) (place : List String) :
    (t.file? place).isSome ↔ place ∈ t.files.map (·.1) := by
  rw [file?, Option.isSome_iff_ne_none, Ne, lookup_eq_none_iff]
  simp

theorem SameLayout.housed (same : t.SameLayout u) (housed : t.Housed) : u.Housed := by
  intro entry member k below
  have listed : entry.1 ∈ t.files.map (·.1) := same.places ▸ mem_map_of_mem member
  obtain ⟨entry', member', isPlace⟩ := mem_map.1 listed
  rw [same.folders, ← isPlace]
  exact housed entry' member' k (isPlace ▸ below)

theorem SameLayout.resolve_eq (same : t.SameLayout u) (path : String) :
    u.resolve path = t.resolve path := by
  have files (place : List String) : (u.file? place).isSome = (t.file? place).isSome := by
    rw [Bool.eq_iff_iff, isSome_file?, isSome_file?, same.places]
  have follow (start names : List String) : u.follow start names = t.follow start names := by
    induction names generalizing start with
    | nil => rfl
    | cons name rest ih => simp only [FileTree.follow, same.folders, files, ih]
  rw [resolve, resolve, same.current, follow]

/-- What is read from a path depends on the layout and on the bytes it leads to. -/
theorem SameLayout.readBytes_eq (same : t.SameLayout u)
    (bytes : ∀ place, t.resolve path = .ok place → u.file? place = t.file? place) :
    u.readBytes path = t.readBytes path := by
  rw [readBytes, readBytes, same.resolve_eq]
  cases found : t.resolve path with
  | error fault => rfl
  | ok place => simp only [bind, Except.bind, same.folders, bytes place found]

theorem readRaw_congr (same : u.readBytes path = t.readBytes path) :
    u.readRaw path = t.readRaw path := by
  rw [readRaw, readRaw, same]

theorem readBytes_of_file? {bytes : ByteArray} (found : t.resolve path = .ok place)
    (leaf : t.hasFolder place = false) (isFile : t.file? place = some bytes) :
    t.readBytes path = .ok bytes := by
  simp [readBytes, found, leaf, isFile, bind, Except.bind, pure, Except.pure]

theorem exists_file_of_readRaw {text : String} (read : t.readRaw path = .ok text) :
    ∃ place bytes, t.resolve path = .ok place ∧ t.hasFolder place = false ∧
      t.file? place = some bytes := by
  unfold readRaw readBytes at read
  cases found : t.resolve path with
  | error fault => simp [found, bind, Except.bind, Except.mapError] at read
  | ok place =>
    cases isFile : t.file? place <;> cases leaf : t.hasFolder place <;>
      simp [found, leaf, isFile, bind, Except.bind, Except.mapError] at read
    exact ⟨place, _, rfl, leaf, isFile⟩

/-- Writing a file that exists changes its bytes and nothing else. -/
theorem writeText_of_file (housed : t.Housed) {bytes : ByteArray}
    (found : t.resolve path = .ok place) (isFile : t.file? place = some bytes) (text : String) :
    t.SameLayout (t.writeText path text) ∧ ∀ other,
      (t.writeText path text).file? other =
        if other = place then some (Text.encode text) else t.file? other := by
  have exists? : (t.file? place).isSome := isFile ▸ rfl
  obtain ⟨entry, member, isPlace⟩ := mem_map.1 ((t.isSome_file? place).1 exists?)
  rw [writeText, found]
  simp only [insert, exists?, ↓reduceIte]
  refine ⟨⟨?_, fun other => ?_, rfl⟩, fun other => ?_⟩
  · rw [map_map]
    refine map_congr_left fun entry _ => ?_
    dsimp only [Function.comp]
    split <;> rfl
  · rw [Bool.eq_iff_iff]
    unfold hasFolder
    rw [Bool.or_eq_true, Bool.or_eq_true, contains_iff_mem, contains_iff_mem,
      OrderedMap.mem_foldl_keep]
    refine ⟨?_, fun old => old.imp_right .inl⟩
    rintro (top | old | above)
    · exact .inl top
    · exact .inr old
    · obtain ⟨k, below, rfl⟩ := mem_map.1 above
      have folder := housed entry member k (isPlace ▸ mem_range.1 below)
      rwa [isPlace, hasFolder, Bool.or_eq_true, contains_iff_mem] at folder
  · unfold file?
    rw [OrderedMap.lookup_modify t.files place other fun _ => Text.encode text]
    split
    · next same => rw [same, ← file?, isFile, Option.map_some]
    · rfl

/-- Different paths, no two of which lead to the same place. -/
def Separate (t : FileTree) (entries : List (String × List TextEdit)) : Prop :=
  entries.Pairwise fun a b =>
    a.1 ≠ b.1 ∧ ∀ place ∈ (t.resolve a.1).toOption, place ∉ (t.resolve b.1).toOption

/-- How many of the edits of a file are applied; none if it cannot be read. -/
def countFixes (t : FileTree) (path : String) (edits : List TextEdit) : Nat :=
  match t.readRaw path with
  | .ok text => (applyEdits text edits).applied
  | .error _ => 0

/-- What the edits of a file make of its text, if there are any and it can be read. -/
def fixedText? (t : FileTree) (path : String) (edits : List TextEdit) : Option String :=
  if edits = [] then none
  else (t.readRaw path).toOption.map fun text => String.ofList (applyEdits text edits).text

theorem fixedText?_eq_some {edits : List TextEdit} {new : String} :
    t.fixedText? path edits = some new ↔ edits ≠ [] ∧ ∃ text, t.readRaw path = .ok text ∧
      String.ofList (applyEdits text edits).text = new := by
  unfold fixedText?
  cases t.readRaw path <;> split <;> simp_all [Except.toOption]

end FileTree

/-! ## Files one after the other -/

namespace FixReport

variable {r : FixReport} {t : FileTree} {path : String} {edits : List TextEdit} {dryRun : Bool}
  {done : List (String × List TextEdit)}

theorem readRaw_of_not_holds (missing : t.holds path = false) :
    ∃ fault, t.readRaw path = .error fault := by
  cases found : t.resolve path with
  | error fault =>
    refine ⟨.path fault, ?_⟩
    rw [FileTree.readRaw, FileTree.readBytes, found]
    rfl
  | ok place => simp [FileTree.holds, found, Except.isOk, Except.toBool] at missing

/-- What becomes of a file with edits. -/
theorem fixFile_of_filled (r : FixReport) (path : String) (dryRun : Bool) (filled : edits ≠ []) :
    (r.fixFile dryRun path edits).applied =
      r.applied.insert path (r.tree.countFixes path edits) ∧
    (r.fixFile dryRun path edits).tree = (if dryRun then none
      else r.tree.fixedText? path edits).elim r.tree (r.tree.writeText path) := by
  unfold fixFile FileTree.countFixes FileTree.fixedText?
  rw [if_neg (by simpa using filled), if_neg filled]
  split
  · next missing =>
    obtain ⟨fault, unreadable⟩ := readRaw_of_not_holds (by simpa using missing)
    simp [unreadable, fail, Except.toOption]
  · split
    · next fault unreadable => simp [unreadable, fail, Except.toOption]
    · next text read => cases dryRun <;> simp [read, Except.toOption]

/-- The files in `done` have been looked at, and each was fixed by its own edits. -/
structure Fixed (t : FileTree) (dryRun : Bool) (done : List (String × List TextEdit))
    (r : FixReport) : Prop where
  applied : r.applied.entries = (done.filter (·.2 ≠ [])).map fun (path, edits) =>
    (path, t.countFixes path edits)
  layout : t.SameLayout r.tree
  dry : dryRun = true → r.tree = t
  kept : ∀ place, (∀ entry ∈ done, t.resolve entry.1 = .ok place →
    t.fixedText? entry.1 entry.2 = none) → r.tree.file? place = t.file? place
  written : dryRun = false → ∀ entry ∈ done, ∀ text ∈ t.fixedText? entry.1 entry.2, ∀ place,
    t.resolve entry.1 = .ok place → r.tree.file? place = some (Text.encode text)

/-- A file without edits is passed over. -/
theorem Fixed.skip (fixed : r.Fixed t dryRun done) : r.Fixed t dryRun (done ++ [(path, [])]) := by
  refine ⟨by simpa using fixed.applied, fixed.layout, fixed.dry, fun place kept => ?_, ?_⟩
  · exact fixed.kept place (forall_mem_append.1 kept).1
  · refine fun real => forall_mem_append.2 ⟨fixed.written real, forall_mem_singleton.2 ?_⟩
    exact fun text isFixed => absurd rfl (FileTree.fixedText?_eq_some.1 isFixed).1

theorem Fixed.fixFile (fixed : r.Fixed t dryRun done) (housed : t.Housed) (filled : edits ≠ [])
    (apart : ∀ entry ∈ done, entry.1 ≠ path ∧
      ∀ place ∈ (t.resolve entry.1).toOption, place ∉ (t.resolve path).toOption) :
    (r.fixFile dryRun path edits).Fixed t dryRun (done ++ [(path, edits)]) := by
  -- No file that was looked at is this one, so it still has the bytes it had.
  have bytes (place : List String) (found : t.resolve path = .ok place) :
      r.tree.file? place = t.file? place :=
    fixed.kept place fun entry member there =>
      absurd (by rw [found]; rfl) ((apart entry member).2 place (by rw [there]; rfl))
  have read : r.tree.readRaw path = t.readRaw path :=
    FileTree.readRaw_congr (fixed.layout.readBytes_eq bytes)
  have isNew : path ∉ r.applied.keys := by
    rw [OrderedMap.keys, fixed.applied, map_map]
    intro listed
    obtain ⟨entry, member, same⟩ := mem_map.1 listed
    exact (apart entry (mem_filter.1 member).1).1 same
  obtain ⟨applied, tree⟩ := fixFile_of_filled r path dryRun filled
  have counted : (r.fixFile dryRun path edits).applied.entries =
      ((done ++ [(path, edits)]).filter (·.2 ≠ [])).map fun (path, edits) =>
        (path, t.countFixes path edits) := by
    rw [applied, OrderedMap.entries_insert isNew, fixed.applied]
    simp [filled, FileTree.countFixes, read]
  have same : r.tree.fixedText? path edits = t.fixedText? path edits := by
    rw [FileTree.fixedText?, FileTree.fixedText?, read]
  rw [same] at tree
  cases isFixed : (if dryRun then none else t.fixedText? path edits) with
  | none =>
    rw [isFixed, Option.elim_none] at tree
    refine ⟨counted, tree ▸ fixed.layout, tree ▸ fixed.dry, fun place kept => ?_, fun real => ?_⟩
    · rw [tree]
      exact fixed.kept place (forall_mem_append.1 kept).1
    · rw [tree]
      refine forall_mem_append.2 ⟨fixed.written real, forall_mem_singleton.2 ?_⟩
      intro text isText
      rw [real, if_neg (by simp)] at isFixed
      cases isFixed.symm.trans isText
  | some text =>
    obtain ⟨real, isText⟩ : dryRun = false ∧ t.fixedText? path edits = some text := by
      cases dryRun <;> simp_all
    rw [isFixed, Option.elim_some] at tree
    obtain ⟨-, old, isRead, -⟩ := FileTree.fixedText?_eq_some.1 isText
    obtain ⟨place, before, found, -, isFile⟩ := FileTree.exists_file_of_readRaw isRead
    obtain ⟨layout, after⟩ := FileTree.writeText_of_file (fixed.layout.housed housed)
      ((fixed.layout.resolve_eq path).trans found) ((bytes place found).trans isFile) text
    rw [← tree] at layout after
    refine ⟨counted, fixed.layout.trans layout, fun dry => ?_, fun other kept => ?_, fun _ => ?_⟩
    · cases real.symm.trans dry
    · obtain ⟨keptBefore, keptHere⟩ := forall_mem_append.1 kept
      rw [after, if_neg ?_, fixed.kept other keptBefore]
      rintro rfl
      cases isText.symm.trans (forall_mem_singleton.1 keptHere found)
    · refine forall_mem_append.2 ⟨fun entry member text isText place there => ?_,
        forall_mem_singleton.2 fun other isOther place there => ?_⟩
      · rw [after, if_neg ?_, fixed.written real entry member text isText place there]
        rintro rfl
        exact (apart entry member).2 place (by rw [there]; rfl) (by rw [found]; rfl)
      · cases isText.symm.trans isOther
        cases found.symm.trans there
        rw [after, if_pos rfl]

theorem fixed_foldl {rest : List (String × List TextEdit)} (fixed : r.Fixed t dryRun done)
    (housed : t.Housed) (separate : t.Separate (done ++ rest)) :
    (rest.foldl (fun r (path, edits) => r.fixFile dryRun path edits) r).Fixed t dryRun
      (done ++ rest) := by
  induction rest generalizing done r with
  | nil => rwa [append_nil]
  | cons entry rest ih =>
    obtain ⟨path, edits⟩ := entry
    obtain ⟨-, -, before⟩ := pairwise_append.1 separate
    rw [← singleton_append, ← append_assoc] at separate ⊢
    refine ih ?_ separate
    by_cases filled : edits = []
    · subst filled
      exact fixed.skip
    · exact fixed.fixFile housed filled fun entry member =>
        before entry member _ mem_cons_self

end FixReport

namespace FileTree

/-- Fixing files one by one. A file that has edits and can be read takes the text that its own edits
make of its own text; all other files keep their bytes, and no file comes or goes. Each file with
edits is counted, with 0 if it cannot be read, and a dry run counts the same and writes nothing. -/
theorem fix_each_alone (t : FileTree) (edits : OrderedMap (List TextEdit)) (housed : t.Housed)
    (separate : t.Separate edits.entries) : (∀ dryRun, (t.fix edits dryRun).applied.entries =
      (edits.entries.filter (·.2 ≠ [])).map fun (path, es) => (path, t.countFixes path es)) ∧
    (t.fix edits true).tree = t ∧ t.SameLayout (t.fix edits false).tree ∧
    (∀ path es text, (path, es) ∈ edits.entries → es ≠ [] → t.readRaw path = .ok text →
      (t.fix edits false).tree.readBytes path =
        .ok (Text.encode (String.ofList (applyEdits text es).text))) ∧
    (∀ path fault, t.readRaw path = .error fault →
      (t.fix edits false).tree.readBytes path = t.readBytes path) ∧
    ∀ place, (t.fix edits false).tree.file? place ≠ t.file? place →
      ∃ path es text, (path, es) ∈ edits.entries ∧ es ≠ [] ∧ t.resolve path = .ok place ∧
        t.readRaw path = .ok text := by
  have start (dryRun : Bool) : FixReport.Fixed t dryRun [] { tree := t } :=
    ⟨rfl, .refl t, fun _ => rfl, fun _ _ => rfl, fun _ => nofun⟩
  have fixed (dryRun : Bool) : (t.fix edits dryRun).Fixed t dryRun edits.entries :=
    FixReport.fixed_foldl (start dryRun) housed separate
  have layout := (fixed false).layout
  refine ⟨fun dryRun => (fixed dryRun).applied, (fixed true).dry rfl, layout, ?_, ?_, ?_⟩
  · intro path es text member filled read
    obtain ⟨place, bytes, found, leaf, isFile⟩ := exists_file_of_readRaw read
    refine readBytes_of_file? ((layout.resolve_eq path).trans found)
      ((layout.folders place).trans leaf) ?_
    exact (fixed false).written rfl _ member _ (fixedText?_eq_some.2 ⟨filled, text, read, rfl⟩)
      place found
  · intro path fault unreadable
    refine layout.readBytes_eq fun place found => (fixed false).kept place fun entry _ there => ?_
    have same : t.readRaw entry.1 = .error fault := by
      rw [← unreadable, readRaw, readRaw, readBytes, readBytes, there, found]
    simp [fixedText?, same, Except.toOption]
  · intro place changed
    by_contra none
    refine changed ((fixed false).kept place fun entry member found => ?_)
    cases isFixed : t.fixedText? entry.1 entry.2 with
    | none => rfl
    | some text =>
      obtain ⟨filled, old, read, -⟩ := fixedText?_eq_some.1 isFixed
      exact absurd ⟨entry.1, entry.2, old, member, filled, found, read⟩ none

/-- A file with two lines, one that is no text, an empty folder and a file that stays as it is. -/
def mixedTree : FileTree where
  files := [(["a.brs"], Text.encode "x\r\ny"), (["b.brs"], ⟨#[255]⟩), (["e.brs"], Text.encode "z")]
  folders := [["d"]]

def mixedEdits : OrderedMap (List TextEdit) :=
  let edits : List TextEdit := [⟨⟨⟨0, 0⟩, ⟨0, 1⟩⟩, "new"⟩, ⟨⟨⟨1, 1⟩, ⟨1, 1⟩⟩, "!"⟩]
  ⟨[("a.brs", edits), ("b.brs", edits), ("c.brs", edits), ("d", edits), ("e.brs", [])]⟩

theorem fix_each_alone_mixedTree : mixedTree.Housed ∧ mixedTree.Separate mixedEdits.entries ∧
    (∀ dryRun, (mixedTree.fix mixedEdits dryRun).applied.entries =
      [("a.brs", 2), ("b.brs", 0), ("c.brs", 0), ("d", 0)]) ∧
    (mixedTree.fix mixedEdits true).tree = mixedTree ∧
    (mixedTree.fix mixedEdits false).tree.readBytes "a.brs" = .ok (Text.encode "new\r\ny!") ∧
    (mixedTree.fix mixedEdits false).tree.readBytes "b.brs" = mixedTree.readBytes "b.brs" := by
  have housed : mixedTree.Housed := by
    unfold Housed
    decide
  have separate : mixedTree.Separate mixedEdits.entries := by
    unfold Separate
    decide +kernel
  obtain ⟨applied, dry, -, written, unreadable, -⟩ :=
    fix_each_alone mixedTree mixedEdits housed separate
  refine ⟨housed, separate, fun dryRun => (applied dryRun).trans ?_, dry, ?_, ?_⟩
  · cbv
  · rw [written "a.brs" _ "x\r\ny" mem_cons_self (by simp) (by cbv)]
    congr 2
    cbv
  · exact unreadable "b.brs" (.encoding ⟨.badStart, 0, 1, 255⟩) (by cbv)

end FileTree

end ChannelLint
