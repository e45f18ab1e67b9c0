import ChannelLint.Flow.Session
import ChannelLint.Proofs.Casing.Traces
import ChannelLint.Proofs.Naming.Declared
import ChannelLint.Proofs.Scopes
import ChannelLint.Proofs.Spans.Names

/-!
# Which deferred uses are reported

A deferred use is a name and the namespace of the function that holds it. It is resolved if, behind
some prefix of that namespace, a file of the scope declares the name or opens a namespace of that
name, or if the dotted name is known to the runtime or to the settings. The deferred uses that are
reported are exactly those that are not resolved, in the order of the files and, within a file, of
the uses.

A session records only uses that the analysis of scripts gives: their names and the segments of
their namespaces hold no dots, so that equal dotted names have equal segments.
-/
namespace ChannelLint

open List

variable {path : List String}

open Text

/-! ## What is known -/

namespace Scope

/-- A file declares the name in exactly this namespace. Case does not matter. -/
def Declares (scope : Scope) (path : List String) (name : String) : Prop :=
  ∃ file ∈ scope.files, ∃ l ∈ file.located, ∃ declared ∈ l.2.declaredName?,
    l.1.map lower = path.map lower ∧ lower declared = lower name

/-- A file declares a namespace with these segments, or with these and further ones. -/
def Opens (scope : Scope) (path : List String) : Prop :=
  ∃ file ∈ scope.files, ∃ l ∈ file.located, ∃ segments ∈ l.2.opened?,
    path.map lower <+: (l.1 ++ segments).map lower

/-- The name is known behind the segments of `path`. -/
def Knows (scope : Scope) (settings : Settings) (path : List String) (name : String) : Prop :=
  scope.Declares path name ∨ scope.Opens (path ++ [name]) ∨
    ∃ known ∈ builtinFunctions ++ settings.globals, lower known = lower (dotted (path ++ [name]))

end Scope

namespace DeferredUse

/-- The segments of the namespace that holds a use. -/
def segments (d : DeferredUse) : List String :=
  (d.nspace.map dottedParts).getD []

/-- A use is resolved if its name is known behind a prefix of its namespace. -/
def Resolved (settings : Settings) (scope : Scope) (d : DeferredUse) : Prop :=
  ∃ path, path <+: d.segments ∧ scope.Knows settings path d.use.name

/-- The name of a use is a segment, and so is every part of its namespace. -/
structure WellNamed (d : DeferredUse) : Prop where
  name : IsSegment d.use.name
  nspace : ∃ path, (∀ s ∈ path, IsSegment s) ∧ d.nspace = namespaceOf path

variable {d : DeferredUse}

theorem segments_eq (each : ∀ s ∈ path, IsSegment s)
    (nspace : d.nspace = namespaceOf path) : d.segments = path.map lower := by
  by_cases top : path = []
  · subst top
    simp [segments, nspace, namespaceOf]
  · rw [segments, nspace, namespaceOf, if_neg top, lower_dotted (isDotted_of_segments each)]
    refine dottedParts_dotted (forall_mem_map.2 fun s member => ?_) (by simpa using top)
    exact (each s member).dotless_lower

/-- The segments of a use are in lower case and hold no dots. -/
theorem WellNamed.segments (named : d.WellNamed) :
    ∀ s ∈ d.segments, isDotted s ∧ lower s = s ∧ Dotless s := by
  obtain ⟨path, each, nspace⟩ := named.nspace
  rw [segments_eq each nspace]
  refine forall_mem_map.2 fun s member => ?_
  have dotted := isDotted_of_isName (each s member).isName
  exact ⟨isDotted_lower dotted, lower_lower dotted, (each s member).dotless_lower⟩

theorem map_lower_of_segments (each : ∀ s ∈ path, lower s = s) : path.map lower = path :=
  (map_congr_left each).trans (map_id' _)

/-- The candidates of a use are its name behind each prefix of its namespace. -/
theorem WellNamed.mem_candidates (named : d.WellNamed) {key : String} : key ∈ d.candidates ↔
      ∃ path, path <+: d.segments ∧ key = dotted (path ++ [lower d.use.name]) := by
  obtain ⟨path, each, nspace⟩ := named.nspace
  have lowered : d.segments = path.map lower := segments_eq each nspace
  rw [lowered, candidates, nspace]
  by_cases top : path = []
  · subst top
    simp [namespaceOf, dotted]
  · have dotted_path := isDotted_dotted (isDotted_of_segments each)
    have filled : (lower (dotted path)).isEmpty = false :=
      Bool.eq_false_iff.2 fun empty =>
        lower_dotted_ne_empty each top (String.isEmpty_iff.1 empty)
    have parts : dottedParts (lower (lower (dotted path))) = path.map lower := by
      rw [lower_lower dotted_path, lower_dotted (isDotted_of_segments each)]
      refine dottedParts_dotted (forall_mem_map.2 fun s member => ?_) (by simpa using top)
      exact (each s member).dotless_lower
    simp only [namespaceOf, if_neg top, filled, Bool.false_eq_true, if_false, parts,
      mem_cons, mem_map, mem_dottedPrefixes]
    have behind (start : List String) (nonempty : start ≠ []) :
        dotted (start ++ [lower d.use.name]) = dotted start ++ "." ++ lower d.use.name := by
      rw [dotted_append nonempty (cons_ne_nil _ _)]
      simp [dotted]
    constructor
    · rintro (rfl | ⟨_, ⟨start, isPrefix, nonempty, rfl⟩, rfl⟩)
      · exact ⟨[], nil_prefix, by simp [dotted]⟩
      · exact ⟨start, isPrefix, (behind start nonempty).symm⟩
    · rintro ⟨start, isPrefix, rfl⟩
      by_cases none : start = []
      · exact .inl (by simp [none, dotted])
      · exact .inr ⟨dotted start, ⟨start, isPrefix, none, rfl⟩, (behind start none).symm⟩

end DeferredUse

/-! ## What a scope knows -/

theorem Script.Placed.mem_names_iff {s : Script} (placed : s.Placed)
    {name : String} (dotless : ∀ part ∈ (path ++ [name]).map lower, Dotless part) :
    dotted ((path ++ [name]).map lower) ∈ s.callables ∨
        dotted ((path ++ [name]).map lower) ∈ s.toplevel ↔
      (∃ l ∈ s.located, ∃ declared ∈ l.2.declaredName?,
        l.1.map lower = path.map lower ∧ lower declared = lower name) ∨
      ∃ l ∈ s.located, ∃ segments ∈ l.2.opened?,
        (path ++ [name]).map lower <+: (l.1 ++ segments).map lower := by
  have nonempty : (path ++ [name]).map lower ≠ [] := by simp
  have dotlessAround {l : List String × Decl} (member : l ∈ s.located) {more : List String}
      (each : ∀ part ∈ more, IsSegment part) : ∀ part ∈ (l.1 ++ more).map lower, Dotless part := by
    refine forall_mem_map.2 fun part inside => IsSegment.dotless_lower ?_
    rcases mem_append.1 inside with around | own
    · exact placed.segments l member part around
    · exact each part own
  rw [placed.mem_names]
  refine or_congr ?_ ?_
  · refine exists_congr fun l => and_congr_right fun member => exists_congr fun declared =>
      and_congr_right fun isDeclared => ?_
    have segment := (placed.named l member).declared declared isDeclared
    rw [dotted_inj dotless (dotlessAround member (forall_mem_singleton.2 segment)) nonempty
      (by simp), eq_comm]
    simp only [map_append, map_cons, map_nil]
    constructor
    · intro same
      obtain ⟨around, own⟩ := append_inj' same rfl
      exact ⟨around, head_eq_of_cons_eq own⟩
    · rintro ⟨around, own⟩
      rw [around, own]
  · refine exists_congr fun l => and_congr_right fun member => exists_congr fun segments =>
      and_congr_right fun isOpened => ?_
    have dotlessAll := dotlessAround member ((placed.named l member).opened segments isOpened)
    constructor
    · rintro ⟨start, isPrefix, filled, same⟩
      rw [dotted_inj dotless (fun part inside => dotlessAll part (isPrefix.subset inside)) nonempty
        filled] at same
      exact same ▸ isPrefix
    · intro isPrefix
      exact ⟨_, isPrefix, nonempty, rfl⟩

namespace Scope

variable {scope : Scope}

theorem lower_builtinFunctions : builtinFunctions.map lower = builtinFunctions := by
  decide +kernel

/-- A dotted name is one of the names of a scope or of the settings if its last segment is known
behind the others. -/
theorem Loaded.knows_iff (loaded : scope.Loaded) (placed : ∀ file ∈ scope.files, file.Placed)
    (settings : Settings) {name : String} (isDotted : ∀ s ∈ path ++ [name], isDotted s)
    (dotless : ∀ s ∈ (path ++ [name]).map lower, Dotless s) :
    (dotted ((path ++ [name]).map lower) ∈ scope.callables ∨
        dotted ((path ++ [name]).map lower) ∈ scope.toplevel ∨
        dotted ((path ++ [name]).map lower) ∈ settings.globalNames) ↔
      scope.Knows settings path name := by
  have given : (∃ known ∈ builtinFunctions ++ settings.globals,
      lower known = lower (dotted (path ++ [name]))) ↔
      dotted ((path ++ [name]).map lower) ∈ builtinFunctions ∨
        dotted ((path ++ [name]).map lower) ∈ settings.globalNames := by
    rw [lower_dotted isDotted]
    nth_rewrite 2 [← lower_builtinFunctions]
    simp only [Settings.globalNames, mem_map, mem_append, or_and_right, exists_or]
  rw [Knows, given, Declares, Opens, loaded.callables, loaded.toplevel]
  have files := fun file member => (placed file member).mem_names_iff dotless
  generalize dotted ((path ++ [name]).map lower) = key at *
  constructor
  · rintro ((builtin | ⟨file, member, found⟩) | ⟨file, member, found⟩ | isGlobal)
    · exact .inr (.inr (.inl builtin))
    · exact ((files file member).1 (.inl found)).imp (⟨file, member, ·⟩) (.inl ⟨file, member, ·⟩)
    · exact ((files file member).1 (.inr found)).imp (⟨file, member, ·⟩) (.inl ⟨file, member, ·⟩)
    · exact .inr (.inr (.inr isGlobal))
  · rintro (⟨file, member, found⟩ | ⟨file, member, found⟩ | builtin | isGlobal)
    · exact ((files file member).2 (.inl found)).imp (.inr ⟨file, member, ·⟩)
        (.inl ⟨file, member, ·⟩)
    · exact ((files file member).2 (.inr found)).imp (.inr ⟨file, member, ·⟩)
        (.inl ⟨file, member, ·⟩)
    · exact .inl (.inl builtin)
    · exact .inr (.inr isGlobal)

/-- A well-named use is known exactly if it is resolved. -/
theorem Loaded.isKnown_iff (loaded : scope.Loaded) (placed : ∀ file ∈ scope.files, file.Placed)
    (settings : Settings) {d : DeferredUse} (named : d.WellNamed) :
    Session.isKnown settings scope d = true ↔ d.Resolved settings scope := by
  have each (path : List String) (isPrefix : path <+: d.segments) :
      (dotted (path ++ [lower d.use.name]) ∈ scope.callables ∨
        dotted (path ++ [lower d.use.name]) ∈ scope.toplevel ∨
        dotted (path ++ [lower d.use.name]) ∈ settings.globalNames) ↔
      scope.Knows settings path d.use.name := by
    have own := fun s member => named.segments s (isPrefix.subset member)
    have same : (path ++ [d.use.name]).map lower = path ++ [lower d.use.name] := by
      rw [map_append, map_singleton,
        DeferredUse.map_lower_of_segments fun s member => (own s member).2.1]
    rw [← same]
    refine loaded.knows_iff placed settings (forall_mem_append.2
      ⟨fun s member => (own s member).1, forall_mem_singleton.2 ?_⟩) ?_
    · exact isDotted_of_isName named.name.isName
    · rw [same]
      exact forall_mem_append.2 ⟨fun s member => (own s member).2.2,
        forall_mem_singleton.2 named.name.dotless_lower⟩
  simp only [Session.isKnown, any_eq_true, Bool.or_eq_true, contains_iff_mem,
    named.mem_candidates, or_assoc, DeferredUse.Resolved]
  constructor
  · rintro ⟨_, ⟨path, isPrefix, rfl⟩, known⟩
    exact ⟨path, isPrefix, (each path isPrefix).1 known⟩
  · rintro ⟨path, isPrefix, knows⟩
    exact ⟨_, ⟨path, isPrefix, rfl⟩, (each path isPrefix).2 knows⟩

/-- Loading scripts gives a scope no other files. -/
theorem mem_of_mem_addFiles {s : Scope} {files : List Script} {file : Script}
    (member : file ∈ (files.foldl Scope.addFile s).files) : file ∈ s.files ∨ file ∈ files := by
  refine List.foldlRecOn (motive := fun u : Scope => file ∈ u.files → _) files _ .inl
    (fun u known first isFirst member => ?_) member
  unfold Scope.addFile at member
  split at member
  · exact known member
  · rcases mem_append.1 member with old | added
    · exact known old
    · exact .inr (mem_singleton.1 added ▸ isFirst)

end Scope

/-! ## What a session records -/

theorem StandsIn.isSegment {source : String} {i : Ident} (stands : StandsIn source i) :
    IsSegment i.text :=
  ⟨stands.isName, stands.text_ne_empty⟩

namespace Script

variable {source path pkgPath : String} {s : Script}

/-- The deferred uses of a script that was read are well named. -/
theorem wellNamed_of_read (read : Script.read source path pkgPath = .ok s) (loopsBranch : Bool) :
    ∀ d ∈ (s.flow loopsBranch).deferred, d.WellNamed := by
  intro d member
  simp only [flow, flatMap_map, mem_flatMap, Func.deferredUses, mem_map] at member
  obtain ⟨f, isFunction, use, isFree, rfl⟩ := member
  obtain ⟨names, named⟩ := exists_named_unmarked read
  have used : use.ident ∈ f.uses := ((f.flow_respell .uncase loopsBranch).uses use isFree).1
  have inside := named.inner f isFunction use.ident (mem_append_right _ used)
  exact ⟨(named.stand _ inside).isSegment, (placed_of_read read).exists_namespaceOf isFunction⟩

end Script

namespace Session

/-- A session that has only seen scripts that were read. -/
inductive Recorded : Session → Prop
  | start : Recorded {}
  | analyze {session : Session} (settings : Settings) {source path pkgPath : String}
      {script : Script} : Recorded session → Script.read source path pkgPath = .ok script →
      Recorded (session.analyze settings script).2
  | reset {session : Session} (path : String) : Recorded session → Recorded (session.reset path)

theorem get_insert (session : Session) (path key : String) (uses : List DeferredUse) :
    (⟨session.deferred.insert path uses⟩ : Session).get key =
      if key = path then uses else session.get key := by
  rw [get, OrderedMap.find?_insert, apply_ite (Option.getD · [])]
  rfl

theorem Recorded.wellNamed {session : Session} (recorded : session.Recorded) (key : String) :
    ∀ d ∈ session.get key, d.WellNamed := by
  induction recorded with
  | start => exact nofun
  | @analyze session settings source path pkgPath script _ read ih =>
    unfold Session.analyze
    split
    · rw [Session.reset, get_insert]
      split
      · exact nofun
      · exact ih
    · rw [get_insert]
      split
      · exact Script.wellNamed_of_read read _
      · exact ih
  | reset path _ ih =>
    rw [Session.reset, get_insert]
    split
    · exact nofun
    · exact ih

open Classical in
/-- In a scope of scripts that were read, the reports are those of the unresolved deferred uses, in
the order of the files and of the uses in each file. -/
theorem finalize_eq_unresolved {settings : Settings} {severity : Severity}
    (enabled : settings.severity? .uninitializedVariable = some severity) {files : List Script}
    (parsed : ∀ file ∈ files, ∃ source path pkgPath, Script.read source path pkgPath = .ok file)
    (name : String) (component : Option Component) {session : Session}
    (recorded : session.Recorded) :
    let scope := files.foldl Scope.addFile (Scope.withBuiltins name component)
    session.finalize settings scope = (scope.files.flatMap fun file =>
      ((session.get file.path).filter fun d => ¬ d.Resolved settings scope).map fun d =>
        ⟨severity, .uninitialized d.use.name name, d.use.range, file.pkgPath⟩) ∧
    ∀ diagnostic ∈ session.finalize settings scope, diagnostic.code.text = "LINT1001" := by
  intro scope
  have loaded : scope.Loaded := (Scope.loaded_withBuiltins name component).addFiles files
  have named : scope.name = name := (Scope.addFiles_frame _ files).1
  have placed : ∀ file ∈ scope.files, file.Placed := by
    intro file member
    rcases Scope.mem_of_mem_addFiles member with none | given
    · cases none
    · obtain ⟨source, path, pkgPath, read⟩ := parsed file given
      exact Script.placed_of_read read
  have reports : session.finalize settings scope = scope.files.flatMap fun file =>
      ((session.get file.path).filter fun d => ¬ d.Resolved settings scope).map fun d =>
        ⟨severity, .uninitialized d.use.name name, d.use.range, file.pkgPath⟩ := by
    refine flatMap_congr fun file _ => ?_
    have unknown : (session.get file.path).filter (!isKnown settings scope ·) =
        (session.get file.path).filter fun d => ¬ d.Resolved settings scope := by
      refine filter_congr fun d member => ?_
      rw [Bool.eq_iff_iff, Bool.not_eq_true', decide_eq_true_eq,
        ← loaded.isKnown_iff placed settings (recorded.wellNamed _ d member), Bool.not_eq_true]
    have reported (d : DeferredUse) : settings.report? file.pkgPath
        ⟨.uninitialized d.use.name scope.name, d.use.range⟩ =
        some ⟨severity, .uninitialized d.use.name name, d.use.range, file.pkgPath⟩ := by
      rw [named]
      exact congrArg (Option.map _) enabled
    rw [unknownUses, unknown, Settings.report, filterMap_map, ← filterMap_eq_map]
    exact congrArg (List.filterMap · _) (funext reported)
  refine ⟨reports, fun diagnostic member => ?_⟩
  rw [reports] at member
  obtain ⟨file, -, inFile⟩ := mem_flatMap.1 member
  obtain ⟨d, -, rfl⟩ := mem_map.1 inFile
  rfl

/-- A constant, a function and a namespace that are found behind prefixes of a namespace, and two
names that are not: one is not declared at all, the other only inside a namespace that the use
does not stand in. -/
def nestedNames : String :=
  "namespace App.Net\n  const Limit = 3\n  sub run()\n    print limit, net, LOG(1), hidden, lost" ++
    "\n  end sub\nend namespace\nnamespace app\n  namespace Log.Files\n    const hidden = 1\n" ++
    "  end namespace\nend namespace"

open Classical in
theorem finalize_eq_unresolved_nestedNames :
    ({} : Settings).severity? .uninitializedVariable = some .error ∧
    ∃ s, Script.read nestedNames "a.brs" "" = .ok s ∧
      let session := (({} : Session).analyze {} s).2
      let scope := [s].foldl Scope.addFile (Scope.withBuiltins "source" none)
      session.Recorded ∧
      (session.get "a.brs").map (fun d => (d.use.name, d.segments)) =
        ["limit", "net", "LOG", "hidden", "lost"].map (·, ["app", "net"]) ∧
      (session.finalize {} scope).map (·.issue) =
        [.uninitialized "hidden" "source", .uninitialized "lost" "source"] ∧
      session.finalize {} scope = (scope.files.flatMap fun file =>
        ((session.get file.path).filter fun d => ¬ d.Resolved {} scope).map fun d =>
          ⟨.error, .uninitialized d.use.name "source", d.use.range, file.pkgPath⟩) ∧
      ∀ diagnostic ∈ session.finalize {} scope, diagnostic.code.text = "LINT1001" := by
  have enabled : ({} : Settings).severity? .uninitializedVariable = some .error := by decide
  have computed : (Script.read nestedNames "a.brs" "").toOption.map (fun s =>
      let session := (({} : Session).analyze {} s).2
      let scope := [s].foldl Scope.addFile (Scope.withBuiltins "source" none)
      ((session.get "a.brs").map (fun d => (d.use.name, d.segments)),
        (session.finalize {} scope).map (·.issue))) =
      some (["limit", "net", "LOG", "hidden", "lost"].map (·, ["app", "net"]),
        [.uninitialized "hidden" "source", .uninitialized "lost" "source"]) := by
    decide +kernel
  obtain ⟨s, read, facts⟩ := exists_ok_of_map_toOption computed
  obtain ⟨uses, issues⟩ := Prod.mk.inj facts
  have recorded := Recorded.analyze {} .start read
  exact ⟨enabled, s, read, recorded, uses, issues, finalize_eq_unresolved enabled
    (forall_mem_singleton.2 ⟨_, _, _, read⟩) "source" none recorded⟩

end Session

end ChannelLint
