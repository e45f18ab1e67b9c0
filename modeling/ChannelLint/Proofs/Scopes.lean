import ChannelLint.Proofs.Index
import ChannelLint.Proofs.Worklist

/-!
# Scopes are closures

The scripts of a scope are the least set that holds its roots and everything its scripts import. The
roots of the main program lie in its folder; those of a component are included by the component or
by one that it extends, however far up. Imports and inheritance may be circular. A scope knows the
functions and the other names of exactly its scripts.
-/
namespace ChannelLint

open List

theorem mem_addNames (known names : List String) (name : String) :
    name ∈ addNames known names ↔ name ∈ known ∨ name ∈ names :=
  OrderedMap.mem_foldl_keep names known name

/-! ## Loading scripts -/

namespace Scope

variable {s : Scope}

/-- What a scope knows stands in its scripts, or is provided by the runtime. -/
structure Loaded (s : Scope) : Prop where
  paths : (s.files.map (·.path)).Nodup
  callables : ∀ name,
    name ∈ s.callables ↔ name ∈ builtinFunctions ∨ ∃ f ∈ s.files, name ∈ f.callables
  toplevel : ∀ name, name ∈ s.toplevel ↔ ∃ f ∈ s.files, name ∈ f.toplevel

theorem loaded_withBuiltins (name : String) (component : Option Component) :
    (withBuiltins name component).Loaded where
  paths := nodup_nil
  callables := by simp [withBuiltins]
  toplevel := by simp [withBuiltins]

theorem holds_iff (s : Scope) (path : String) :
    s.holds path = true ↔ ∃ f ∈ s.files, f.path = path := by
  simp [holds]

theorem Loaded.addFile (loaded : s.Loaded) (file : Script) : (s.addFile file).Loaded := by
  unfold Scope.addFile
  split
  · exact loaded
  · next absent =>
    rw [holds_iff, ← mem_map] at absent
    constructor
    · rw [map_append, map_singleton, ← concat_eq_append, nodup_concat]
      exact ⟨absent, loaded.paths⟩
    · intro name
      rw [mem_addNames, loaded.callables]
      simp [or_and_right, exists_or, or_assoc]
    · intro name
      rw [mem_addNames, loaded.toplevel]
      simp [or_and_right, exists_or]

theorem Loaded.addFiles (loaded : s.Loaded) (files : List Script) :
    (files.foldl Scope.addFile s).Loaded :=
  List.foldlRecOn files _ loaded fun _ loaded file _ => loaded.addFile file

/-- Loading scripts changes neither the name of a scope nor its component. -/
theorem addFiles_frame (s : Scope) (files : List Script) :
    (files.foldl Scope.addFile s).name = s.name ∧
      (files.foldl Scope.addFile s).component = s.component := by
  refine List.foldlRecOn (motive := fun u : Scope => u.name = s.name ∧ u.component = s.component)
    files _ ⟨rfl, rfl⟩ fun u same file _ => ?_
  unfold Scope.addFile
  split <;> exact same

/-- A script is left out only if it is there already, as long as paths tell scripts apart. -/
theorem mem_addFile {file f : Script} (distinct : ∀ g ∈ s.files, g.path = file.path → g = file) :
    f ∈ (s.addFile file).files ↔ f ∈ s.files ∨ f = file := by
  unfold Scope.addFile
  split
  · next held =>
    obtain ⟨g, inFiles, same⟩ := (holds_iff s file.path).1 held
    have isHeld : file ∈ s.files := distinct g inFiles same ▸ inFiles
    constructor
    · exact Or.inl
    · rintro (old | rfl)
      · exact old
      · exact isHeld
  · simp

theorem mem_addFiles {files : List Script} {f : Script}
    (distinct : ∀ g ∈ s.files ++ files, ∀ h ∈ s.files ++ files, g.path = h.path → g = h) :
    f ∈ (files.foldl Scope.addFile s).files ↔ f ∈ s.files ∨ f ∈ files := by
  induction files generalizing s with
  | nil => simp
  | cons file rest ih =>
    have added (g : Script) : g ∈ (s.addFile file).files ↔ g ∈ s.files ∨ g = file :=
      mem_addFile fun g held => distinct g (by simp [held]) file (by simp)
    have among (g : Script) (member : g ∈ (s.addFile file).files ++ rest) :
        g ∈ s.files ++ file :: rest := by
      rw [mem_append, added] at member
      grind
    rw [foldl_cons, ih fun g inG h inH => distinct g (among g inG) h (among h inH), added,
      mem_cons, or_assoc]

end Scope

/-! ## Roots, imports and inheritance -/

namespace SourceSet

def HasScript (s : SourceSet) (f : Script) : Prop :=
  ∃ key, s.scripts.find? key = some f

def HasComponent (s : SourceSet) (c : Component) : Prop :=
  ∃ path, s.components.find? path = some c

/-- A script imports another one that exists. -/
def Imports (s : SourceSet) (f g : Script) : Prop :=
  ∃ path ∈ f.imports, s.script? (Path.resolveUri path f.pkgPath) = some g

/-- A component extends another one that exists. -/
def Extends (s : SourceSet) (c d : Component) : Prop :=
  ∃ name, c.parent = some name ∧ name ≠ "" ∧ s.component? name = some d

/-- The scripts that a scope starts from: those in the folder of the main program, or those that
are included by a component or by what it extends. -/
def IsRoot (s : SourceSet) : Option Component → Script → Prop
  | none, f => ∃ key, s.scripts.find? key = some f ∧ key.startsWith (sourceScope ++ "/")
  | some c, f => ∃ d, Relation.ReflTransGen s.Extends c d ∧
      ∃ included ∈ d.scripts, s.script? included.pkgPath = some f

/-- A set of scripts that can be loaded for a component, or for the main program. -/
structure Closed (s : SourceSet) (isRoot : Script → Prop) (loaded : Set Script) : Prop where
  exist : ∀ f ∈ loaded, s.HasScript f
  roots : ∀ f, isRoot f → f ∈ loaded
  imports : ∀ f ∈ loaded, ∀ g, s.Imports f g → g ∈ loaded

variable {root : String} {files : List String} {s : SourceSet}

theorem leads_imports_iff (s : SourceSet) (key next : String) : Worklist.Leads s.imports key next ↔
      ∃ f, s.scripts.find? key = some f ∧ (∃ path ∈ f.imports, importKey f path = next) ∧
        ∃ g, s.scripts.find? next = some g := by
  unfold Worklist.Leads SourceSet.imports
  simp only [OrderedMap.find?_map, Option.map_eq_some_iff]
  constructor
  · rintro ⟨_, ⟨f, found, rfl⟩, member⟩
    rw [mem_reverse, mem_filter, mem_map] at member
    obtain ⟨isImport, exists_⟩ := member
    exact ⟨f, found, isImport, Option.isSome_iff_exists.1 exists_⟩
  · rintro ⟨f, found, isImport, exists_⟩
    refine ⟨_, ⟨f, found, rfl⟩, ?_⟩
    rw [mem_reverse, mem_filter, mem_map]
    exact ⟨isImport, Option.isSome_iff_exists.2 exists_⟩

/-- The scripts of a scope are those at the keys that are reached over imports. -/
theorem Indexed.mem_scope (indexed : s.Indexed root files) {name : String}
    {component : Option Component} {roots : List String} {f : Script} :
    f ∈ (s.scope name component roots).files ↔
      ∃ key, Reached (Worklist.Leads s.imports) [] roots key ∧ s.scripts.find? key = some f := by
  have distinct : ∀ g ∈ (Worklist.visit s.imports roots []).filterMap s.scripts.find?,
      ∀ h ∈ (Worklist.visit s.imports roots []).filterMap s.scripts.find?,
      g.path = h.path → g = h := by
    intro g inG h inH
    obtain ⟨_, -, foundG⟩ := mem_filterMap.1 inG
    obtain ⟨_, -, foundH⟩ := mem_filterMap.1 inH
    exact indexed.eq_of_path foundG foundH
  unfold SourceSet.scope
  rw [Scope.mem_addFiles distinct]
  simp only [Scope.withBuiltins, not_mem_nil, false_or, mem_filterMap, Worklist.mem_visit_iff]

theorem Indexed.isLeast_scope (indexed : s.Indexed root files) (name : String)
    (component : Option Component) (roots : List String) :
    IsLeast {loaded | s.Closed (fun f => ∃ key ∈ roots, s.scripts.find? key = some f) loaded}
      {f | f ∈ (s.scope name component roots).files} := by
  constructor
  · constructor
    · intro f member
      obtain ⟨key, -, found⟩ := indexed.mem_scope.1 member
      exact ⟨key, found⟩
    · rintro f ⟨key, isRoot, found⟩
      exact indexed.mem_scope.2 ⟨key, .root isRoot not_mem_nil, found⟩
    · rintro f member g ⟨path, isImport, found'⟩
      obtain ⟨key, reached, found⟩ := indexed.mem_scope.1 member
      have edge := (leads_imports_iff s key _).2 ⟨f, found, ⟨path, isImport, rfl⟩, g, found'⟩
      exact indexed.mem_scope.2 ⟨_, .step reached edge not_mem_nil, found'⟩
  · intro loaded closed f member
    obtain ⟨key, reached, found⟩ := indexed.mem_scope.1 member
    induction reached generalizing f with
    | root isRoot _ => exact closed.roots f ⟨_, isRoot, found⟩
    | step before edge _ ih =>
      obtain ⟨g, found', ⟨path, isImport, rfl⟩, -⟩ := (leads_imports_iff s _ _).1 edge
      have importer := ih (indexed.mem_scope.2 ⟨_, before, found'⟩) found'
      exact closed.imports g importer f ⟨path, isImport, found⟩

/-- The package path of the component that `c` extends, if there is one. -/
def parentPaths (s : SourceSet) (c : Component) : List String :=
  match c.parent with
  | some name => if name.isEmpty then [] else ((s.component? name).map Component.pkgPath).toList
  | none => []

theorem leads_parents_iff (s : SourceSet) (path next : String) :
    Worklist.Leads s.parents path next ↔
      ∃ c d, s.components.find? path = some c ∧ s.Extends c d ∧ d.pkgPath = next := by
  have parent (c : Component) :
      next ∈ s.parentPaths c ↔ ∃ d, s.Extends c d ∧ d.pkgPath = next := by
    unfold parentPaths SourceSet.Extends
    cases c.parent with
    | none => simp
    | some name =>
      by_cases empty : name = ""
      · simp [empty]
      · simp [empty]
  unfold Worklist.Leads SourceSet.parents
  simp only [OrderedMap.find?_map, Option.map_eq_some_iff]
  constructor
  · rintro ⟨_, ⟨c, found, rfl⟩, member⟩
    obtain ⟨d, extended, isNext⟩ := (parent c).1 member
    exact ⟨c, d, found, extended, isNext⟩
  · rintro ⟨c, d, found, extended, isNext⟩
    exact ⟨_, ⟨c, found, rfl⟩, (parent c).2 ⟨d, extended, isNext⟩⟩

/-- The components that are visited are those that a component extends, and itself. -/
theorem Indexed.extends_iff (indexed : s.Indexed root files) {c d : Component}
    (held : s.components.find? c.pkgPath = some c) : Relation.ReflTransGen s.Extends c d ↔
      ∃ path, Reached (Worklist.Leads s.parents) [] [c.pkgPath] path ∧
        s.components.find? path = some d := by
  constructor
  · intro above
    suffices Reached (Worklist.Leads s.parents) [] [c.pkgPath] d.pkgPath ∧
        s.components.find? d.pkgPath = some d from ⟨_, this⟩
    induction above with
    | refl => exact ⟨.root mem_cons_self not_mem_nil, held⟩
    | tail _ extended ih =>
      obtain ⟨reached, found⟩ := ih
      have edge := (leads_parents_iff s _ _).2 ⟨_, _, found, extended, rfl⟩
      obtain ⟨name, -, -, found'⟩ := extended
      exact ⟨.step reached edge not_mem_nil, indexed.find?_of_component? found'⟩
  · rintro ⟨path, reached, found⟩
    induction reached generalizing d with
    | root isRoot _ =>
      rw [mem_singleton.1 isRoot, held, Option.some.injEq] at found
      exact found ▸ .refl
    | step _ edge _ ih =>
      obtain ⟨e, d', found', extended, rfl⟩ := (leads_parents_iff s _ _).1 edge
      have same : d' = d := by
        obtain ⟨name, -, -, named⟩ := extended
        rw [indexed.find?_of_component? named, Option.some.injEq] at found
        exact found
      exact (ih found').tail (same ▸ extended)

theorem isRoot_source_iff (s : SourceSet) (f : Script) :
    (∃ key ∈ s.sourceRoots, s.scripts.find? key = some f) ↔ s.IsRoot none f := by
  unfold SourceSet.sourceRoots SourceSet.IsRoot
  constructor
  · rintro ⟨key, member, found⟩
    exact ⟨key, found, (mem_filter.1 member).2⟩
  · rintro ⟨key, found, inFolder⟩
    have isKey : key ∈ s.scripts.keys := Worklist.mem_keys_of_find? found
    exact ⟨key, mem_filter.2 ⟨mem_mergeSort.2 isKey, inFolder⟩, found⟩

theorem Indexed.isRoot_component_iff (indexed : s.Indexed root files) {c : Component}
    (held : s.components.find? c.pkgPath = some c) (f : Script) :
    (∃ key ∈ s.componentRoots c, s.scripts.find? key = some f) ↔ s.IsRoot (some c) f := by
  have scripts (path : String) : path ∈ s.componentScripts c ↔
      ∃ d, Relation.ReflTransGen s.Extends c d ∧
        ∃ included ∈ d.scripts, included.pkgPath = path := by
    simp only [SourceSet.componentScripts, mem_flatMap, mem_filterMap, mem_reverse,
      Worklist.mem_visit_iff, mem_map, indexed.extends_iff held]
  unfold SourceSet.componentRoots SourceSet.IsRoot
  simp only [mem_filter, mem_map, scripts]
  constructor
  · rintro ⟨_, ⟨⟨_, ⟨d, above, included, isIncluded, rfl⟩, rfl⟩, -⟩, found⟩
    exact ⟨d, above, included, isIncluded, found⟩
  · rintro ⟨d, above, included, isIncluded, found⟩
    refine ⟨_, ⟨⟨_, ⟨d, above, included, isIncluded, rfl⟩, rfl⟩, ?_⟩, found⟩
    exact Option.isSome_iff_exists.2 ⟨f, found⟩

theorem Indexed.mem_namedComponents_iff (indexed : s.Indexed root files) (c : Component) :
    c ∈ s.namedComponents ↔ s.components.find? c.pkgPath = some c ∧ c.name.isSome := by
  simp only [SourceSet.namedComponents, SourceSet.sortedComponents, mem_filter,
    mem_filterMap, mem_mergeSort]
  constructor
  · rintro ⟨⟨key, -, found⟩, named⟩
    rw [(indexed.component key c found).2]
    exact ⟨found, named⟩
  · rintro ⟨found, named⟩
    exact ⟨⟨_, Worklist.mem_keys_of_find? found, found⟩, named⟩

theorem scope_frame (s : SourceSet) (name : String) (component : Option Component)
    (roots : List String) : (s.scope name component roots).name = name ∧
      (s.scope name component roots).component = component :=
  Scope.addFiles_frame _ _

theorem loaded_scope (s : SourceSet) (name : String) (component : Option Component)
    (roots : List String) : (s.scope name component roots).Loaded :=
  (Scope.loaded_withBuiltins name component).addFiles _

theorem components_scopes (s : SourceSet) :
    s.scopes.map (·.component) = none :: s.namedComponents.map some := by
  simp only [SourceSet.scopes, map_cons, (s.scope_frame _ _ _).2, map_map, Function.comp_def]

/-- The scripts of every scope are the least set that is closed under imports and holds the roots
of the scope. -/
theorem Indexed.isLeast_of_mem_scopes (indexed : s.Indexed root files) {scope : Scope}
    (member : scope ∈ s.scopes) :
    IsLeast {loaded | s.Closed (s.IsRoot scope.component) loaded} {f | f ∈ scope.files} := by
  rcases mem_cons.1 member with rfl | isComponent
  · have roots := funext fun f => propext (s.isRoot_source_iff f)
    rw [(s.scope_frame _ _ _).2, ← roots]
    exact indexed.isLeast_scope _ _ _
  · obtain ⟨c, isNamed, rfl⟩ := mem_map.1 isComponent
    have held := ((indexed.mem_namedComponents_iff c).1 isNamed).1
    have roots := funext fun f => propext (indexed.isRoot_component_iff held f)
    rw [(s.scope_frame _ _ _).2, ← roots]
    exact indexed.isLeast_scope _ _ _

theorem loaded_of_mem_scopes {scope : Scope} (member : scope ∈ s.scopes) : scope.Loaded := by
  rcases mem_cons.1 member with rfl | isComponent
  · exact s.loaded_scope _ _ _
  · obtain ⟨c, -, rfl⟩ := mem_map.1 isComponent
    exact s.loaded_scope _ _ _

end SourceSet

/-- However files import and extend each other, there is a scope for the main program and one for
every component with a name. Its scripts have different paths and are the least set that holds its
roots and is closed under imports; it knows the functions of the runtime, and exactly the functions
and the other names that its scripts declare. -/
theorem Project.scopes_are_closures (t : FileTree) (root : String) (files : List String) :
    let p := Project.ofSources root files (Source.readAll t root files).1
    (∃ named : List Component, p.scopes.map (·.component) = none :: named.map some ∧
      ∀ c, c ∈ named ↔ p.sources.HasComponent c ∧ c.name.isSome) ∧
    ∀ scope ∈ p.scopes,
      (scope.files.map (·.path)).Nodup ∧
      IsLeast {loaded | p.sources.Closed (p.sources.IsRoot scope.component) loaded}
        {f | f ∈ scope.files} ∧
      (∀ name, name ∈ scope.callables ↔
        name ∈ builtinFunctions ∨ ∃ f ∈ scope.files, name ∈ f.callables) ∧
      ∀ name, name ∈ scope.toplevel ↔ ∃ f ∈ scope.files, name ∈ f.toplevel := by
  intro p
  have indexed : p.sources.Indexed root files :=
    SourceSet.Indexed.addAll (fun _ member => Source.mem_readAll member) .empty
  constructor
  · refine ⟨p.sources.namedComponents, p.sources.components_scopes, fun c => ?_⟩
    rw [indexed.mem_namedComponents_iff]
    constructor
    · exact fun ⟨found, named⟩ => ⟨⟨_, found⟩, named⟩
    · rintro ⟨⟨path, found⟩, named⟩
      exact ⟨(indexed.component path c found).2 ▸ found, named⟩
  · intro scope member
    have loaded := SourceSet.loaded_of_mem_scopes member
    exact ⟨loaded.paths, indexed.isLeast_of_mem_scopes member, loaded.callables, loaded.toplevel⟩

end ChannelLint
