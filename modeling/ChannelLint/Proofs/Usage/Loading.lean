import ChannelLint.Lint
import ChannelLint.Proofs.Usage.Reach
import ChannelLint.Proofs.Usage.Vertices

/-!
# What a project loads and reaches

The usage graph of a project is built from its components and its scopes. The vertex of an indexed
script is the key that the script is kept under. It stands for that script and nothing else, and a
walk from an entry script enters it only through the owner of a scope that loads the script. It does
not matter which entry script a walk starts from, since each of them leads to the main program.
-/
namespace ChannelLint

open List

variable {scope : Scope} {name : String} {entry : Script}

open UsageGraph

/-! ## The vertices of scripts -/

namespace Project

/-- What the usage graph of a project is built from. -/
def registrations (p : Project) : List Registration :=
  p.sources.sortedComponents.map .component ++ p.scopes.map .scope

theorem usageGraph_eq (p : Project) : p.usageGraph = ofRegistrations p.registrations := by
  unfold usageGraph ofRegistrations registrations
  rw [foldl_append, foldl_map, foldl_map]
  rfl

/-- A script stands in a scope that belongs to the main program or to a component with a name. -/
def Loads (p : Project) (f : Script) : Prop :=
  ∃ scope ∈ p.scopes, (scopeVertex? scope).isSome ∧ f ∈ scope.files

/-- A script stands in a scope whose owner is reached from a vertex. -/
def Reaches (p : Project) (start : String) (f : Script) : Prop :=
  ∃ scope ∈ p.scopes, f ∈ scope.files ∧ ∃ owner, scopeVertex? scope = some owner ∧
    Reached (Uses p.registrations) builtinVertices [start] owner

/-- A script of the main program. -/
def InSource (p : Project) (f : Script) : Prop :=
  ∃ scope ∈ p.scopes, scopeVertex? scope = some sourceScope ∧ f ∈ scope.files

theorem scope_mem_registrations {p : Project} :
    .scope scope ∈ p.registrations ↔ scope ∈ p.scopes := by
  simp [registrations]

theorem mem_filesOf_registrations {p : Project} {f : Script} :
    f ∈ filesOf p.registrations ↔ p.Loads f := by
  simp only [mem_filesOf, scope_mem_registrations, Loads]

section

variable {t : FileTree} {root : String} {p : Project}
  (read : (Project.read t root).result = .ok p)

include read

variable {f : Script} {start : String}

theorem hasScript_of_mem (member : scope ∈ p.scopes) (inFiles : f ∈ scope.files) :
    p.sources.HasScript f := by
  rw [scopes_of_read read] at member
  exact ((indexed_of_read read).isLeast_of_mem_scopes member).1.exist f inFiles

/-- The first script with a vertex is the one that is kept under it. -/
theorem firstLoaded_iff : firstLoaded (stepsOf p.registrations) name = some f ↔
      p.Loads f ∧ p.sources.scripts.find? name = some f := by
  have kept {g : Script} (loads : p.Loads g) :
      p.sources.scripts.find? (scriptVertex g.pkgPath) = some g := by
    obtain ⟨scope, member, -, inFiles⟩ := loads
    obtain ⟨key, found⟩ := hasScript_of_mem read member inFiles
    rw [(indexed_of_read read).scriptVertex_eq found, found]
  constructor
  · intro first
    obtain ⟨isLoaded, rfl⟩ := mem_of_firstLoaded first
    have loads := mem_filesOf_registrations.1 isLoaded
    exact ⟨loads, kept loads⟩
  · rintro ⟨loads, found⟩
    obtain ⟨g, first⟩ := exists_firstLoaded (mem_filesOf_registrations.2 loads)
    rw [(indexed_of_read read).scriptVertex_eq found] at first
    obtain ⟨isLoaded, rfl⟩ := mem_of_firstLoaded first
    have found' := kept (mem_filesOf_registrations.1 isLoaded)
    rw [first, ← found', found]

/-- A vertex stands for a script exactly if a script is kept under it that some scope loads. -/
theorem owner_script_iff {path : String} : p.usageGraph.owner? name = some (.script path) ↔
      ∃ f, p.Loads f ∧ p.sources.scripts.find? name = some f ∧ f.pkgPath = path := by
  have built := built_ofRegistrations p.registrations
  rw [usageGraph_eq]
  constructor
  · intro isOwner
    obtain ⟨f, first, isPath⟩ := built.owns _ _ isOwner
    obtain ⟨loads, found⟩ := (firstLoaded_iff read).1 first
    exact ⟨f, loads, found, isPath⟩
  · rintro ⟨f, loads, found, isPath⟩
    have first := (firstLoaded_iff read).2 ⟨loads, found⟩
    have owns : Owns (stepsOf p.registrations) name (.script path) := ⟨f, first, isPath⟩
    obtain ⟨owner, isOwner⟩ := Option.isSome_iff_exists.1 (built.isSome_of_owns owns)
    cases owner with
    | component path' range =>
      -- The vertex of a component ends with a quote.
      obtain ⟨own, c, -, isName, -⟩ := built.owns _ _ isOwner
      have quoted := endsQuoted_componentVertex own
      rw [isName] at quoted
      exact absurd quoted ((indexed_of_read read).not_endsQuoted_key found)
    | script path' =>
      obtain ⟨g, first', isPath'⟩ := built.owns _ _ isOwner
      rw [first, Option.some.injEq] at first'
      rw [isOwner, ← isPath, ← isPath', first']

/-- The vertices that stand for an indexed script: its own, if a scope loads it. -/
theorem owner_eq_iff {key : String} (found : p.sources.scripts.find? key = some f) (name : String) :
    p.usageGraph.owner? name = some (.script f.pkgPath) ↔ name = key ∧ p.Loads f := by
  have indexed := indexed_of_read read
  rw [owner_script_iff read]
  constructor
  · rintro ⟨g, loads, found', isPath⟩
    have same : name = key := by
      rw [← indexed.scriptVertex_eq found', ← indexed.scriptVertex_eq found, isPath]
    rw [same, found, Option.some.injEq] at found'
    exact ⟨same, found' ▸ loads⟩
  · rintro ⟨rfl, loads⟩
    exact ⟨f, loads, found, rfl⟩

/-- A scope belongs to the main program or to a component. -/
theorem component_of_scopeVertex? (member : scope ∈ p.scopes) {owner : String}
    (owned : scopeVertex? scope = some owner) :
    owner = sourceScope ∧ scope.component = none ∨ EndsQuoted owner := by
  have indexed := indexed_of_read read
  rw [scopes_of_read read] at member
  rcases mem_cons.1 member with rfl | isComponent
  · obtain ⟨isName, isComponent⟩ := p.sources.scope_frame sourceScope none p.sources.sourceRoots
    unfold scopeVertex? at owned
    rw [isName] at owned
    exact .inl ⟨(Option.some.inj owned).symm, isComponent⟩
  · obtain ⟨c, isNamed, rfl⟩ := mem_map.1 isComponent
    obtain ⟨found, hasName⟩ := (indexed.mem_namedComponents_iff c).1 isNamed
    obtain ⟨name, named⟩ := Option.isSome_iff_exists.1 hasName
    -- The name of the scope is the path of a file, which has a dot.
    have notSource : (c.pkgPath == sourceScope) = false := by
      have dot := (FileTree.path_of_mem_sources (indexed.component _ c found).1).2.2
      rw [beq_eq_false_iff_ne]
      intro same
      rw [same] at dot
      exact absurd dot (by decide)
    obtain ⟨isName, isComponent⟩ :=
      p.sources.scope_frame c.pkgPath (some c) (p.sources.componentRoots c)
    unfold scopeVertex? at owned
    rw [isName, isComponent, notSource, Option.bind_some, named] at owned
    by_cases empty : name = ""
    · simp [empty] at owned
    · simp only [Bool.false_eq_true, ↓reduceIte, String.isEmpty_iff, empty,
        Option.some.injEq] at owned
      exact .inr (owned ▸ endsQuoted_componentVertex name)

/-! ## Reaching scripts -/

variable (isEntry : start ∈ entryPoints)

include isEntry

/-- The main program loads the entry script. -/
theorem inSource_of_entry (found : p.sources.scripts.find? start = some f) : p.InSource f := by
  have inFolder : ∀ start ∈ entryPoints, start.startsWith (sourceScope ++ "/") := by
    simp only [String.startsWith_string_iff]
    decide
  have member : p.sources.scope sourceScope none p.sources.sourceRoots ∈ p.sources.scopes :=
    mem_cons_self
  obtain ⟨isName, isComponent⟩ := p.sources.scope_frame sourceScope none p.sources.sourceRoots
  refine ⟨_, scopes_of_read read ▸ member, ?_, ?_⟩
  · unfold scopeVertex?
    rw [isName]
    rfl
  · apply ((indexed_of_read read).isLeast_of_mem_scopes member).1.roots
    rw [isComponent]
    exact ⟨start, found, inFolder start isEntry⟩

/-- An entry script uses the main program, which uses it. -/
theorem uses_source (found : p.sources.scripts.find? start = some f) :
    Uses p.registrations start sourceScope ∧ Uses p.registrations sourceScope start := by
  obtain ⟨scope, member, owned, inFiles⟩ := inSource_of_entry read isEntry found
  have isVertex := (indexed_of_read read).scriptVertex_eq found
  have loads : p.Loads f := ⟨scope, member, by rw [owned]; rfl, inFiles⟩
  rw [← isVertex] at isEntry ⊢
  exact ⟨.entry (mem_filesOf_registrations.2 loads) isEntry,
    .scope (scope_mem_registrations.2 member) owned inFiles⟩

/-- It does not matter which entry script a walk starts from. -/
theorem reached_of_entry {other : String} (isEntry' : other ∈ entryPoints) {g : Script}
    (found : p.sources.scripts.find? start = some f)
    (found' : p.sources.scripts.find? other = some g)
    (reached : Reached (Uses p.registrations) builtinVertices [other] name) :
    Reached (Uses p.registrations) builtinVertices [start] name := by
  have indexed := indexed_of_read read
  induction reached with
  | root isRoot allowed =>
    rw [mem_singleton.1 isRoot]
    have first : Reached (Uses p.registrations) builtinVertices [start] start :=
      .root mem_cons_self (indexed.not_mem_builtinVertices found)
    exact .step (.step first (uses_source read isEntry found).1 sourceScope_not_builtin)
      (uses_source read isEntry' found').2 (indexed.not_mem_builtinVertices found')
  | step _ edge allowed ih => exact .step ih edge allowed

/-- A script is reached through the scopes that load it and in no other way. -/
theorem reached_script_iff {key : String} (found : p.sources.scripts.find? key = some f) :
    Reached (Uses p.registrations) builtinVertices [start] key ↔ p.Reaches start f := by
  have indexed := indexed_of_read read
  constructor
  · intro reached
    cases reached with
    | root isRoot allowed =>
      rw [mem_singleton.1 isRoot] at found
      obtain ⟨scope, member, owned, inFiles⟩ := inSource_of_entry read isEntry found
      have first : Reached (Uses p.registrations) builtinVertices [start] start :=
        .root mem_cons_self (indexed.not_mem_builtinVertices found)
      exact ⟨scope, member, inFiles, sourceScope, owned,
        .step first (uses_source read isEntry found).1 sourceScope_not_builtin⟩
    | step before edge allowed =>
      cases edge with
      | component registered named nonempty mentions =>
        exact absurd (endsQuoted_componentVertex _) (indexed.not_endsQuoted_key found)
      | @scope scope _ file registered owned inFiles =>
        have member := scope_mem_registrations.1 registered
        obtain ⟨key, found'⟩ := hasScript_of_mem read member inFiles
        have same : file = f := by
          rw [indexed.scriptVertex_eq found', found', Option.some.injEq] at found
          exact found
        exact ⟨scope, member, same ▸ inFiles, _, owned, before⟩
      | entry => exact absurd rfl (indexed.key_ne_sourceScope found)
      | literal first isLiteral isVertex =>
        obtain ⟨-, found'⟩ := (firstLoaded_iff read).1 first
        exact absurd (indexed.endsQuoted_of_mem_stringLiterals found' isLiteral)
          (indexed.not_endsQuoted_key found)
  · rintro ⟨scope, member, inFiles, owner, owned, reached⟩
    have edge : Uses p.registrations owner (scriptVertex f.pkgPath) :=
      .scope (scope_mem_registrations.2 member) owned inFiles
    rw [indexed.scriptVertex_eq found] at edge
    exact .step reached edge (indexed.not_mem_builtinVertices found)

/-! ## The check of a project -/

variable (present : p.sources.scripts.find? start = some entry)

include present

/-- A project with an entry script can be checked. The check enters a script exactly if the script
is reached, and knows its vertices. -/
theorem exists_check : ∃ check, p.usageGraph.check? = some check ∧
      (∀ key f, p.sources.scripts.find? key = some f →
        (key ∈ check.graph.walked ↔ p.Reaches start f)) ∧
      (∀ name, check.graph.owner? name = p.usageGraph.owner? name) ∧
      ∀ settings : Settings, ∀ severity, settings.severity? .unusedCode = some severity →
        check.diagnostics settings = (verticesOf p.registrations).filterMap fun name =>
          if name ∈ check.graph.walked then none
          else (check.graph.owner? name).bind (·.diagnostic? severity) := by
  have indexed := indexed_of_read read
  obtain ⟨scope, member, owned, inFiles⟩ := inSource_of_entry read isEntry present
  have loads : p.Loads entry := ⟨scope, member, by rw [owned]; rfl, inFiles⟩
  have registered : ∃ file ∈ filesOf p.registrations, scriptVertex file.pkgPath ∈ entryPoints :=
    ⟨entry, mem_filesOf_registrations.2 loads, indexed.scriptVertex_eq present ▸ isEntry⟩
  obtain ⟨other, isLoaded, isEntry', hasEntry⟩ := exists_entry registered
  obtain ⟨scope', member', -, inFiles'⟩ := mem_filesOf_registrations.1 isLoaded
  obtain ⟨key', present'⟩ := hasScript_of_mem read member' inFiles'
  rw [indexed.scriptVertex_eq present'] at isEntry' hasEntry
  obtain ⟨check, checked, walked, owners, diagnostics⟩ := exists_check_of_entry hasEntry
  rw [← usageGraph_eq] at checked owners
  refine ⟨check, checked, fun key f found => ?_, owners, diagnostics⟩
  rw [walked, ← reached_script_iff read isEntry found]
  constructor
  · rintro (builtin | reached)
    · exact absurd builtin (indexed.not_mem_builtinVertices found)
    · exact reached_of_entry read isEntry isEntry' present present' reached
  · exact fun reached => .inr (reached_of_entry read isEntry' isEntry present' present reached)

/-! ## A main program by itself -/

/-- A main program without literals leads to its own scripts only. -/
theorem source_of_reached (silent : ∀ f, p.InSource f → f.stringLiterals = [])
    (reached : Reached (Uses p.registrations) builtinVertices [start] name) :
    name = sourceScope ∨ ∃ f, p.InSource f ∧ p.sources.scripts.find? name = some f := by
  have indexed := indexed_of_read read
  -- A component is not reached.
  have unquoted {name : String}
      (inside : name = sourceScope ∨ ∃ f, p.InSource f ∧ p.sources.scripts.find? name = some f) :
      ¬ EndsQuoted name := by
    rcases inside with rfl | ⟨f, -, found⟩
    · decide
    · exact indexed.not_endsQuoted_key found
  induction reached with
  | root isRoot _ =>
    rw [mem_singleton.1 isRoot]
    exact .inr ⟨entry, inSource_of_entry read isEntry present, present⟩
  | step _ edge _ ih =>
    cases edge with
    | component => exact absurd (endsQuoted_componentVertex _) (unquoted ih)
    | @scope scope _ file registered owned inFiles =>
      have member := scope_mem_registrations.1 registered
      obtain ⟨isSource, -⟩ | quoted := component_of_scopeVertex? read member owned
      · obtain ⟨key, found⟩ := hasScript_of_mem read member inFiles
        rw [indexed.scriptVertex_eq found]
        exact .inr ⟨file, ⟨scope, member, isSource ▸ owned, inFiles⟩, found⟩
      · exact absurd quoted (unquoted ih)
    | entry => exact .inl rfl
    | literal first isLiteral _ =>
      obtain ⟨-, found⟩ := (firstLoaded_iff read).1 first
      rcases ih with isSource | ⟨f, inSource, found'⟩
      · exact absurd isSource (indexed.key_ne_sourceScope found)
      · rw [found, Option.some.injEq] at found'
        rw [found', silent f inSource] at isLiteral
        cases isLiteral

theorem inSource_of_reaches (silent : ∀ f, p.InSource f → f.stringLiterals = [])
    (reaches : p.Reaches start f) : p.InSource f := by
  have indexed := indexed_of_read read
  obtain ⟨scope, member, inFiles, owner, owned, reached⟩ := reaches
  have inside := source_of_reached read isEntry present silent reached
  obtain ⟨rfl, -⟩ | quoted := component_of_scopeVertex? read member owned
  · exact ⟨scope, member, owned, inFiles⟩
  · rcases inside with rfl | ⟨g, -, found⟩
    · exact absurd quoted (by decide)
    · exact absurd quoted (indexed.not_endsQuoted_key found)

end

end Project

end ChannelLint
