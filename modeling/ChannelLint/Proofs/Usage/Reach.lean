import ChannelLint.Proofs.Usage.Registration

/-!
# The usage check is exact

Whatever was registered, the check reaches exactly what the entry script leads to over uses that do
not enter a component of the firmware. A component uses what it extends and the components of its
nodes, the owner of a scope uses the scripts of the scope, the entry script uses the main program,
and a script uses every vertex whose name is one of its literals. What has a file and is not reached
is reported, in the order in which the vertices were created.
-/
namespace ChannelLint

open List

variable {settings : Settings} {severity : Severity}

/-- A component names another one: as the one it extends, as a node or as the items of a node. -/
def Component.Mentions (c : Component) (name : String) : Prop :=
  c.parent = some name ∧ name ≠ "" ∨
    ∃ n ∈ c.nodes, n.tag = name ∨ n.attributes.find? "itemcomponentname" = some name ∧ name ≠ ""

/-- The diagnostic for a file that is not used. -/
def Owner.diagnostic? (severity : Severity) : Owner → Option Diagnostic
  | script path => some ⟨severity, .unusedScript path, .create 0 0 1 0, path⟩
  | component path range => range.map fun r => ⟨severity, .unusedComponent path, r, path⟩

/-- Running over the entries is running over the keys and looking each of them up. -/
theorem OrderedMap.filterMap_entries {α β : Type} {m : OrderedMap α} (distinct : m.keys.Nodup)
    (f : String → α → Option β) : (m.entries.filterMap fun (key, value) => f key value) =
      m.keys.filterMap fun key => (m.find? key).bind (f key) := by
  unfold OrderedMap.keys
  rw [filterMap_map]
  apply filterMap_congr
  rintro ⟨key, value⟩ member
  have found := OrderedMap.find?_of_mem distinct member
  simp [found]

namespace UsageGraph

variable {rs : List Registration}

/-- The scripts of the scopes that were registered, in order. -/
def filesOf (rs : List Registration) : List Script :=
  loaded (stepsOf rs)

/-- The vertices in the order in which registering creates them. -/
def verticesOf (rs : List Registration) : List String :=
  addNames [] ((stepsOf rs).map Step.name)

/-- One vertex uses another. -/
inductive Uses (rs : List Registration) : String → String → Prop
  | component {c : Component} {name other : String} : .component c ∈ rs → c.name = some name →
      name ≠ "" → c.Mentions other → Uses rs (componentVertex name) (componentVertex other)
  | scope {s : Scope} {owner : String} {file : Script} : .scope s ∈ rs →
      scopeVertex? s = some owner → file ∈ s.files → Uses rs owner (scriptVertex file.pkgPath)
  | entry {file : Script} : file ∈ filesOf rs → scriptVertex file.pkgPath ∈ entryPoints →
      Uses rs (scriptVertex file.pkgPath) sourceScope
  | literal {name text : String} {file : Script} {range : Range} :
      firstLoaded (stepsOf rs) name = some file → (text, range) ∈ file.stringLiterals →
      text ∈ verticesOf rs → Uses rs name text

/-! ## Structural uses -/

/-- The steps of registrations: one for a component with a name; for a scope with an owner one that
makes its vertex, and two for each of its scripts. -/
theorem mem_stepsOf {step : Step} : step ∈ stepsOf rs ↔
      (∃ c name, .component c ∈ rs ∧ c.name = some name ∧ name ≠ "" ∧ step = .component name c) ∨
      ∃ s owner, .scope s ∈ rs ∧ scopeVertex? s = some owner ∧
        (step = .vertex owner ∨ ∃ file ∈ s.files, step = .use owner file ∨ step = .load file) := by
  unfold stepsOf
  rw [mem_flatMap]
  constructor
  · rintro ⟨r, member, isStep⟩
    cases r with
    | component c =>
      cases named : c.name with
      | none => simp [Registration.steps, named] at isStep
      | some name =>
        by_cases empty : name = ""
        · simp [Registration.steps, named, empty] at isStep
        · simp only [Registration.steps, named, String.isEmpty_iff, empty, ↓reduceIte,
            mem_singleton] at isStep
          exact .inl ⟨c, name, member, named, empty, isStep⟩
    | scope s =>
      cases owned : scopeVertex? s with
      | none => simp [Registration.steps, owned] at isStep
      | some owner =>
        simp only [Registration.steps, owned, mem_cons, mem_flatMap, not_mem_nil,
          or_false] at isStep
        exact .inr ⟨s, owner, member, owned, isStep⟩
  · rintro (⟨c, name, member, named, nonempty, rfl⟩ | ⟨s, owner, member, owned, isStep⟩)
    · exact ⟨_, member, by simp [Registration.steps, named, nonempty]⟩
    · exact ⟨_, member, by simpa [Registration.steps, owned] using isStep⟩

theorem mem_stepsOf_component {name : String} {c : Component} :
    .component name c ∈ stepsOf rs ↔ .component c ∈ rs ∧ c.name = some name ∧ name ≠ "" := by
  rw [mem_stepsOf]
  constructor
  · rintro (⟨d, own, registered, named, nonempty, same⟩ | ⟨_, _, _, _, same | ⟨_, _, same⟩⟩)
    · cases same
      exact ⟨registered, named, nonempty⟩
    · cases same
    · simp at same
  · rintro ⟨registered, named, nonempty⟩
    exact .inl ⟨c, name, registered, named, nonempty, rfl⟩

theorem mem_stepsOf_use {owner : String} {file : Script} : .use owner file ∈ stepsOf rs ↔
      ∃ s, .scope s ∈ rs ∧ scopeVertex? s = some owner ∧ file ∈ s.files := by
  rw [mem_stepsOf]
  simp

theorem mem_filesOf {file : Script} :
    file ∈ filesOf rs ↔ ∃ s, .scope s ∈ rs ∧ (scopeVertex? s).isSome ∧ file ∈ s.files := by
  unfold filesOf
  rw [mem_loaded, mem_stepsOf]
  simp [Option.isSome_iff_exists]

theorem mem_targets_nodeEdges {pkgPath other : String} {n : Node} :
    other ∈ (nodeEdges pkgPath n).map (·.target) ↔
      ∃ name, (n.tag = name ∨ n.attributes.find? "itemcomponentname" = some name ∧ name ≠ "") ∧
        componentVertex name = other := by
  unfold nodeEdges
  cases n.attributes.find? "itemcomponentname" with
  | none => simp [eq_comm]
  | some item =>
    by_cases empty : item = ""
    · simp [empty]
      grind
    · simp [empty]
      grind

theorem mem_targets_component {name other : String} {c : Component} :
    other ∈ (Step.component name c).targets ↔
      ∃ mentioned, c.Mentions mentioned ∧ componentVertex mentioned = other := by
  have nodes : other ∈ (c.nodes.flatMap (nodeEdges c.pkgPath)).map (·.target) ↔
      ∃ n ∈ c.nodes, other ∈ (nodeEdges c.pkgPath n).map (·.target) := by
    rw [map_flatMap, mem_flatMap]
  unfold Step.targets componentEdges Component.Mentions
  dsimp only
  rw [map_append, mem_append, nodes]
  simp only [mem_targets_nodeEdges]
  cases c.parent with
  | none =>
    simp only [map_nil, not_mem_nil, false_or, reduceCtorEq, false_and]
    grind
  | some parent =>
    by_cases empty : parent = ""
    · simp [empty]
      grind
    · simp [empty]
      grind

/-- The edges of a graph are the uses that do not come from literals. -/
theorem exists_step_iff {a b : String} : (∃ step ∈ stepsOf rs, step.name = a ∧ b ∈ step.targets) ∨
      (∃ file range, firstLoaded (stepsOf rs) a = some file ∧ (b, range) ∈ file.stringLiterals ∧
        b ∈ verticesOf rs) ↔ Uses rs a b := by
  constructor
  · rintro (⟨step, member, rfl, isTarget⟩ | ⟨file, range, first, isLiteral, isVertex⟩)
    · cases step with
      | component name c =>
        obtain ⟨registered, named, nonempty⟩ := mem_stepsOf_component.1 member
        obtain ⟨other, mentions, rfl⟩ := mem_targets_component.1 isTarget
        exact .component registered named nonempty mentions
      | vertex name => cases isTarget
      | use owner file =>
        obtain ⟨s, registered, owned, inFiles⟩ := mem_stepsOf_use.1 member
        rw [mem_singleton.1 isTarget]
        exact .scope registered owned inFiles
      | load file =>
        unfold Step.targets at isTarget
        by_cases isEntry : scriptVertex file.pkgPath ∈ entryPoints
        · simp only [isEntry, ↓reduceIte, mem_singleton] at isTarget
          rw [isTarget]
          exact .entry (mem_loaded.2 member) isEntry
        · simp [isEntry] at isTarget
    · exact .literal first isLiteral isVertex
  · intro uses
    cases uses with
    | component registered named nonempty mentions =>
      exact .inl ⟨_, mem_stepsOf_component.2 ⟨registered, named, nonempty⟩, rfl,
        mem_targets_component.2 ⟨_, mentions, rfl⟩⟩
    | scope registered owned inFiles =>
      exact .inl ⟨_, mem_stepsOf_use.2 ⟨_, registered, owned, inFiles⟩, rfl, mem_cons_self⟩
    | entry isLoaded isEntry =>
      exact .inl ⟨_, mem_loaded.1 isLoaded, rfl, by simp [Step.targets, isEntry]⟩
    | literal first isLiteral isVertex => exact .inr ⟨_, _, first, isLiteral, isVertex⟩

/-! ## Literals -/

theorem changed_resolveScript (names : OrderedMap Vertex) (g : UsageGraph)
    (script : String × List (String × Range)) : g.Changed (resolveScript names g script) script.1
      ((script.2.filter fun (text, _) => names.contains text).map (·.1)) none :=
  changed_of_vertices rfl (fun v => by simp [Function.comp_def]) fun _ => rfl

/-- Resolving literals adds edges and nothing else. -/
theorem resolveScripts_frame (names : OrderedMap Vertex) {g : UsageGraph}
    {scripts : List (String × List (String × Range))}
    (known : ∀ script ∈ scripts, script.1 ∈ g.vertices.keys) :
    (scripts.foldl (resolveScript names) g).vertices.keys = g.vertices.keys ∧
      (∀ name, (scripts.foldl (resolveScript names) g).owner? name = g.owner? name) ∧
      ∀ a b, (scripts.foldl (resolveScript names) g).Leads a b ↔ g.Leads a b ∨
        ∃ script ∈ scripts, script.1 = a ∧ names.contains b ∧ ∃ range, (b, range) ∈ script.2 := by
  induction scripts generalizing g with
  | nil => simp
  | cons script rest ih =>
    obtain ⟨first, others⟩ := forall_mem_cons.1 known
    have changed := changed_resolveScript names g script
    have sameKeys : (resolveScript names g script).vertices.keys = g.vertices.keys := by
      rw [changed.keys, addNames_of_mem first]
    have sameOwner (name : String) :
        (resolveScript names g script).owner? name = g.owner? name := by
      by_cases same : name = script.1
      · rw [same, changed.owner_self, Option.none_or]
      · exact changed.owner_of_ne name same
    obtain ⟨keys, owners, leads⟩ := @ih (resolveScript names g script) (by rwa [sameKeys])
    refine ⟨keys.trans sameKeys, fun name => (owners name).trans (sameOwner name), fun a b => ?_⟩
    rw [foldl_cons, leads, changed.leads]
    simp only [mem_map, mem_filter, Prod.exists, exists_and_right, exists_eq_right,
      mem_cons, exists_eq_or_imp, or_assoc]
    grind

variable {steps : List Step} {g : UsageGraph}

/-- Resolving the literals of a graph adds an edge for each that names a vertex. -/
theorem Built.resolveLiterals (built : Built steps g) :
    g.resolveLiterals.vertices.keys = g.vertices.keys ∧
      (∀ name, g.resolveLiterals.owner? name = g.owner? name) ∧
      ∀ a b, g.resolveLiterals.Leads a b ↔
        (∃ step ∈ steps, step.name = a ∧ b ∈ step.targets) ∨
        ∃ file range, firstLoaded steps a = some file ∧ (b, range) ∈ file.stringLiterals ∧
          b ∈ g.vertices.keys := by
  have distinct : g.literals.keys.Nodup := by
    rw [built.literalKeys, built.scripts]
    exact nodup_addNames nodup_nil _
  have known : ∀ script ∈ g.literals.entries, script.1 ∈ g.vertices.keys := by
    intro script member
    have isScript : script.1 ∈ g.scripts := built.literalKeys ▸ mem_map_of_mem member
    obtain ⟨file, isLoaded, same⟩ := built.mem_scripts.1 isScript
    rw [built.keys, mem_addNames]
    exact .inr (mem_map.2 ⟨_, isLoaded, same⟩)
  have isEntry (a : String) (texts : List (String × Range)) :
      (a, texts) ∈ g.literals.entries ↔
        ∃ file, firstLoaded steps a = some file ∧ file.stringLiterals = texts := by
    rw [← Option.map_eq_some_iff, ← built.literals]
    exact ⟨OrderedMap.find?_of_mem distinct, OrderedMap.mem_of_find?⟩
  obtain ⟨keys, owners, leads⟩ := resolveScripts_frame g.vertices known
  refine ⟨keys, owners, fun a b => (leads a b).trans (or_congr (built.leads a b) ?_)⟩
  rw [OrderedMap.contains_iff_mem_keys]
  constructor
  · rintro ⟨⟨_, texts⟩, member, rfl, isVertex, range, isText⟩
    obtain ⟨file, first, rfl⟩ := (isEntry _ _).1 member
    exact ⟨file, range, first, isText, isVertex⟩
  · rintro ⟨file, range, first, isText, isVertex⟩
    have member := (isEntry a file.stringLiterals).2 ⟨file, first, rfl⟩
    exact ⟨_, member, rfl, isVertex, range, isText⟩

/-! ## The check -/

theorem exists_entry (registered : ∃ file ∈ filesOf rs, scriptVertex file.pkgPath ∈ entryPoints) :
    ∃ file ∈ filesOf rs, scriptVertex file.pkgPath ∈ entryPoints ∧
      (ofRegistrations rs).entry = some (scriptVertex file.pkgPath) := by
  have built := built_ofRegistrations rs
  obtain ⟨file, isLoaded, isEntry⟩ := registered
  have inScripts := built.mem_scripts.2 ⟨file, mem_loaded.1 isLoaded, rfl⟩
  have inEntries : scriptVertex file.pkgPath ∈
      (ofRegistrations rs).scripts.filter (entryPoints.contains ·) :=
    mem_filter.2 ⟨inScripts, by simpa using isEntry⟩
  obtain ⟨start, last⟩ := Option.isSome_iff_exists.1
    (getLast?_isSome.2 (ne_nil_of_mem inEntries))
  obtain ⟨isScript, isEntry'⟩ := mem_filter.1 (mem_of_getLast? last)
  obtain ⟨file', isLoaded', rfl⟩ := built.mem_scripts.1 isScript
  exact ⟨file', mem_loaded.2 isLoaded', by simpa using isEntry', built.entry.trans last⟩

theorem Owner.report_unused? (on : settings.severity? .unusedCode = some severity) (owner : Owner) :
    (owner.unused?.bind fun f => settings.report? owner.pkgPath f) =
      owner.diagnostic? severity := by
  cases owner with
  | script path =>
    have report := congrArg (Option.map fun level =>
      (⟨level, .unusedScript path, .create 0 0 1 0, path⟩ : Diagnostic)) on
    exact report
  | component path range =>
    cases range with
    | none => rfl
    | some r =>
      have report := congrArg (Option.map fun level =>
        (⟨level, .unusedComponent path, r, path⟩ : Diagnostic)) on
      exact report

/-- What a check finds is code that is not used. -/
theorem rule_of_mem_findings {check : Check} (checked : g.check? = some check) {file : String}
    {f : Finding} (member : (file, f) ∈ check.findings) : f.issue.code.rule = .unusedCode := by
  obtain ⟨start, -, rfl⟩ := Option.map_eq_some_iff.1 checked
  obtain ⟨⟨name, v⟩, -, found⟩ := mem_filterMap.1 member
  dsimp only at found
  split at found
  · cases found
  · obtain ⟨owner, -, owned⟩ := Option.bind_eq_some_iff.1 found
    obtain ⟨f, isUnused, same⟩ := Option.map_eq_some_iff.1 owned
    cases same
    cases owner with
    | script path =>
      cases isUnused
      rfl
    | component path range =>
      obtain ⟨r, -, rfl⟩ := Option.map_eq_some_iff.1 isUnused
      rfl

/-- What a check from the entry script does. -/
theorem exists_check {start : String} (hasEntry : g.entry = some start) :
    ∃ check, g.check? = some check ∧
      check.graph = { g.resolveLiterals with
        walked := builtinVertices ++ g.resolveLiterals.visited start } ∧
      check.findings = check.graph.vertices.entries.filterMap fun (name, v) =>
        if check.graph.walked.contains name then none
        else v.owner.bind fun owner => owner.unused?.map fun f => (owner.pkgPath, f) := by
  unfold check?
  rw [hasEntry]
  exact ⟨_, rfl, rfl, rfl⟩

/-- The diagnostics of a check, vertex by vertex. -/
theorem diagnostics_eq {check : Check} (distinct : check.graph.vertices.keys.Nodup)
    (findings : check.findings = check.graph.vertices.entries.filterMap fun (name, v) =>
      if check.graph.walked.contains name then none
      else v.owner.bind fun owner => owner.unused?.map fun f => (owner.pkgPath, f))
    (on : settings.severity? .unusedCode = some severity) :
    check.diagnostics settings = check.graph.vertices.keys.filterMap fun name =>
      if name ∈ check.graph.walked then none
      else (check.graph.owner? name).bind (·.diagnostic? severity) := by
  have vertex (name : String) (v : Vertex) :
      ((if check.graph.walked.contains name then none
        else v.owner.bind fun owner => owner.unused?.map fun f => (owner.pkgPath, f)).bind
          fun finding => settings.report? finding.1 finding.2) =
        if name ∈ check.graph.walked then none else v.owner.bind (·.diagnostic? severity) := by
    by_cases isWalked : name ∈ check.graph.walked
    · simp [isWalked]
    · simp only [contains_eq_mem, isWalked, decide_false, Bool.false_eq_true, ↓reduceIte]
      cases v.owner with
      | none => rfl
      | some owner =>
        rw [Option.bind_some, Option.bind_some, ← Owner.report_unused? on owner, Option.bind_map]
        rfl
  unfold Check.diagnostics
  rw [findings, filterMap_filterMap]
  refine (filterMap_congr fun entry _ => vertex entry.1 entry.2).trans ?_
  refine (OrderedMap.filterMap_entries distinct fun name v =>
    if name ∈ check.graph.walked then none else v.owner.bind (·.diagnostic? severity)).trans ?_
  apply filterMap_congr
  intro name _
  unfold owner?
  cases check.graph.vertices.find? name with
  | none => simp
  | some v => rfl

/-- A check from the entry script enters what that leads to, without passing a component of the
firmware. It keeps the files of the vertices and reports them in order. -/
theorem exists_check_of_entry {start : String}
    (hasEntry : (ofRegistrations rs).entry = some start) :
    ∃ check, (ofRegistrations rs).check? = some check ∧
      (∀ name, name ∈ check.graph.walked ↔ name ∈ builtinVertices ∨
        Reached (Uses rs) builtinVertices [start] name) ∧
      (∀ name, check.graph.owner? name = (ofRegistrations rs).owner? name) ∧
      ∀ settings : Settings, ∀ severity, settings.severity? .unusedCode = some severity →
        check.diagnostics settings = (verticesOf rs).filterMap fun name =>
          if name ∈ check.graph.walked then none
          else (check.graph.owner? name).bind (·.diagnostic? severity) := by
  obtain ⟨check, checked, graph, findings⟩ := exists_check hasEntry
  have built := built_ofRegistrations rs
  obtain ⟨keys, owners, leads⟩ := built.resolveLiterals
  have checkKeys : check.graph.vertices.keys = verticesOf rs := by
    rw [graph]
    exact keys.trans built.keys
  refine ⟨check, checked, fun name => ?_, fun name => ?_, fun settings severity on => ?_⟩
  · have uses (a b : String) : (ofRegistrations rs).resolveLiterals.Leads a b ↔ Uses rs a b := by
      rw [leads, built.keys]
      exact exists_step_iff
    rw [graph, mem_append]
    exact or_congr_right ((Worklist.mem_visit_iff _ _ _ name).trans (Reached.congr uses))
  · rw [graph]
    exact owners name
  · have distinct : check.graph.vertices.keys.Nodup := by
      rw [checkKeys]
      exact nodup_addNames nodup_nil _
    rw [diagnostics_eq distinct findings on, checkKeys]

/-- A check of what was registered ends and enters exactly what the entry script leads to without
passing a component of the firmware. It reports one file after the other, in the order in which the
vertices were created: each that is not entered and is a script, or a component whose name was found
in its text. -/
theorem check_enters_exactly (rs : List Registration)
    (registered : ∃ file ∈ filesOf rs, scriptVertex file.pkgPath ∈ entryPoints) :
    ∃ entry ∈ filesOf rs, scriptVertex entry.pkgPath ∈ entryPoints ∧
    (ofRegistrations rs).entry = some (scriptVertex entry.pkgPath) ∧
    ∃ check, (ofRegistrations rs).check? = some check ∧
      (∀ name, name ∈ check.graph.walked ↔ name ∈ builtinVertices ∨
        Reached (Uses rs) builtinVertices [scriptVertex entry.pkgPath] name) ∧
      (∀ name owner, check.graph.owner? name = some owner → Owns (stepsOf rs) name owner) ∧
      (∀ name owner, Owns (stepsOf rs) name owner → (check.graph.owner? name).isSome) ∧
      ∀ settings : Settings, ∀ severity, settings.severity? .unusedCode = some severity →
        check.diagnostics settings = (verticesOf rs).filterMap fun name =>
          if name ∈ check.graph.walked then none
          else (check.graph.owner? name).bind (·.diagnostic? severity) := by
  obtain ⟨entry, isLoaded, isEntry, hasEntry⟩ := exists_entry registered
  obtain ⟨check, checked, walked, owners, diagnostics⟩ := exists_check_of_entry hasEntry
  have built := built_ofRegistrations rs
  refine ⟨entry, isLoaded, isEntry, hasEntry, check, checked, walked, ?_, ?_, diagnostics⟩
  · intro name owner isOwner
    exact built.owns name owner (owners name ▸ isOwner)
  · intro name owner owns
    rw [owners]
    exact built.isSome_of_owns owns

/-- Two components that extend each other; the entry script holds the name of the first. -/
theorem check_enters_exactly_circular : let extending (name parent : String) : Component :=
      { path := name, pkgPath := name, root := "component", name := some name
        parent := some parent }
    let body : Func :=
      { keyword := "sub", params := [], returnType := none, name := none, isMethod := false
        body := ⟨[.print [.literal .string "\"A\"" default] default], default⟩
        nspace := none, range := default, signature := default }
    let main : Script :=
      ⟨"source/main.brs", "source/main.brs", "", [.function ⟨"main", default⟩ body]⟩
    let rs : List Registration :=
      [.component (extending "A" "B"), .component (extending "B" "A"),
        .scope { name := sourceScope, files := [main] }]
    (∃ file ∈ filesOf rs, scriptVertex file.pkgPath ∈ entryPoints) ∧
      ∃ check, (ofRegistrations rs).check? = some check ∧
        componentVertex "B" ∈ check.graph.walked := by
  intro extending body main rs
  have files : filesOf rs = [main] := rfl
  have isEntry : scriptVertex main.pkgPath ∈ entryPoints := by decide
  have registered : ∃ file ∈ filesOf rs, scriptVertex file.pkgPath ∈ entryPoints :=
    ⟨main, by simp [files], isEntry⟩
  obtain ⟨entry, isLoaded, -, -, check, checked, walked, -⟩ := check_enters_exactly rs registered
  refine ⟨registered, check, checked, (walked _).2 (.inr ?_)⟩
  have isMain : entry = main := by simpa [files] using isLoaded
  have literal : Uses rs (scriptVertex main.pkgPath) (componentVertex "A") := by
    have first : firstLoaded (stepsOf rs) (scriptVertex main.pkgPath) = some main := by
      have loaded : loaded (stepsOf rs) = [main] := files
      simp [firstLoaded, loaded]
    have literals : main.stringLiterals = [(componentVertex "A", default)] := rfl
    exact .literal first (literals ▸ mem_cons_self) (by decide)
  have parent : Uses rs (componentVertex "A") (componentVertex "B") :=
    .component mem_cons_self rfl (by decide) (.inl ⟨rfl, by decide⟩)
  have own : ∀ name ∈ ["A", "B"], componentVertex name ∉ builtinVertices := by decide
  rw [isMain]
  exact .step (.step (.root mem_cons_self (by decide)) literal (own _ (by simp))) parent
    (own _ (by simp))

end UsageGraph

end ChannelLint
