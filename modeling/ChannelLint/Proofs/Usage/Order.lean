import ChannelLint.Proofs.Usage.Reach
import ChannelLint.Proofs.Usage.Vertices

/-!
# The order of registering does not matter

What uses what, which files are loaded and which vertices there are is told by the registrations
whatever their order. The order decides only which of two components of one name a vertex stands
for, which of two files with one vertex is the first, and which of two entry scripts is the last.
Where none of this occurs, a check enters the same vertices and reports the same files, and a second
check is the first one again.
-/
namespace ChannelLint

open List

/-- The name that a component is registered under, in lower case. -/
def Registration.componentName? : Registration → Option String
  | component c => (c.name.filter (· ≠ "")).map Text.lower
  | scope _ => none

theorem componentVertex_inj {a b : String} :
    componentVertex a = componentVertex b ↔ Text.lower a = Text.lower b := by
  simp [componentVertex]

namespace UsageGraph

/-- Components with different names, and scopes whose files are scripts: one for each vertex, and
one of them an entry script. -/
structure Coherent (rs : List Registration) : Prop where
  names : (rs.filterMap Registration.componentName?).Nodup
  scripts : ∀ f ∈ filesOf rs, Path.extension f.pkgPath ∈ FileTree.scriptExtensions
  files : ∀ f ∈ filesOf rs, ∀ g ∈ filesOf rs,
    scriptVertex f.pkgPath = scriptVertex g.pkgPath → f = g
  entry : ∃ f ∈ filesOf rs, scriptVertex f.pkgPath ∈ entryPoints ∧
    ∀ g ∈ filesOf rs, scriptVertex g.pkgPath ∈ entryPoints → g = f

variable {rs rs' : List Registration}

/-! ## What does not depend on the order -/

variable {f : Script} {name : String}

theorem perm_stepsOf (perm : rs.Perm rs') : (stepsOf rs).Perm (stepsOf rs') :=
  perm.flatMap_right _

theorem mem_filesOf_of_perm (perm : rs.Perm rs') : f ∈ filesOf rs ↔ f ∈ filesOf rs' :=
  ((perm_stepsOf perm).filterMap _).mem_iff

theorem perm_verticesOf (perm : rs.Perm rs') : (verticesOf rs).Perm (verticesOf rs') := by
  refine (perm_ext_iff_of_nodup (nodup_addNames .nil _) (nodup_addNames .nil _)).2 fun name => ?_
  rw [mem_addNames, mem_addNames, ((perm_stepsOf perm).map _).mem_iff]

theorem componentName?_of_mem_stepsOf {own : String} {c : Component}
    (isStep : .component own c ∈ stepsOf rs) :
    .component c ∈ rs ∧ (Registration.component c).componentName? = some (Text.lower own) := by
  obtain ⟨registered, named, nonempty⟩ := mem_stepsOf_component.1 isStep
  exact ⟨registered, by simp [Registration.componentName?, named, nonempty]⟩

namespace Coherent

variable (coherent : Coherent rs)

include coherent

theorem perm (perm : rs.Perm rs') : Coherent rs' where
  names := (perm.filterMap _).nodup_iff.1 coherent.names
  scripts f isLoaded := coherent.scripts f ((mem_filesOf_of_perm perm).2 isLoaded)
  files f isLoaded g isLoaded' := coherent.files f ((mem_filesOf_of_perm perm).2 isLoaded) g
    ((mem_filesOf_of_perm perm).2 isLoaded')
  entry := by
    obtain ⟨f, isLoaded, isEntry, only⟩ := coherent.entry
    exact ⟨f, (mem_filesOf_of_perm perm).1 isLoaded, isEntry,
      fun g isLoaded' => only g ((mem_filesOf_of_perm perm).2 isLoaded')⟩

/-- Each file is the first one with its vertex. -/
theorem firstLoaded_iff :
    firstLoaded (stepsOf rs) name = some f ↔ f ∈ filesOf rs ∧ scriptVertex f.pkgPath = name := by
  constructor
  · exact mem_of_firstLoaded
  · rintro ⟨isLoaded, rfl⟩
    obtain ⟨g, first⟩ := exists_firstLoaded isLoaded
    obtain ⟨isLoaded', same⟩ := mem_of_firstLoaded first
    rw [first, coherent.files g isLoaded' f isLoaded same]

theorem uses_of_perm (perm : rs.Perm rs') {a b : String} (uses : Uses rs a b) : Uses rs' a b := by
  cases uses with
  | component registered named nonempty mentions =>
    exact .component (perm.mem_iff.1 registered) named nonempty mentions
  | scope registered owned inFiles => exact .scope (perm.mem_iff.1 registered) owned inFiles
  | entry isLoaded isEntry => exact .entry ((mem_filesOf_of_perm perm).1 isLoaded) isEntry
  | literal first isLiteral isVertex =>
    obtain ⟨isLoaded, isName⟩ := coherent.firstLoaded_iff.1 first
    refine .literal ((coherent.perm perm).firstLoaded_iff.2 ⟨?_, isName⟩) isLiteral ?_
    · exact (mem_filesOf_of_perm perm).1 isLoaded
    · exact (perm_verticesOf perm).mem_iff.1 isVertex

/-! ## Files of vertices -/

theorem not_endsQuoted (isLoaded : f ∈ filesOf rs) : ¬ EndsQuoted (scriptVertex f.pkgPath) := by
  unfold scriptVertex
  rw [Text.endsQuoted_lower_iff, Path.endsQuoted_forwardSlashes_iff]
  exact Path.not_endsQuoted_of_extension (by decide) (coherent.scripts f isLoaded)

/-- Components of one name are one component. -/
theorem component_unique {c d : Component} {own other : String}
    (isStep : .component own c ∈ stepsOf rs) (isStep' : .component other d ∈ stepsOf rs)
    (same : componentVertex own = componentVertex other) : c = d := by
  obtain ⟨registered, named⟩ := componentName?_of_mem_stepsOf isStep
  obtain ⟨registered', named'⟩ := componentName?_of_mem_stepsOf isStep'
  have apart := pairwise_filterMap.1 coherent.names
  have : Std.Symm fun r r' : Registration => ∀ name, r.componentName? = some name →
      ∀ name', r'.componentName? = some name' → name ≠ name' :=
    ⟨fun r r' apart name isName name' isName' => (apart name' isName' name isName).symm⟩
  by_contra differs
  exact apart.forall registered registered' (fun same => differs (Registration.component.inj same))
    _ named _ named' (componentVertex_inj.1 same)

/-- A vertex stands for at most one file. -/
theorem owns_unique {owner other : Owner}
    (owns : Owns (stepsOf rs) name owner) (owns' : Owns (stepsOf rs) name other) :
    owner = other := by
  -- The vertex of a component ends with a quote and that of a script does not.
  have apart {own path : String} (isName : componentVertex own = name)
      (script : Owns (stepsOf rs) name (.script path)) : False := by
    obtain ⟨f, first, -⟩ := script
    obtain ⟨isLoaded, rfl⟩ := coherent.firstLoaded_iff.1 first
    exact coherent.not_endsQuoted isLoaded (isName ▸ endsQuoted_componentVertex own)
  cases owner with
  | component path range =>
    obtain ⟨own, c, isStep, isName, rfl, rfl⟩ := owns
    cases other with
    | component path' range' =>
      obtain ⟨own', d, isStep', isName', rfl, rfl⟩ := owns'
      rw [coherent.component_unique isStep isStep' (isName.trans isName'.symm)]
    | script path' => exact (apart isName owns').elim
  | script path =>
    cases other with
    | component path' range' =>
      obtain ⟨own, c, isStep, isName, -⟩ := owns'
      exact (apart isName owns).elim
    | script path' =>
      obtain ⟨f, first, rfl⟩ := owns
      obtain ⟨g, first', rfl⟩ := owns'
      rw [Option.some.inj (first.symm.trans first')]

theorem owner?_eq_some_iff {owner : Owner} :
    (ofRegistrations rs).owner? name = some owner ↔ Owns (stepsOf rs) name owner := by
  have built := built_ofRegistrations rs
  refine ⟨built.owns name owner, fun owns => ?_⟩
  obtain ⟨other, isOwner⟩ := Option.isSome_iff_exists.1 (built.isSome_of_owns owns)
  rw [isOwner, coherent.owns_unique (built.owns name other isOwner) owns]

theorem owns_of_perm (perm : rs.Perm rs') {owner : Owner}
    (owns : Owns (stepsOf rs) name owner) : Owns (stepsOf rs') name owner := by
  cases owner with
  | component path range =>
    obtain ⟨own, c, isStep, rest⟩ := owns
    exact ⟨own, c, (perm_stepsOf perm).mem_iff.1 isStep, rest⟩
  | script path =>
    obtain ⟨f, first, isPath⟩ := owns
    obtain ⟨isLoaded, isName⟩ := coherent.firstLoaded_iff.1 first
    exact ⟨f, (coherent.perm perm).firstLoaded_iff.2
      ⟨(mem_filesOf_of_perm perm).1 isLoaded, isName⟩, isPath⟩

theorem owner?_of_perm (perm : rs.Perm rs') (name : String) :
    (ofRegistrations rs).owner? name = (ofRegistrations rs').owner? name := by
  have coherent' := coherent.perm perm
  refine Option.ext fun owner => ?_
  rw [coherent.owner?_eq_some_iff, coherent'.owner?_eq_some_iff]
  exact ⟨coherent.owns_of_perm perm, coherent'.owns_of_perm perm.symm⟩

end Coherent

/-! ## Checks -/

theorem entry_resolveLiterals (g : UsageGraph) : g.resolveLiterals.entry = g.entry := by
  have kept (names : OrderedMap Vertex) (scripts : List (String × List (String × Range)))
      (g : UsageGraph) : (scripts.foldl (resolveScript names) g).entry = g.entry := by
    induction scripts generalizing g with
    | nil => rfl
    | cons script rest ih => exact ih _
  exact kept _ _ g

/-- A check leaves a graph whose check is the same one. -/
theorem check?_of_check {g : UsageGraph} {check : Check} (checked : g.check? = some check) :
    check.graph.check? = some check := by
  obtain ⟨start, isStart, rfl⟩ := Option.map_eq_some_iff.1 checked
  have again : g.resolveLiterals.entry = some start := (entry_resolveLiterals g).trans isStart
  unfold check?
  rw [show UsageGraph.entry _ = some start from again]
  rfl

/-- With the rule switched off nothing is reported. -/
theorem diagnostics_of_off {g : UsageGraph} {check : Check} (checked : g.check? = some check)
    {settings : Settings} (off : settings.severity? .unusedCode = none) :
    check.diagnostics settings = [] := by
  refine filterMap_eq_nil_iff.2 fun ⟨file, f⟩ found => ?_
  show settings.report? file f = none
  rw [Settings.report?, rule_of_mem_findings checked found, off]
  rfl

/-- Registering components and scopes in another order gives a check that enters the same vertices
and reports the same diagnostics. A check of what a check leaves is that check again. -/
theorem check_of_perm (perm : rs.Perm rs') (coherent : Coherent rs) :
    ∃ check check', (ofRegistrations rs).check? = some check ∧
      (ofRegistrations rs').check? = some check' ∧
      (∀ name, name ∈ check.graph.walked ↔ name ∈ check'.graph.walked) ∧
      (∀ settings, (check.diagnostics settings).Perm (check'.diagnostics settings)) ∧
      check.graph.check? = some check := by
  have coherent' := coherent.perm perm
  obtain ⟨f, isLoaded, isEntry, only⟩ := coherent.entry
  obtain ⟨first, isFirst, firstEntry, hasEntry⟩ := exists_entry ⟨f, isLoaded, isEntry⟩
  obtain ⟨second, isSecond, secondEntry, hasEntry'⟩ :=
    exists_entry ⟨f, (mem_filesOf_of_perm perm).1 isLoaded, isEntry⟩
  rw [only first isFirst firstEntry] at hasEntry
  rw [only second ((mem_filesOf_of_perm perm).2 isSecond) secondEntry] at hasEntry'
  obtain ⟨check, checked, walked, owners, diagnostics⟩ := exists_check_of_entry hasEntry
  obtain ⟨check', checked', walked', owners', diagnostics'⟩ := exists_check_of_entry hasEntry'
  have entered (name : String) : name ∈ check.graph.walked ↔ name ∈ check'.graph.walked := by
    rw [walked, walked']
    exact or_congr_right (Reached.congr fun a b =>
      ⟨coherent.uses_of_perm perm, coherent'.uses_of_perm perm.symm⟩)
  refine ⟨check, check', checked, checked', entered, fun settings => ?_, check?_of_check checked⟩
  cases on : settings.severity? .unusedCode with
  | none =>
    rw [diagnostics_of_off checked on, diagnostics_of_off checked' on]
  | some severity =>
    rw [diagnostics settings severity on, diagnostics' settings severity on]
    refine ((perm_verticesOf perm).filterMap _).trans (.of_eq (filterMap_congr fun name _ => ?_))
    simp only [entered, owners, owners', coherent.owner?_of_perm perm]

/-- The main program holds the name of a component as a literal. -/
def namesPage : Script :=
  let page := Stmt.print [.literal .string "\"Page\"" .empty] .empty
  let main : Func := ⟨"sub", [], ⟨[page], .empty⟩, .empty, .empty, none, none, false, none⟩
  ⟨"source/main.brs", "source/main.brs", "", [.function ⟨"main", .empty⟩ main]⟩

/-- The component extends one that is registered later, and nothing uses a third one. -/
def extended : List Registration :=
  let component (name parent : String) : Component :=
    { path := name, pkgPath := name, root := "component", name := some name
      nameRange := some .empty, parent := some parent }
  [.component (component "Page" "View"), .scope { name := sourceScope, files := [namesPage] },
    .component (component "View" "Group"), .component (component "Old" "Group")]

/-- The literal leads to the page and on to its parent, so the third component alone is reported. -/
theorem extended_reports :
    ((ofRegistrations extended).check?.map fun check => (check.diagnostics {}).map (·.file)) =
      some ["Old"] := by
  have targets : (ofRegistrations extended).resolveLiterals.targets =
      ⟨[("\"page\"", ["\"view\""]), ("source", ["source/main.brs"]),
        ("source/main.brs", ["source", "\"page\""]), ("\"view\"", ["\"group\""]),
        ("\"old\"", ["\"group\""])]⟩ := by
    decide +kernel
  have builtin : "\"group\"" ∈ builtinVertices ∧ "source/main.brs" ∉ builtinVertices ∧
      "source" ∉ builtinVertices ∧ "\"page\"" ∉ builtinVertices ∧ "\"view\"" ∉ builtinVertices := by
    decide +kernel
  have visited : (ofRegistrations extended).resolveLiterals.visited "source/main.brs" =
      ["source/main.brs", "source", "\"page\"", "\"view\""] := by
    rw [UsageGraph.visited, targets]
    simp [Worklist.visit, OrderedMap.find?, lookup, builtin]
  rw [check?, show (ofRegistrations extended).entry = some "source/main.brs" by decide +kernel]
  simp only [Option.map_some, visited]
  decide +kernel

theorem check_of_perm_extended : Coherent extended ∧
    ((ofRegistrations extended).check?.map fun check => (check.diagnostics {}).map (·.file)) =
      some ["Old"] ∧
    ∃ check check', (ofRegistrations extended).check? = some check ∧
      (ofRegistrations extended.reverse).check? = some check' ∧
      (∀ name, name ∈ check.graph.walked ↔ name ∈ check'.graph.walked) ∧
      (∀ settings, (check.diagnostics settings).Perm (check'.diagnostics settings)) ∧
      check.graph.check? = some check := by
  have files : filesOf extended = [namesPage] := rfl
  have coherent : Coherent extended := by
    refine ⟨by decide +kernel, ?_, ?_, ?_⟩
    · simp only [files, forall_mem_singleton]
      decide +kernel
    · simp [files]
    · refine ⟨_, files ▸ mem_cons_self, by decide +kernel, fun g isLoaded _ => ?_⟩
      rw [files] at isLoaded
      exact mem_singleton.1 isLoaded
  exact ⟨coherent, extended_reports, check_of_perm (reverse_perm extended).symm coherent⟩

end UsageGraph

end ChannelLint
