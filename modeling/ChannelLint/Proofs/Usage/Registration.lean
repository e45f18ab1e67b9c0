import ChannelLint.Proofs.Scopes
import ChannelLint.UsageGraph

/-!
# What registering builds

A usage graph is built by registering components and scopes, in any order. Each registration takes
some small steps: a step changes one vertex, which it creates if need be. What a graph holds is read
off the list of steps: its vertices in the order in which the steps name them, the edges and the
files that the steps give them, and for each script the literals of the file that came first.
-/
namespace ChannelLint

open List

/-! ## Names in order -/

variable {known : List String}

theorem addNames_append (known names more : List String) :
    addNames known (names ++ more) = addNames (addNames known names) more :=
  foldl_append

theorem addNames_of_mem {name : String} (isKnown : name ∈ known) : addNames known [name] = known :=
  if_pos (by simpa using isKnown)

theorem addNames_of_not_mem {name : String} (isNew : name ∉ known) :
    addNames known [name] = known ++ [name] :=
  if_neg (by simpa using isNew)

theorem nodup_addNames (distinct : known.Nodup) (names : List String) :
    (addNames known names).Nodup := by
  refine List.foldlRecOn names _ distinct fun known distinct name _ => ?_
  split
  · exact distinct
  · next isNew =>
    rw [← concat_eq_append, nodup_concat]
    exact ⟨by simpa using isNew, distinct⟩

/-- What is registered in a usage graph. -/
inductive Registration where
  | component (c : Component)
  | scope (s : Scope)

namespace UsageGraph

def register (g : UsageGraph) : Registration → UsageGraph
  | .component c => g.addComponent c
  | .scope s => g.addScope s

def ofRegistrations (rs : List Registration) : UsageGraph :=
  rs.foldl register {}

/-! ## Steps -/

/-- A change of one vertex. -/
inductive Step where
  | component (name : String) (c : Component)
  | vertex (name : String)
  | use (user : String) (file : Script)
  | load (file : Script)

namespace Step

/-- The vertex that is changed. -/
def name : Step → String
  | component name _ => componentVertex name
  | vertex name => name
  | use user _ => user
  | load file => scriptVertex file.pkgPath

/-- What the vertex leads to from now on. -/
def targets : Step → List String
  | component _ c => (componentEdges c).map (·.target)
  | vertex _ => []
  | use _ file => [scriptVertex file.pkgPath]
  | load file => if scriptVertex file.pkgPath ∈ entryPoints then [sourceScope] else []

/-- The file that the vertex stands for from now on. -/
def owner? : Step → Option Owner
  | component _ c => some (.component c.pkgPath c.nameRange)
  | load file => some (.script file.pkgPath)
  | vertex _ | use _ _ => none

def file? : Step → Option Script
  | load file => some file
  | component _ _ | vertex _ | use _ _ => none

end Step

/-- How the vertex changes. -/
def Step.change : Step → Vertex → Vertex
  | component _ c, v =>
    { v with
      owner := some (.component c.pkgPath c.nameRange)
      edges := v.edges ++ componentEdges c }
  | vertex _, v => v
  | use _ file, v =>
    { v with edges := v.edges ++ [⟨scriptVertex file.pkgPath, none, file.pkgPath⟩] }
  | load file, v =>
    { owner := some (.script file.pkgPath)
      edges := if entryPoints.contains (scriptVertex file.pkgPath) then
        v.edges ++ [⟨sourceScope, none, file.pkgPath⟩] else v.edges }

theorem Step.targets_change (s : Step) (v : Vertex) :
    (s.change v).edges.map (·.target) = v.edges.map (·.target) ++ s.targets := by
  cases s with
  | component | vertex | use => simp [Step.change, Step.targets]
  | load file =>
    by_cases isEntry : scriptVertex file.pkgPath ∈ entryPoints <;>
      simp [Step.change, Step.targets, isEntry]

theorem Step.owner_change (s : Step) (v : Vertex) : (s.change v).owner = s.owner?.or v.owner := by
  cases s <;> rfl

/-- Takes a step. Only a script that is loaded again changes nothing. -/
def apply (g : UsageGraph) : Step → UsageGraph
  | .load file => g.addScript file
  | step => g.withVertex step.name step.change

end UsageGraph

open UsageGraph in
/-- The steps that a registration takes. A component without a name takes none, nor does its
scope. -/
def Registration.steps : Registration → List Step
  | component c =>
    match c.name with
    | none => []
    | some name => if name.isEmpty then [] else [.component name c]
  | scope s =>
    match scopeVertex? s with
    | none => []
    | some vertex => .vertex vertex :: s.files.flatMap fun file => [.use vertex file, .load file]

namespace UsageGraph

theorem register_eq (g : UsageGraph) (r : Registration) : g.register r = r.steps.foldl apply g := by
  cases r with
  | component c =>
    unfold register addComponent Registration.steps
    dsimp only
    cases c.name with
    | none => rfl
    | some name =>
      dsimp only
      split <;> rfl
  | scope s =>
    unfold register addScope Registration.steps
    dsimp only
    cases scopeVertex? s with
    | none => rfl
    | some vertex =>
      dsimp only
      rw [foldl_cons, foldl_flatMap]
      rfl

/-- The steps that some registrations take. -/
def stepsOf (rs : List Registration) : List Step :=
  rs.flatMap Registration.steps

theorem ofRegistrations_eq (rs : List Registration) :
    ofRegistrations rs = (stepsOf rs).foldl apply {} := by
  unfold ofRegistrations stepsOf
  rw [foldl_flatMap]
  congr 1
  funext g r
  exact register_eq g r

/-! ## What a step changes -/

/-- A vertex leads to another one, or to the name of one that does not exist. -/
def Leads (g : UsageGraph) : String → String → Prop :=
  Worklist.Leads g.targets

/-- The file that a vertex stands for. -/
def owner? (g : UsageGraph) (name : String) : Option Owner :=
  (g.vertices.find? name).bind (·.owner)

theorem leads_iff (g : UsageGraph) (a b : String) :
    g.Leads a b ↔ ∃ v, g.vertices.find? a = some v ∧ b ∈ v.edges.map (·.target) := by
  unfold Leads Worklist.Leads UsageGraph.targets
  simp only [OrderedMap.find?_map, Option.map_eq_some_iff]
  constructor
  · rintro ⟨_, ⟨v, found, rfl⟩, isTarget⟩
    exact ⟨v, found, isTarget⟩
  · rintro ⟨v, found, isTarget⟩
    exact ⟨_, ⟨v, found, rfl⟩, isTarget⟩

/-- One vertex gets targets, and perhaps a file; it is created if need be. -/
structure Changed (g g' : UsageGraph) (name : String) (targets : List String)
    (owner : Option Owner) : Prop where
  keys : g'.vertices.keys = addNames g.vertices.keys [name]
  leads : ∀ a b, g'.Leads a b ↔ g.Leads a b ∨ a = name ∧ b ∈ targets
  owner_self : g'.owner? name = owner.or (g.owner? name)
  owner_of_ne : ∀ a, a ≠ name → g'.owner? a = g.owner? a

/-- Only vertices count. -/
theorem changed_of_vertices {g g' : UsageGraph} {name : String} {f : Vertex → Vertex}
    {targets : List String} {owner : Option Owner}
    (same : g'.vertices = (g.withVertex name f).vertices)
    (edges : ∀ v, (f v).edges.map (·.target) = v.edges.map (·.target) ++ targets)
    (owners : ∀ v, (f v).owner = owner.or v.owner) : g.Changed g' name targets owner := by
  have self : g'.vertices.find? name = some (f ((g.vertices.find? name).getD {})) :=
    same ▸ OrderedMap.find?_insert_self _ _ _
  have other (a : String) (differs : a ≠ name) : g'.vertices.find? a = g.vertices.find? a :=
    same ▸ OrderedMap.find?_insert_of_ne _ differs _
  constructor
  · rw [same]
    refine (OrderedMap.keys_insert _ _ _).trans ?_
    split
    · next isKnown => rw [addNames_of_mem isKnown]
    · next isNew => rw [addNames_of_not_mem isNew]
  · intro a b
    rw [leads_iff, leads_iff]
    by_cases same : a = name
    · subst same
      rw [self]
      simp only [Option.some.injEq, exists_eq_left', edges, mem_append, true_and]
      cases g.vertices.find? a with
      | none => simp
      | some v => simp
    · rw [other a same]
      simp [same]
  · unfold owner?
    rw [self]
    cases g.vertices.find? name with
    | none => simp [owners]
    | some v => simp [owners]
  · intro a differs
    unfold owner?
    rw [other a differs]

theorem addScript_of_mem {g : UsageGraph} {file : Script}
    (isKnown : scriptVertex file.pkgPath ∈ g.scripts) : g.addScript file = g :=
  if_pos (by simpa using isKnown)

/-- A script that is registered for the first time. -/
theorem addScript_of_not_mem {g : UsageGraph} {file : Script}
    (isNew : scriptVertex file.pkgPath ∉ g.scripts) : g.addScript file =
      { g.withVertex (scriptVertex file.pkgPath) (Step.load file).change with
        entry := if entryPoints.contains (scriptVertex file.pkgPath) then
          some (scriptVertex file.pkgPath) else g.entry
        scripts := g.scripts ++ [scriptVertex file.pkgPath]
        literals := g.literals.insert (scriptVertex file.pkgPath) file.stringLiterals } :=
  if_neg (by simpa using isNew)

/-! ## What steps build -/

/-- The scripts that are loaded, in order. -/
def loaded (steps : List Step) : List Script :=
  steps.filterMap Step.file?

/-- The script that was loaded first of those that share a vertex. -/
def firstLoaded (steps : List Step) (name : String) : Option Script :=
  (loaded steps).find? fun file => scriptVertex file.pkgPath == name

/-- The files that a vertex can stand for: a component of that name, or its first script. -/
def Owns (steps : List Step) (name : String) : Owner → Prop
  | .component path range => ∃ own c, .component own c ∈ steps ∧ componentVertex own = name ∧
      c.pkgPath = path ∧ c.nameRange = range
  | .script path => ∃ file, firstLoaded steps name = some file ∧ file.pkgPath = path

/-- What a graph holds after some steps. -/
structure Built (steps : List Step) (g : UsageGraph) : Prop where
  keys : g.vertices.keys = addNames [] (steps.map Step.name)
  leads : ∀ a b, g.Leads a b ↔ ∃ step ∈ steps, step.name = a ∧ b ∈ step.targets
  scripts : g.scripts = addNames [] ((loaded steps).map fun file => scriptVertex file.pkgPath)
  literals : ∀ name, g.literals.find? name = (firstLoaded steps name).map Script.stringLiterals
  literalKeys : g.literals.keys = g.scripts
  entry : g.entry = (g.scripts.filter (entryPoints.contains ·)).getLast?
  owns : ∀ name owner, g.owner? name = some owner → Owns steps name owner
  owned : ∀ step ∈ steps, step.owner?.isSome → (g.owner? step.name).isSome

theorem firstLoaded_append (steps more : List Step) (name : String) :
    firstLoaded (steps ++ more) name = (firstLoaded steps name).or (firstLoaded more name) := by
  rw [firstLoaded, loaded, filterMap_append, find?_append]
  rfl

theorem Owns.append {steps : List Step} {name : String} {owner : Owner}
    (owns : Owns steps name owner) (more : List Step) : Owns (steps ++ more) name owner := by
  cases owner with
  | component path range =>
    obtain ⟨own, c, member, rest⟩ := owns
    exact ⟨own, c, mem_append_left _ member, rest⟩
  | script path =>
    obtain ⟨file, first, same⟩ := owns
    exact ⟨file, by rw [firstLoaded_append, first, Option.some_or], same⟩

theorem built_nil : Built [] {} where
  keys := rfl
  leads _ _ := ⟨nofun, nofun⟩
  scripts := rfl
  literals _ := rfl
  literalKeys := rfl
  entry := rfl
  owns := nofun
  owned := nofun

variable {steps : List Step} {g : UsageGraph}

theorem mem_loaded {file : Script} : file ∈ loaded steps ↔ .load file ∈ steps := by
  unfold loaded
  rw [mem_filterMap]
  constructor
  · rintro ⟨step, member, isFile⟩
    cases step <;> cases isFile
    exact member
  · exact fun member => ⟨_, member, rfl⟩

theorem mem_of_firstLoaded {file : Script} {name : String}
    (first : firstLoaded steps name = some file) :
    file ∈ loaded steps ∧ scriptVertex file.pkgPath = name :=
  ⟨mem_of_find?_eq_some first, by simpa using find?_some first⟩

theorem exists_firstLoaded {file : Script} (isLoaded : file ∈ loaded steps) :
    ∃ first, firstLoaded steps (scriptVertex file.pkgPath) = some first :=
  Option.isSome_iff_exists.1 (find?_isSome.2 ⟨file, isLoaded, beq_self_eq_true _⟩)

namespace Built

variable (built : Built steps g)

include built

theorem mem_scripts {name : String} :
    name ∈ g.scripts ↔ ∃ file, .load file ∈ steps ∧ scriptVertex file.pkgPath = name := by
  rw [built.scripts, mem_addNames]
  simp [mem_loaded]

/-- A vertex that can stand for a file does stand for one. -/
theorem isSome_of_owns {name : String} {owner : Owner}
    (owns : Owns steps name owner) : (g.owner? name).isSome := by
  cases owner with
  | component path range =>
    obtain ⟨own, c, member, rfl, -⟩ := owns
    exact built.owned _ member rfl
  | script path =>
    obtain ⟨file, first, -⟩ := owns
    obtain ⟨isLoaded, rfl⟩ := mem_of_firstLoaded first
    exact built.owned (.load file) (mem_loaded.1 isLoaded) rfl

/-- The vertices, edges and files after one more vertex was changed. -/
theorem changed {g' : UsageGraph} {step : Step}
    (changed : g.Changed g' step.name step.targets step.owner?)
    (owns : ∀ owner, step.owner? = some owner → Owns (steps ++ [step]) step.name owner) :
    g'.vertices.keys = addNames [] ((steps ++ [step]).map Step.name) ∧
      (∀ a b, g'.Leads a b ↔ ∃ s ∈ steps ++ [step], s.name = a ∧ b ∈ s.targets) ∧
      (∀ name owner, g'.owner? name = some owner → Owns (steps ++ [step]) name owner) ∧
      ∀ s ∈ steps ++ [step], s.owner?.isSome → (g'.owner? s.name).isSome := by
  refine ⟨?_, fun a b => ?_, fun name owner isOwner => ?_, fun s member hasOwner => ?_⟩
  · rw [changed.keys, built.keys, map_append, addNames_append]
    rfl
  · rw [changed.leads, built.leads]
    simp only [mem_append, mem_singleton]
    grind
  · by_cases same : name = step.name
    · subst same
      rw [changed.owner_self] at isOwner
      cases new : step.owner? with
      | none =>
        rw [new, Option.none_or] at isOwner
        exact (built.owns _ _ isOwner).append _
      | some owner' =>
        rw [new, Option.some_or, Option.some.injEq] at isOwner
        exact isOwner ▸ owns owner' new
    · rw [changed.owner_of_ne name same] at isOwner
      exact (built.owns _ _ isOwner).append _
  · by_cases same : s.name = step.name
    · rw [same, changed.owner_self, Option.isSome_or, Bool.or_eq_true]
      rcases mem_append.1 member with old | new
      · exact .inr (same ▸ built.owned s old hasOwner)
      · exact .inl (mem_singleton.1 new ▸ hasOwner)
    · rw [changed.owner_of_ne _ same]
      rcases mem_append.1 member with old | new
      · exact built.owned s old hasOwner
      · exact absurd (congrArg Step.name (mem_singleton.1 new)) same

/-- A step that loads no script. -/
theorem withVertex {step : Step} (noFile : step.file? = none)
    (owns : ∀ owner, step.owner? = some owner → Owns (steps ++ [step]) step.name owner) :
    Built (steps ++ [step]) (g.withVertex step.name step.change) := by
  have changed : g.Changed (g.withVertex step.name step.change) step.name _ _ :=
    changed_of_vertices rfl step.targets_change step.owner_change
  obtain ⟨keys, leads, owns, owned⟩ := built.changed changed owns
  have same : loaded (steps ++ [step]) = loaded steps := by simp [loaded, noFile]
  refine ⟨keys, leads, ?_, ?_, built.literalKeys, built.entry, owns, owned⟩
  · rw [same]
    exact built.scripts
  · intro name
    rw [firstLoaded, same]
    exact built.literals name

/-- A script that was loaded before. -/
theorem reload {file : Script}
    (isKnown : scriptVertex file.pkgPath ∈ g.scripts) : Built (steps ++ [.load file]) g := by
  obtain ⟨before, member, same⟩ := built.mem_scripts.1 isKnown
  have isName : scriptVertex file.pkgPath ∈ g.vertices.keys := by
    rw [built.keys, mem_addNames]
    exact .inr (mem_map.2 ⟨_, member, same⟩)
  have sameTargets : (Step.load before).targets = (Step.load file).targets := by
    dsimp only [Step.targets]
    rw [same]
  have first (name : String) :
      firstLoaded (steps ++ [.load file]) name = firstLoaded steps name := by
    by_cases isFirst : scriptVertex file.pkgPath = name
    · obtain ⟨first, found⟩ := exists_firstLoaded (mem_loaded.2 member)
      rw [same, isFirst] at found
      rw [firstLoaded_append, found, Option.some_or]
    · simp [firstLoaded, loaded, Step.file?, isFirst]
  constructor
  · rw [map_append, addNames_append, ← built.keys]
    exact (addNames_of_mem isName).symm
  · intro a b
    rw [built.leads]
    constructor
    · rintro ⟨step, old, leads⟩
      exact ⟨step, mem_append_left _ old, leads⟩
    · rintro ⟨step, isStep, isName, isTarget⟩
      rcases mem_append.1 isStep with old | new
      · exact ⟨step, old, isName, isTarget⟩
      · rw [mem_singleton.1 new] at isName isTarget
        rw [← sameTargets] at isTarget
        exact ⟨_, member, same.trans isName, isTarget⟩
  · have again : loaded (steps ++ [.load file]) = loaded steps ++ [file] := by
      simp [loaded, Step.file?]
    rw [again, map_append, addNames_append, ← built.scripts]
    exact (addNames_of_mem isKnown).symm
  · intro name
    rw [first]
    exact built.literals name
  · exact built.literalKeys
  · exact built.entry
  · exact fun name owner isOwner => (built.owns name owner isOwner).append _
  · intro step isStep hasOwner
    rcases mem_append.1 isStep with old | new
    · exact built.owned step old hasOwner
    · rw [mem_singleton.1 new]
      have owned := built.owned _ member rfl
      rwa [show (Step.load before).name = (Step.load file).name from same] at owned

/-- A script that is loaded for the first time. -/
theorem load {file : Script} (isNew : scriptVertex file.pkgPath ∉ g.scripts) :
    Built (steps ++ [.load file]) (g.addScript file) := by
  have noneBefore : firstLoaded steps (scriptVertex file.pkgPath) = none := by
    refine Option.eq_none_iff_forall_not_mem.2 fun before first => ?_
    obtain ⟨isLoaded, same⟩ := mem_of_firstLoaded first
    exact isNew (built.mem_scripts.2 ⟨before, mem_loaded.1 isLoaded, same⟩)
  have again : loaded (steps ++ [.load file]) = loaded steps ++ [file] := by
    simp [loaded, Step.file?]
  have firstSelf : firstLoaded (steps ++ [.load file]) (scriptVertex file.pkgPath) = some file := by
    rw [firstLoaded_append, noneBefore]
    simp [firstLoaded, loaded, Step.file?]
  have added := addScript_of_not_mem isNew
  have changed : g.Changed (g.addScript file) (Step.load file).name (Step.load file).targets
      (Step.load file).owner? :=
    changed_of_vertices (by rw [added]; rfl) (Step.load file).targets_change
      (Step.load file).owner_change
  obtain ⟨keys, leads, owns, owned⟩ := built.changed changed fun owner isOwner => by
    cases isOwner
    exact ⟨file, firstSelf, rfl⟩
  refine ⟨keys, leads, ?_, ?_, ?_, ?_, owns, owned⟩
  · rw [again, map_append, addNames_append, ← built.scripts, added]
    exact (addNames_of_not_mem isNew).symm
  · intro name
    rw [added]
    refine (OrderedMap.find?_insert ..).trans ?_
    split
    · next same => rw [same, firstSelf, Option.map_some]
    · next differs =>
      rw [built.literals]
      simp [firstLoaded, loaded, Step.file?, Ne.symm differs]
  · have keys := OrderedMap.keys_insert g.literals (scriptVertex file.pkgPath) file.stringLiterals
    rw [built.literalKeys, if_neg isNew] at keys
    rw [added]
    exact keys
  · rw [added]
    dsimp only
    rw [filter_append, built.entry]
    by_cases isEntry : entryPoints.contains (scriptVertex file.pkgPath) = true
    · rw [if_pos isEntry, filter_cons_of_pos isEntry, filter_nil, getLast?_concat]
    · rw [if_neg isEntry, filter_cons_of_neg isEntry, filter_nil, append_nil]

theorem apply (step : Step) : Built (steps ++ [step]) (g.apply step) := by
  cases step with
  | component name c =>
    refine built.withVertex rfl fun owner isOwner => ?_
    cases isOwner
    exact ⟨name, c, mem_append_right _ mem_cons_self, rfl, rfl, rfl⟩
  | vertex name => exact built.withVertex rfl nofun
  | use user file => exact built.withVertex rfl nofun
  | load file =>
    by_cases isKnown : scriptVertex file.pkgPath ∈ g.scripts
    · have same : g.apply (.load file) = g := addScript_of_mem isKnown
      rw [same]
      exact built.reload isKnown
    · exact built.load isKnown

theorem run (more : List Step) : Built (steps ++ more) (more.foldl UsageGraph.apply g) := by
  induction more generalizing steps g with
  | nil =>
    rw [append_nil]
    exact built
  | cons step rest ih =>
    rw [append_cons]
    exact ih (built.apply step)

end Built

theorem built_ofRegistrations (rs : List Registration) :
    Built (stepsOf rs) (ofRegistrations rs) := by
  rw [ofRegistrations_eq]
  exact built_nil.run (stepsOf rs)

end UsageGraph

end ChannelLint
