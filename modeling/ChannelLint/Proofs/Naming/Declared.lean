import ChannelLint.Proofs.Literals.Scripts
import ChannelLint.Proofs.Naming.Dotted

/-!
# What declarations declare, and where

A script declares names inside namespaces, and the namespaces around a declaration give the segments
that its name stands behind (`Decl.locateAll`). The parser reads only names between the dots. So the
namespace noted in a placed declaration is the dotted name of those segments in lower case, and the
names that a script gives to its scope are the located names, dotted and in lower case.
-/
namespace ChannelLint

open List Text

namespace Decl

mutual

/-- A declaration behind `path`, and behind a namespace the declarations inside it: each with the
segments of the namespaces around it. -/
def locate (path : List String) : Decl → List (List String × Decl)
  | .nspace name body range =>
    (path, .nspace name body range) :: locateAll (path ++ dottedParts name) body
  | .function name func => [(path, .function name func)]
  | .class decl => [(path, .class decl)]
  | .const name value range outer => [(path, .const name value range outer)]
  | .enum name members range outer => [(path, .enum name members range outer)]
  | .importFile file range => [(path, .importFile file range)]
  | .library file range => [(path, .library file range)]

def locateAll (path : List String) : List Decl → List (List String × Decl)
  | [] => []
  | d :: rest => d.locate path ++ locateAll path rest

end

def Named (d : Decl) : Prop :=
  ∀ e ∈ d.flatten, e.NamedHere

end Decl

/-- The names of what was read are segments. -/
theorem Part.All.named {t : String} {p : Part} (all : p.All (Part.AsRead t)) :
    ∀ d, p = .decl d → d.Named := by
  induction all with
  | @intro p here _ each =>
    rintro d rfl e member
    cases d with
    | nspace name body range =>
      rw [Decl.flatten, mem_cons] at member
      obtain rfl | inside := member
      · exact here.lexed
      · obtain ⟨inner, inBody, inDecl⟩ := Decl.mem_flattenAll.1 inside
        exact each _ (mem_map_of_mem inBody) inner rfl e inDecl
    | _ =>
      obtain rfl := mem_singleton.1 member
      exact here.lexed

/-! ## Placed declarations -/

/-- The namespace with the given segments, as it is noted in declarations. -/
def namespaceOf (segments : List String) : Option String :=
  if segments = [] then none else some (lower (dotted segments))

theorem isDotted_of_segments {segments : List String} (each : ∀ s ∈ segments, IsSegment s) :
    ∀ s ∈ segments, isDotted s := fun s member => isDotted_of_isName (each s member).isName

theorem lower_dotted_ne_empty {segments : List String} (each : ∀ s ∈ segments, IsSegment s)
    (nonempty : segments ≠ []) : lower (dotted segments) ≠ "" := by
  rw [lower_dotted (isDotted_of_segments each)]
  refine dotted_ne_empty (forall_mem_map.2 fun s member => ?_) (by simpa using nonempty)
  exact (each s member).lower_ne_empty

/-- A name behind the namespace of some segments. -/
theorem qualifiedName_namespaceOf {path : List String} (each : ∀ s ∈ path, IsSegment s)
    (nonempty : path ≠ []) (name : String) :
    qualifiedName (namespaceOf path) name = lower (dotted path) ++ "." ++ name := by
  have filled : (lower (dotted path)).isEmpty = false :=
    Bool.eq_false_iff.2 fun empty =>
      lower_dotted_ne_empty each nonempty (String.isEmpty_iff.1 empty)
  simp [namespaceOf, nonempty, qualifiedName, filled]

theorem lower_qualifiedName_dotted {path segments : List String} (hpath : ∀ s ∈ path, IsSegment s)
    (hsegments : ∀ s ∈ segments, IsSegment s) (nonempty : segments ≠ []) :
    lower (qualifiedName (namespaceOf path) (dotted segments)) =
      lower (dotted (path ++ segments)) := by
  by_cases top : path = []
  · subst top
    rfl
  · have outer := isDotted_dotted (isDotted_of_segments hpath)
    have inner := isDotted_dotted (isDotted_of_segments hsegments)
    have dot : isDotted "." := by decide
    rw [qualifiedName_namespaceOf hpath top, dotted_append top nonempty,
      lower_append (isDotted_append (isDotted_lower outer) dot) inner,
      lower_append (isDotted_append outer dot) inner,
      lower_append (isDotted_lower outer) dot, lower_append outer dot,
      lower_lower outer]

theorem inNamespace_namespaceOf {path : List String} {name : String}
    (hpath : ∀ s ∈ path, IsSegment s) (hname : IsSegment name) :
    inNamespace (namespaceOf path) (lower name) = dotted ((path ++ [name]).map lower) := by
  have same : inNamespace (namespaceOf path) (lower name) =
      qualifiedName (namespaceOf path) (lower name) := rfl
  have whole : ∀ s ∈ path ++ [name], IsSegment s :=
    forall_mem_append.2 ⟨hpath, forall_mem_singleton.2 hname⟩
  rw [same, ← lower_dotted (isDotted_of_segments whole)]
  by_cases top : path = []
  · subst top
    rw [nil_append, dotted, String.intercalate_singleton]
    rfl
  · have outer := isDotted_dotted (isDotted_of_segments hpath)
    have inner := isDotted_of_isName hname.isName
    have dot : isDotted "." := by decide
    rw [qualifiedName_namespaceOf hpath top, dotted_append top (cons_ne_nil _ _),
      lower_append (isDotted_append outer dot)
        (isDotted_dotted (forall_mem_singleton.2 inner)),
      lower_append outer dot, dotted, dotted, String.intercalate_singleton]
    rfl

theorem dotted_dottedParts (name : String) : dotted (dottedParts name) = name := by
  apply String.toList_inj.1
  rw [dotted, String.toList_intercalate, dottedParts, map_map]
  have parts : (name.toList.splitOn '.').map (String.toList ∘ String.ofList) =
      name.toList.splitOn '.' :=
    (map_congr_left fun _ _ => String.toList_ofList).trans (map_id _)
  rw [parts]
  exact intercalate_splitOn '.'

theorem dottedParts_ne_nil (name : String) : dottedParts name ≠ [] := by
  simp [dottedParts]

namespace Decl

mutual

/-- Placing a declaration notes in each declaration the segments that are located around it. -/
theorem flatten_place (d : Decl) {path : List String} (each : ∀ s ∈ path, IsSegment s)
    (named : d.Named) : (d.place (namespaceOf path)).flatten =
      (d.locate path).map fun (around, e) => e.place (namespaceOf around) := by
  cases d with
  | nspace name body range =>
    have here : (Decl.nspace name body range).NamedHere := named _ mem_cons_self
    have segments : ∀ s ∈ dottedParts name, IsSegment s := here.opened _ rfl
    have nonempty : path ++ dottedParts name ≠ [] := by simp [dottedParts_ne_nil]
    have inside : some (lower (qualifiedName (namespaceOf path) name)) =
        namespaceOf (path ++ dottedParts name) := by
      rw [namespaceOf.eq_def (_ ++ _), if_neg nonempty,
        ← lower_qualifiedName_dotted each segments (dottedParts_ne_nil name), dotted_dottedParts]
    have rest := flattenAll_placeAll body (forall_mem_append.2 ⟨each, segments⟩)
      fun e member => named e (mem_cons_of_mem _ member)
    rw [locate, map_cons, ← rest, ← inside]
    rfl
  | _ => rfl

theorem flattenAll_placeAll (ds : List Decl) {path : List String} (each : ∀ s ∈ path, IsSegment s)
    (named : ∀ e ∈ flattenAll ds, e.NamedHere) : flattenAll (placeAll (namespaceOf path) ds) =
      (locateAll path ds).map fun (around, e) => e.place (namespaceOf around) := by
  cases ds with
  | nil => rfl
  | cons d rest =>
    rw [flattenAll, forall_mem_append] at named
    rw [placeAll, flattenAll, locateAll, map_append, d.flatten_place each named.1,
      flattenAll_placeAll rest each named.2]

end

mutual

theorem named_locate (d : Decl) {path : List String} (each : ∀ s ∈ path, IsSegment s)
    (named : d.Named) : ∀ l ∈ d.locate path, (∀ s ∈ l.1, IsSegment s) ∧ l.2 ∈ d.flatten := by
  cases d with
  | nspace name body range =>
    have here : (Decl.nspace name body range).NamedHere := named _ mem_cons_self
    have segments : ∀ s ∈ dottedParts name, IsSegment s := here.opened _ rfl
    have rest := named_locateAll body (forall_mem_append.2 ⟨each, segments⟩)
      fun e member => named e (mem_cons_of_mem _ member)
    refine forall_mem_cons.2 ⟨⟨each, mem_cons_self⟩, fun l member => ?_⟩
    exact ⟨(rest l member).1, mem_cons_of_mem _ (rest l member).2⟩
  | _ => exact forall_mem_singleton.2 ⟨each, mem_cons_self⟩

theorem named_locateAll (ds : List Decl) {path : List String} (each : ∀ s ∈ path, IsSegment s)
    (named : ∀ e ∈ flattenAll ds, e.NamedHere) :
    ∀ l ∈ locateAll path ds, (∀ s ∈ l.1, IsSegment s) ∧ l.2 ∈ flattenAll ds := by
  cases ds with
  | nil => exact nofun
  | cons d rest =>
    rw [flattenAll, forall_mem_append] at named
    refine forall_mem_append.2 ⟨fun l member => ?_, fun l member => ?_⟩
    · obtain ⟨segments, inside⟩ := d.named_locate each named.1 l member
      exact ⟨segments, mem_append_left _ inside⟩
    · obtain ⟨segments, inside⟩ := named_locateAll rest each named.2 l member
      exact ⟨segments, mem_append_right _ inside⟩

end

/-- The names that a placed declaration gives to its scope. -/
theorem mem_names_place {d : Decl} {path : List String} (each : ∀ s ∈ path, IsSegment s)
    (named : d.NamedHere) (key : String) :
    key ∈ (d.place (namespaceOf path)).callable? ∨ key ∈ (d.place (namespaceOf path)).toplevel ↔
      (∃ name ∈ d.declaredName?, key = dotted ((path ++ [name]).map lower)) ∨
      ∃ segments ∈ d.opened?, ∃ start, start <+: (path ++ segments).map lower ∧ start ≠ [] ∧
        key = dotted start := by
  have declared (name : String) (isDeclared : d.declaredName? = some name) :
      inNamespace (namespaceOf path) (lower name) = dotted ((path ++ [name]).map lower) :=
    inNamespace_namespaceOf each (named.declared name isDeclared)
  cases d with
  | function name func =>
    simp [place, callable?, toplevel, declaredName?, opened?, declared name.text rfl, eq_comm]
  | «class» decl =>
    simp [place, callable?, toplevel, declaredName?, opened?, declared decl.name.text rfl]
  | const name _ _ _ | enum name _ _ _ =>
    simp [place, callable?, toplevel, declaredName?, opened?, declared name.text rfl]
  | importFile file range | library file range =>
    simp [place, callable?, toplevel, declaredName?, opened?]
  | nspace name body range =>
    have segments : ∀ s ∈ dottedParts name, IsSegment s := named.opened _ rfl
    have whole : ∀ s ∈ path ++ dottedParts name, IsSegment s :=
      forall_mem_append.2 ⟨each, segments⟩
    have full : dottedParts (lower (qualifiedName (namespaceOf path) name)) =
        (path ++ dottedParts name).map lower := by
      have lowered := lower_qualifiedName_dotted each segments (dottedParts_ne_nil name)
      rw [dotted_dottedParts, lower_dotted (isDotted_of_segments whole)] at lowered
      rw [lowered]
      refine dottedParts_dotted (forall_mem_map.2 fun s member => ?_)
        (by simp [dottedParts_ne_nil])
      exact (whole s member).dotless_lower
    simp [place, callable?, toplevel, declaredName?, opened?, full, mem_dottedPrefixes]

/-- The functions of a placed declaration are in its namespace, those inside them in none. -/
theorem nspace_of_mem_functions_place {d : Decl} {outer : Option String} {f : Func}
    (asRead : ∀ g ∈ d.functions, g.AsRead) (member : f ∈ (d.place outer).functions) :
    f.nspace = outer ∨ f.nspace = none := by
  have placed (func : Func) (asRead : ∀ g ∈ func.functions, g.AsRead)
      (member : f ∈ ({ func with nspace := outer } : Func).functions) :
      f.nspace = outer ∨ f.nspace = none := by
    rw [Func.functions_eq] at asRead member
    obtain rfl | inside := mem_cons.1 member
    · exact .inl rfl
    · exact .inr (asRead f (mem_cons_of_mem _ inside)).nspace
  cases d with
  | function name func => exact placed func asRead member
  | «class» decl =>
    simp only [place, functions, flatMap_map] at asRead member
    obtain ⟨m, isMember, inside⟩ := mem_flatMap.1 member
    have asRead : ∀ g ∈ m.functions, g.AsRead := fun g inMember =>
      asRead g (mem_flatMap.2 ⟨m, isMember, inMember⟩)
    cases m with
    | method name func => exact placed func asRead inside
    | field name type value range => exact .inr (asRead f inside).nspace
  | _ => cases member

end Decl

/-! ## Scripts -/

namespace Script

/-- The declarations that the text of a script holds, before they are placed. -/
def written (s : Script) : List Decl :=
  match parseDeclarations (unmarkedText s.source).toList with
  | .ok ds => ds
  | .error _ => []

/-- The declarations of a script with the segments of the namespaces around them. -/
def located (s : Script) : List (List String × Decl) :=
  Decl.locateAll [] s.written

variable {source path pkgPath : String} {s : Script}

/-- What is located in a script that was read. -/
structure Placed (s : Script) : Prop where
  segments : ∀ l ∈ s.located, ∀ segment ∈ l.1, IsSegment segment
  named : ∀ l ∈ s.located, l.2.NamedHere
  asRead : ∀ l ∈ s.located, ∀ f ∈ l.2.functions, f.AsRead
  allDecls : s.allDecls = s.located.map fun (around, d) => d.place (namespaceOf around)

theorem placed_of_read (read : Script.read source path pkgPath = .ok s) : s.Placed := by
  obtain ⟨ds, parsed, rfl⟩ := Script.exists_parsed read
  have written : written ⟨path, if pkgPath.isEmpty then path else pkgPath, source,
      Decl.placeAll none ds⟩ = ds := by
    simp only [Script.written, parsed]
  have read := asRead_of_parsed parsed
  have asRead := Decl.asRead_of_parsed parsed
  have namedAll : ∀ e ∈ Decl.flattenAll ds, e.NamedHere := fun e member => by
    obtain ⟨d, inList, inDecl⟩ := Decl.mem_flattenAll.1 member
    exact (read d inList).named d rfl e inDecl
  have each : ∀ l ∈ Decl.locateAll [] ds, (∀ s ∈ l.1, IsSegment s) ∧ l.2 ∈ Decl.flattenAll ds :=
    Decl.named_locateAll ds nofun namedAll
  constructor
  · rw [located, written]
    exact fun l member => (each l member).1
  · rw [located, written]
    exact fun l member => namedAll l.2 (each l member).2
  · rw [located, written]
    exact fun l member f inDecl =>
      asRead f (mem_flatMap.2 ⟨l.2, (each l member).2, inDecl⟩)
  · rw [located, written]
    change Decl.flattenAll (Decl.placeAll (namespaceOf []) ds) = _
    exact Decl.flattenAll_placeAll ds nofun namedAll

variable (placed : s.Placed)

include placed

/-- The names that a script gives to its scope. -/
theorem Placed.mem_names {key : String} : key ∈ s.callables ∨ key ∈ s.toplevel ↔
      (∃ l ∈ s.located, ∃ name ∈ l.2.declaredName?, key = dotted ((l.1 ++ [name]).map lower)) ∨
      ∃ l ∈ s.located, ∃ segments ∈ l.2.opened?, ∃ start,
        start <+: (l.1 ++ segments).map lower ∧ start ≠ [] ∧ key = dotted start := by
  have each (l : List String × Decl) (member : l ∈ s.located) :=
    Decl.mem_names_place (placed.segments l member) (placed.named l member) key
  simp only [callables, toplevel, placed.allDecls, mem_filterMap, mem_flatMap,
    mem_map, exists_exists_and_eq_and]
  rw [← exists_or, ← exists_or]
  refine exists_congr fun l => ?_
  rw [← and_or_left, ← and_or_left]
  exact and_congr_right (each l)

/-- The namespace of a function has segments. -/
theorem Placed.exists_namespaceOf {f : Func} (member : f ∈ s.functions) :
    ∃ path, (∀ segment ∈ path, IsSegment segment) ∧ f.nspace = namespaceOf path := by
  rw [functions, placed.allDecls, flatMap_map] at member
  obtain ⟨l, isLocated, inDecl⟩ := mem_flatMap.1 member
  obtain inside | nested :=
    Decl.nspace_of_mem_functions_place (placed.asRead l isLocated) inDecl
  · exact ⟨l.1, placed.segments l isLocated, inside⟩
  · exact ⟨[], nofun, nested⟩

end Script

end ChannelLint
