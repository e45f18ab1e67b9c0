import ChannelLint.Proofs.Literals.Scripts

/-!
# Names and the functions they belong to

A name that stands in a part belongs to the innermost function around it (`Part.Names`). Parts in a
row do not overlap, so that no two names of a script do, and a name belongs to one function only.
-/
namespace ChannelLint

open List

variable {i j : Ident} {source : String}

namespace Part

variable {t : String} {p q : Part} {f g owner : Option Func}

/-- What the parts in a row leave out. -/
theorem line_cases (p : Part) : p.line = p.parts ∨
    (∃ s value, p = .stmt s ∧ s.compound? = some value ∧ p.line = [.expr value]) ∨
    (∃ name func, (p = .member (.method name func) ∨ p = .decl (.function name func)) ∧
      p.parts = [.ident name, .expr (.function func)] ∧ p.line = [.expr (.function func)]) ∨
    ∃ func, p = .expr (.function func) ∧ p.parts = .signature func.signature :: p.line := by
  cases p with
  | stmt s =>
    cases compound : s.compound? with
    | none => exact .inl (by simp only [line, compound, Option.elim, parts])
    | some value =>
      exact .inr (.inl ⟨s, value, rfl, compound, by simp only [line, compound, Option.elim]⟩)
  | expr e =>
    cases e with
    | function func => exact .inr (.inr (.inr ⟨func, rfl, rfl⟩))
    | _ => exact .inl rfl
  | member m =>
    cases m with
    | method name func => exact .inr (.inr (.inl ⟨name, func, .inl rfl, rfl, rfl⟩))
    | field => exact .inl rfl
  | decl d =>
    cases d with
    | function name func => exact .inr (.inr (.inl ⟨name, func, .inr rfl, rfl, rfl⟩))
    | _ => exact .inl rfl
  | _ => exact .inl rfl

theorem AsRead.mem_parts (here : p.AsRead t) (member : q ∈ p.line) : q ∈ p.parts := by
  obtain same | ⟨s, value, rfl, compound, line⟩ | ⟨name, func, -, parts, line⟩ | ⟨func, -, parts⟩ :=
    p.line_cases
  · exact same ▸ member
  · obtain ⟨old, op, right, range, -, -, parts⟩ := here.lexed value compound
    rw [line, mem_singleton] at member
    rw [Part.parts, parts, member]
    exact mem_append_right _ mem_cons_self
  · rw [line, mem_singleton] at member
    rw [parts, member]
    exact .tail _ mem_cons_self
  · exact parts ▸ .tail _ member

/-- A name in a part and the function that it belongs to. The part itself stands in `owner`. -/
inductive Names (i : Ident) (f : Option Func) : Option Func → Part → Prop
  | self : Names i f f (.ident i)
  | enter {owner : Option Func} {func : Func} {q : Part} :
      q ∈ (Part.expr (.function func)).line → Names i f (some func) q →
      Names i f owner (.expr (.function func))
  | inside {owner : Option Func} {p q : Part} : (∀ func, p ≠ .expr (.function func)) →
      q ∈ p.line → Names i f owner q → Names i f owner p

/-- What stands within a part stands within the whole. -/
theorem AsRead.inside_of_mem (here : p.AsRead t) (member : q ∈ p.parts) {r : Range}
    (inside : r.Inside q.range) (placed : ¬ q.IsBare) : r.Inside p.range ∧ ¬ p.IsBare := by
  have within := (here.inside q member).resolve_left placed
  refine ⟨⟨within.start.trans inside.start, inside.stop.trans within.stop⟩, fun bare => ?_⟩
  cases p with
  | block b =>
    simp only [parts, bare.1] at member
    cases member
  | _ => exact bare

/-- A name stands in the text, within every part that it is in. -/
theorem Names.within (names : Names i f owner p) (all : p.All (AsRead t)) :
    StandsIn t i ∧ i.range.Inside p.range ∧ ¬ p.IsBare := by
  have outer {p q : Part} (all : p.All (AsRead t)) (member : q ∈ p.line)
      (inner : StandsIn t i ∧ i.range.Inside q.range ∧ ¬ q.IsBare) :
      StandsIn t i ∧ i.range.Inside p.range ∧ ¬ p.IsBare :=
    ⟨inner.1, all.here.inside_of_mem (all.here.mem_parts member) inner.2.1 inner.2.2⟩
  induction names with
  | self => exact ⟨all.here.lexed, ⟨le_refl _, le_refl _⟩, id⟩
  | enter member _ ih => exact outer all member (ih (all.parts _ (all.here.mem_parts member)))
  | inside _ member _ ih => exact outer all member (ih (all.parts _ (all.here.mem_parts member)))

/-- One name stands behind the other. -/
def Apart (i j : Ident) : Prop :=
  i.range.stop ≤ j.range.start ∨ j.range.stop ≤ i.range.start

/-- Names in different parts of a row stand behind each other. -/
theorem apart_of_row {ps : List Part} (each : ∀ q ∈ ps, q.All (AsRead t))
    (row : ps.Pairwise Before) {r : Part} (first : q ∈ ps) (second : r ∈ ps)
    (inFirst : Names i f owner q) (inSecond : Names j g owner r) : q = r ∨ Apart i j := by
  have before {q r : Part} {i j : Ident} {f g : Option Func} (first : q ∈ ps) (second : r ∈ ps)
      (inFirst : Names i f owner q) (inSecond : Names j g owner r) (before : q.Before r) :
      i.range.stop ≤ j.range.start := by
    obtain ⟨-, within, placed⟩ := inFirst.within (each q first)
    obtain ⟨-, within', placed'⟩ := inSecond.within (each r second)
    exact within.stop.trans (((before.resolve_left placed).resolve_left placed').trans within'.start)
  have all : ∀ q ∈ ps, ∀ r ∈ ps, q = r ∨ q.Before r ∨ r.Before q :=
    List.Pairwise.forall_of_forall_of_flip (fun _ _ => .inl rfl)
      (row.imp fun h => .inr (.inl h)) (row.imp fun h => .inr (.inr h))
  obtain same | order | order := all q first r second
  · exact .inl same
  · exact .inr (.inl (before first second inFirst inSecond order))
  · exact .inr (.inr (before second first inSecond inFirst order))

/-- Two names in a part are the same, or stand behind each other. -/
theorem Names.eq_or_apart (all : p.All (AsRead t)) (first : Names i f owner p)
    (second : Names j g owner p) : (i = j ∧ f = g) ∨ Apart i j := by
  induction all generalizing owner with
  | @intro p here each ih =>
    have inRow {owner : Option Func} {q r : Part} (hq : q ∈ p.line) (hr : r ∈ p.line)
        (inFirst : Names i f owner q) (inSecond : Names j g owner r) :
        (i = j ∧ f = g) ∨ Apart i j := by
      obtain rfl | apart := apart_of_row (fun q member => each q (here.mem_parts member)) here.row
        hq hr inFirst inSecond
      · exact ih q (here.mem_parts hq) inFirst inSecond
      · exact .inr apart
    cases first with
    | self =>
      cases second with
      | self => exact .inl ⟨rfl, rfl⟩
      | inside _ member => cases member
    | enter member inFirst =>
      cases second with
      | enter member' inSecond => exact inRow member member' inFirst inSecond
      | inside noFunction => exact absurd rfl (noFunction _)
    | inside noFunction member inFirst =>
      cases second with
      | self => cases member
      | enter => exact absurd rfl (noFunction _)
      | inside _ member' inSecond => exact inRow member member' inFirst inSecond

/-- The names of a part inside are names of the whole, but for the name of a declared function. -/
theorem AsRead.names (here : p.AsRead t) (noFunction : ∀ func, p ≠ .expr (.function func))
    (member : q ∈ p.parts) (names : Names i f owner q) :
    Names i f owner p ∨ ∃ name func, q = .ident name ∧
      (p = .member (.method name func) ∨ p = .decl (.function name func)) := by
  obtain same | ⟨s, value, rfl, compound, line⟩ | ⟨name, func, declared, parts, line⟩ |
    ⟨func, isFunction, -⟩ := p.line_cases
  · exact .inl (.inside noFunction (same ▸ member) names)
  · obtain ⟨old, op, right, range, rfl, simple, parts⟩ := here.lexed value compound
    rw [Part.parts, parts, mem_append, mem_singleton] at member
    have inValue : Names i f owner (.expr (.binary old op right range)) := by
      obtain inOld | rfl := member
      · have inLine : q ∈ (Part.expr old).line := by
          cases old with
          | function func => exact absurd rfl (simple func)
          | _ => exact inOld
        exact .inside (by simp) mem_cons_self (.inside (by simpa using simple) inLine names)
      · exact names
    exact .inl (.inside noFunction (line ▸ mem_cons_self) inValue)
  · rw [parts, mem_cons, mem_singleton] at member
    obtain rfl | rfl := member
    · exact .inr ⟨name, func, rfl, declared⟩
    · exact .inl (.inside noFunction (line ▸ mem_cons_self) names)
  · exact absurd isFunction (noFunction func)

/-- The names of a function stand wherever it stands. -/
theorem All.names_of_function (all : p.All (AsRead t)) {func : Func} (member : func ∈ p.functions)
    (names : ∀ owner, Names i f owner (.expr (.function func))) : Names i f owner p := by
  induction all generalizing owner with
  | @intro p here each ih =>
    obtain rfl | ⟨q, inner, inPart⟩ := p.mem_functions member
    · exact names owner
    by_cases isFunction : ∃ outer, p = .expr (.function outer)
    · obtain ⟨outer, rfl⟩ := isFunction
      obtain rfl | inLine := mem_cons.1 inner
      · cases inPart
      · exact .enter inLine (ih q inner inPart)
    · obtain inWhole | ⟨name, outer, rfl, -⟩ := here.names
        (fun func same => isFunction ⟨func, same⟩) inner (ih q inner inPart)
      · exact inWhole
      · cases inPart

/-! ## What is used -/

/-- The statements, blocks and handlers in a part, outside the functions in it. -/
def sites : Part → List Site
  | stmt s => s.sites
  | block b => b.sites
  | handler h => h.sites
  | _ => []

/-- The names that a part uses, outside the functions in it. -/
def uses : Part → List Ident
  | ident i => [i]
  | expr e => e.reads
  | stmt s => (eventsOf s.sites).map Event.name
  | block b => (eventsOf b.sites).map Event.name
  | handler h => (eventsOf h.sites).map Event.name
  | _ => []

end Part

theorem Expr.mem_uses {e : Expr} (member : i ∈ e.reads) :
    (∀ func, e ≠ .function func) ∧ ∃ q ∈ e.parts, i ∈ q.uses := by
  obtain ⟨⟨x, parent⟩, inside, reads⟩ := mem_filterMap.1 member
  cases x with
  | var name called =>
    cases reads
    refine ⟨?_, ?_⟩
    · rintro func rfl
      cases mem_singleton.1 inside
    · obtain rfl | inPart := Expr.mem_preorder inside
      · exact ⟨.ident i, mem_cons_self, mem_cons_self⟩
      · obtain ⟨q, inner, isNode⟩ := mem_flatMap.1 inPart
        cases q with
        | expr e' =>
          have isRead : i ∈ (e'.preorder (some e)).filterMap nodeReads :=
            mem_filterMap.2 ⟨_, isNode, rfl⟩
          rw [Expr.filterMap_preorder] at isRead
          exact ⟨_, inner, isRead⟩
        | _ => cases isNode
  | _ => cases reads

theorem Else.uses_eq_parts (e : Else) :
    (eventsOf e.sites).map Event.name = e.parts.flatMap Part.uses := by
  cases e <;> simp [Else.sites, Else.parts, Part.uses, Stmt.sites, eventsOf]

theorem Stmt.mem_uses {s : Stmt} (member : i ∈ (eventsOf s.sites).map Event.name) :
    ∃ q ∈ s.parts, i ∈ q.uses := by
  rw [← mem_flatMap]
  cases s with
  | ifThen branch =>
    obtain ⟨condition, onTrue, onFalse, range, inline⟩ := branch
    simpa [Stmt.sites, If.sites, Site.events, Stmt.exprs, map_name_readEvents, readsOf, Stmt.parts,
      Part.uses, ← Else.uses_eq_parts] using member
  | forTo counter limit stride body range =>
    simpa [Stmt.sites, eventsOf, Site.events, map_name_readEvents, readsOf, Stmt.parts, Part.uses,
      Event.name, flatMap_map, or_assoc, or_left_comm] using member
  | setField object name value range =>
    have member : i ∈ object.reads ∨ i ∈ value.reads := by
      simpa [Stmt.sites, eventsOf, Site.events, Stmt.exprs, map_name_readEvents, readsOf] using member
    simpa [Stmt.parts, Part.uses] using member.imp_right .inr
  | assign | dim | forEach =>
    simpa [Stmt.sites, eventsOf, Site.events, map_name_readEvents, readsOf, Stmt.parts, Part.uses,
      Event.name, flatMap_map, or_comm, or_left_comm] using member
  | exit | label | goto | «end» | stop =>
    simp [Stmt.sites, eventsOf, Site.events, Stmt.exprs, readEvents, readsOf] at member
  | _ =>
    simpa [Stmt.sites, eventsOf, Site.events, Stmt.exprs, map_name_readEvents, readsOf, Stmt.parts,
      Part.uses, flatMap_map] using member

namespace Part

variable {t : String} {p q : Part} {f : Func}

theorem mem_uses (p : Part) (member : i ∈ p.uses) :
    p = .ident i ∨ (∀ func, p ≠ .expr (.function func)) ∧ ∃ q ∈ p.parts, i ∈ q.uses := by
  cases p with
  | ident => exact .inl (congrArg Part.ident (mem_singleton.1 member).symm)
  | expr e => exact .inr ((Expr.mem_uses member).imp_left (by simpa using ·))
  | stmt s => exact .inr ⟨by simp, Stmt.mem_uses member⟩
  | block b =>
    obtain ⟨statements, range⟩ := b
    have inSome : i ∈ (eventsOf (Stmt.sitesAll statements)).map Event.name := member
    rw [Stmt.sitesAll_eq, eventsOf, flatMap_assoc, map_flatMap] at inSome
    obtain ⟨s, isStmt, inStmt⟩ := mem_flatMap.1 inSome
    exact .inr ⟨by simp, .stmt s, mem_map_of_mem isStmt, inStmt⟩
  | handler h =>
    obtain ⟨caught, body, range⟩ := h
    refine .inr ⟨by simp, mem_flatMap.1 ?_⟩
    cases caught <;> simpa [uses, parts, Catch.sites, Site.events, Event.name] using member
  | _ => cases member

/-- What a part uses are names that belong to the function around it. -/
theorem All.names_of_uses (all : p.All (AsRead t)) (member : i ∈ p.uses) (owner : Option Func) :
    Names i owner owner p := by
  induction all with
  | @intro p here each ih =>
    obtain rfl | ⟨noFunction, q, inner, inPart⟩ := p.mem_uses member
    · exact .self
    · obtain inWhole | ⟨name, func, -, rfl | rfl⟩ := here.names noFunction inner (ih q inner inPart)
      · exact inWhole
      · cases member
      · cases member

/-- The names of a function belong to it. -/
theorem All.names_of_mem (all : (Part.expr (.function f)).All (AsRead t)) (member : i ∈ f.names)
    (owner : Option Func) : Names i (some f) owner (.expr (.function f)) := by
  obtain isParam | isUsed := mem_append.1 member
  · obtain ⟨p, inParams, rfl⟩ := mem_map.1 isParam
    exact .enter (mem_append_left _ (mem_append_right _ (mem_flatMap.2
      ⟨p, inParams, mem_cons_self⟩))) .self
  · have inLine : .block f.body ∈ (Part.expr (.function f)).line :=
      mem_append_right _ mem_cons_self
    exact .enter inLine ((all.parts _ (all.here.mem_parts inLine)).names_of_uses isUsed _)

theorem All.uses_le (all : p.All (AsRead t)) (all' : q.All (AsRead t)) (before : p.Before q)
    (first : i ∈ p.uses) (second : j ∈ q.uses) : i.range.stop ≤ j.range.start := by
  obtain ⟨-, within, placed⟩ := (all.names_of_uses first none).within all
  obtain ⟨-, within', placed'⟩ := (all'.names_of_uses second none).within all'
  exact within.stop.trans (((before.resolve_left placed).resolve_left placed').trans within'.start)

/-- The parameters of a function stand in front of its body. -/
theorem All.param_le (all : (Part.expr (.function f)).All (AsRead t)) (isParam : i ∈ f.paramNames)
    (isUsed : j ∈ f.uses) : i.range.stop ≤ j.range.start := by
  obtain ⟨p, inParams, rfl⟩ := mem_map.1 isParam
  have isName : .ident p.name ∈ f.name.toList.map Part.ident ++ f.params.flatMap Param.parts :=
    mem_append_right _ (mem_flatMap.2 ⟨p, inParams, mem_cons_self⟩)
  have each {q : Part} (inLine : q ∈ (Part.expr (.function f)).line) : q.All (AsRead t) :=
    all.parts q (all.here.mem_parts inLine)
  exact (each (mem_append_left _ isName)).uses_le
    (each (mem_append_right _ mem_cons_self))
    ((pairwise_append.1 all.here.row).2.2 _ isName _ mem_cons_self) mem_cons_self
    isUsed

end Part

/-! ## The names of a script -/

/-- Offsets are in the order of the positions. -/
theorem StandsIn.offset_le (hi : StandsIn source i)
    (hj : StandsIn source j) (le : i.range.stop ≤ j.range.start) :
    offsetIn source i.range.stop ≤ offsetIn source j.range.start := by
  obtain ⟨before, behind, split, range⟩ := hi.place
  obtain ⟨before', behind', split', range'⟩ := hj.place
  rw [append_assoc] at split'
  rw [range, range'] at le ⊢
  dsimp only at le ⊢
  rw [offsetIn_after split, offsetIn_after split']
  by_contra shorter
  -- Otherwise the text in front of `j` goes on to the end of `i`.
  obtain ⟨more, longer⟩ := prefix_of_prefix_length_le (split' ▸ prefix_append _ _)
    (split ▸ prefix_append _ _) (Nat.le_of_not_le shorter)
  have nonempty : more ≠ [] := by
    rintro rfl
    rw [append_nil] at longer
    exact shorter (longer ▸ le_refl _)
  rw [← longer, Position.after_append] at le
  exact (Position.lt_after _ nonempty).not_ge le

theorem StandsIn.not_apart (stands : StandsIn source i)
    (same : i.range = j.range) : ¬Part.Apart i j := by
  rw [Part.Apart, ← same, or_self]
  exact fun le => stands.start_lt.not_ge (stands.offset_le stands le)

/-- The names of the functions in a text stand in it. Two of them are the same name of the same
function, or one stands behind the other. -/
theorem names_of_parsed {t : String} {ds : List Decl} (parsed : parseDeclarations t.toList = .ok ds)
    {f g : Func} (isFunction : f ∈ Decl.allFunctions ds) (isFunction' : g ∈ Decl.allFunctions ds)
    (isName : i ∈ f.names) (isName' : j ∈ g.names) :
    StandsIn t i ∧ ((i = j ∧ f = g) ∨ Part.Apart i j) := by
  obtain ⟨each, row⟩ := row_of_parsed parsed
  have each : ∀ p ∈ ds.map Part.decl, p.All (Part.AsRead t) := forall_mem_map.2 each
  have found {f : Func} {i : Ident} (isFunction : f ∈ Decl.allFunctions ds) (isName : i ∈ f.names) :
      ∃ p ∈ ds.map Part.decl, Part.Names i (some f) none p := by
    obtain ⟨d, isDecl, inPart⟩ := Decl.exists_of_allFunctions isFunction
    have member := mem_map_of_mem (f := Part.decl) isDecl
    exact ⟨_, member, (each _ member).names_of_function inPart
      (((each _ member).of_mem_functions inPart).names_of_mem isName)⟩
  obtain ⟨p, isPart, names⟩ := found isFunction isName
  obtain ⟨q, isPart', names'⟩ := found isFunction' isName'
  refine ⟨(names.within (each p isPart)).1, ?_⟩
  obtain rfl | apart := Part.apart_of_row each row isPart isPart' names names'
  · simpa using names.eq_or_apart (each p isPart) names'
  · exact .inr apart

/-- The names of a script stand in its text, counted from behind the mark. -/
theorem Script.exists_named_unmarked {path pkgPath : String} {s : Script}
    (read : Script.read source path pkgPath = .ok s) :
    ∃ names, s.Named (unmarkedText source) names := by
  obtain ⟨ds, parsed, rfl⟩ := Script.exists_parsed read
  generalize unmarkedText source = text at parsed ⊢
  -- A function of the script is a function of the declarations before they were placed.
  have origin : ∀ f ∈ Decl.allFunctions (Decl.placeAll none ds), ∃ g ∈ Decl.allFunctions ds,
      g.unplaced = f.unplaced ∧ g.names = f.names ∧ g.paramNames = f.paramNames ∧
        g.uses = f.uses := by
    intro f member
    obtain ⟨g, isFunction, same⟩ := Decl.exists_unplaced member
    obtain ⟨params, body, -⟩ := Func.parts_of_unplaced same
    refine ⟨g, isFunction, same, ?_⟩
    simp only [Func.names, Func.paramNames, Func.uses, params, body, and_self]
  let start (i : Ident) : Nat := offsetIn text i.range.start
  let all := (Decl.allFunctions ds).flatMap Func.names
  let names := all.dedup.mergeSort fun i j => decide (start i ≤ start j)
  have isName {i : Ident} : i ∈ names ↔ ∃ f ∈ Decl.allFunctions ds, i ∈ f.names :=
    mem_mergeSort.trans (mem_dedup.trans mem_flatMap)
  have stand : ∀ i ∈ names, StandsIn text i := by
    intro i member
    obtain ⟨f, isFunction, inFunction⟩ := isName.1 member
    exact (names_of_parsed parsed isFunction isFunction inFunction inFunction).1
  refine ⟨names, stand, ?_, fun f hf i hi => ?_, ?_, fun f hf i hi j hj same => ?_⟩
  · have sorted : names.Pairwise fun i j => start i ≤ start j :=
      (pairwise_mergeSort (fun i j k => by simpa using Nat.le_trans)
        (fun i j => by simpa using Nat.le_total _ _) all.dedup).imp of_decide_eq_true
    have distinct : names.Nodup := (mergeSort_perm ..).nodup_iff.2 all.nodup_dedup
    refine (sorted.and distinct).imp_of_mem fun {i j} hi hj ⟨le, ne⟩ => ?_
    obtain ⟨f, isFunction, inFunction⟩ := isName.1 hi
    obtain ⟨g, isFunction', inFunction'⟩ := isName.1 hj
    obtain ⟨-, same | before | behind⟩ :=
      names_of_parsed parsed isFunction isFunction' inFunction inFunction'
    · exact absurd same.1 ne
    · exact (stand i hi).offset_le (stand j hj) before
    · have le' := (stand j hj).offset_le (stand i hi) behind
      exact absurd ((stand j hj).start_lt.trans_le le') le.not_gt
  · obtain ⟨g, hg, -, same, -⟩ := origin f hf
    exact isName.2 ⟨g, hg, same ▸ hi⟩
  · intro f hf f' hf' i hi j hj same
    obtain ⟨g, hg, placed, names, -⟩ := origin f hf
    obtain ⟨g', hg', placed', names', -⟩ := origin f' hf'
    rw [← placed, ← placed']
    obtain ⟨stands, ⟨-, rfl⟩ | apart⟩ := names_of_parsed parsed hg hg' (names ▸ hi) (names' ▸ hj)
    · rfl
    · exact absurd apart (stands.not_apart same)
  · obtain ⟨g, hg, -, -, params, uses⟩ := origin f hf
    rw [← params] at hi
    rw [← uses] at hj
    have inFunction := mem_append_left g.uses hi
    have stands := (names_of_parsed parsed hg hg inFunction inFunction).1
    obtain ⟨d, isDecl, inPart⟩ := Decl.exists_of_allFunctions hg
    have all := (asRead_of_parsed parsed d isDecl).of_mem_functions inPart
    exact stands.not_apart same (.inl (all.param_le hi hj))

theorem Script.exists_named {path pkgPath : String} {s : Script}
    (read : Script.read source path pkgPath = .ok s)
    (unmarked : source.toList.head? ≠ some '\ufeff') : ∃ names, s.Named source names :=
  unmarkedText_eq unmarked ▸ Script.exists_named_unmarked read

end ChannelLint
