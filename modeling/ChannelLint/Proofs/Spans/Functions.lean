import ChannelLint.Proofs.Spans.Names

/-!
# The functions of a script, each once

The functions of a part are those of the parts inside it. As parts in a row do not overlap, no
function is found twice, and the functions come in the order of the text. There are three exceptions
to it. The value of a constant is not searched. A compound assignment to a field or an item holds
its target twice, so a function in the target is found twice. And the start value of a loop counter
is searched behind the limit and the step. The value of an enumeration member is no part of the tree,
so its functions are not found either.
-/
namespace ChannelLint

open List

/-- A compound assignment to a field or an item with a function in its target. -/
def Site.repeatsFunctions : Site → Bool
  | .stmt (.setField object _ value range) => value.range = range && !object.functions.isEmpty
  | .stmt (.setItem object key value range) =>
    value.range = range && !(object.functions ++ key.functions).isEmpty
  | _ => false

/-- A loop with functions both in the start value of its counter and in its limit or step. -/
def Site.delaysFunctions : Site → Bool
  | .stmt (.forTo counter limit stride _ _) =>
    !counter.functions.isEmpty && !(limit.functions ++ Expr.functionsOf? stride).isEmpty
  | _ => false

namespace Part

variable {t : String} {p : Part} {f : Func}

/-! ## Where functions stand -/

theorem All.function_within (all : p.All (AsRead t)) (member : f ∈ p.functions) :
    f.range.Inside p.range ∧ ¬ p.IsBare := by
  induction all with
  | @intro p here _ ih =>
    obtain rfl | ⟨q, inner, inPart⟩ := p.mem_functions member
    · exact ⟨⟨le_refl _, le_refl _⟩, id⟩
    · exact here.inside_of_mem inner (ih q inner inPart).1 (ih q inner inPart).2

/-- The keyword of a function stands within it. -/
theorem All.keyword_within (all : (Part.expr (.function f)).All (AsRead t)) :
    f.range.start ≤ f.signature.start ∧ f.signature.start < f.range.stop := by
  have inside := (all.here.inside (.signature f.signature) mem_cons_self).resolve_left id
  have proper := (all.parts (.signature f.signature) mem_cons_self).here.proper.resolve_left id
  exact ⟨inside.start, proper.trans_le inside.stop⟩

end Part

/-! ## The statements around functions -/

theorem Else.sites_eq_parts (e : Else) : e.sites = e.parts.flatMap Part.sites := by
  cases e <;> simp [Else.sites, Else.parts, Part.sites, Stmt.sites]

theorem Stmt.mem_sites_self (s : Stmt) : .stmt s ∈ s.sites := by
  cases s with
  | ifThen branch =>
    cases branch
    exact mem_cons_self
  | _ => exact mem_cons_self

namespace Part

variable {t : String} {p q : Part} {f : Func}

/-- The statements of a part inside are statements of the whole. The assignment of a counter
belongs to its loop. -/
theorem mem_sites (noFunction : ∀ f, p ≠ .expr (.function f)) (member : q ∈ p.parts) {site : Site}
    (inPart : site ∈ q.sites) : site ∈ p.sites ∨ ∃ a, site = .stmt (.assign a) := by
  have inParts : site ∈ p.parts.flatMap sites := mem_flatMap.2 ⟨q, member, inPart⟩
  cases p with
  | stmt s =>
    cases s with
    | ifThen branch =>
      obtain ⟨condition, onTrue, onFalse, range, inline⟩ := branch
      rw [parts, Stmt.parts, flatMap_cons, flatMap_cons, ← Else.sites_eq_parts] at inParts
      exact .inl (mem_cons_of_mem _ inParts)
    | forTo counter limit stride body range =>
      simp [parts, Stmt.parts, sites, Stmt.sites, flatMap_map] at inParts ⊢
      exact inParts.symm.imp .inr fun same => ⟨counter, same⟩
    | _ =>
      simp [parts, Stmt.parts, sites, Stmt.sites, flatMap_map] at inParts ⊢ <;> simp [inParts]
  | block b =>
    obtain ⟨statements, range⟩ := b
    rw [parts, flatMap_map] at inParts
    exact .inl (mem_cons_of_mem _ (Stmt.sitesAll_eq statements ▸ inParts))
  | handler h =>
    obtain ⟨caught, body, range⟩ := h
    have inBody : site ∈ body.sites := by simpa [parts, sites, flatMap_map] using inParts
    exact .inl (mem_cons_of_mem _ inBody)
  | expr e =>
    cases e with
    | function func => exact absurd rfl (noFunction func)
    | _ => simp [parts, Expr.parts, sites, flatMap_map] at inParts
  | member m => cases m <;> simp [parts, ClassMember.parts, sites, flatMap_map] at inParts
  | decl d => cases d <;> simp [parts, Decl.parts, sites, flatMap_map] at inParts
  | ident | signature => cases member

/-! ## The functions of parts in a row -/

theorem mem_functions_of_parts
    (noConst : ∀ name value range outer, p ≠ .decl (.const name value range outer))
    (member : q ∈ p.parts) (inPart : f ∈ q.functions) : f ∈ p.functions := by
  have inParts : f ∈ p.parts.flatMap functions := mem_flatMap.2 ⟨q, member, inPart⟩
  by_cases isFunction : ∃ func, p = .expr (.function func)
  · obtain ⟨func, rfl⟩ := isFunction
    rw [functions, Expr.functions, Func.functions_eq_parts]
    exact mem_cons_of_mem _ inParts
  by_cases isStmt : ∃ s, p = .stmt s
  · obtain ⟨s, rfl⟩ := isStmt
    exact (Stmt.functions_perm_parts s).mem_iff.2 inParts
  · rwa [functions_eq_parts (p := p) (by simpa using isFunction) noConst (by simpa using isStmt)]

/-- The functions of all parts are those of the parts in a row, unless some are held twice. -/
theorem AsRead.functions_line (here : p.AsRead t) (noFunction : ∀ f, p ≠ .expr (.function f))
    (single : ∀ s, p = .stmt s → (Site.stmt s).repeatsFunctions = false) :
    p.parts.flatMap functions = p.line.flatMap functions := by
  obtain same | ⟨s, value, rfl, compound, line⟩ | ⟨name, func, -, parts, line⟩ | ⟨func, isFunction, -⟩ :=
    p.line_cases
  · rw [same]
  · have single := single s rfl
    rw [line]
    cases s with
    | assign a => simp_all [Stmt.compound?, parts, Stmt.parts, functions]
    | setField | setItem =>
      obtain ⟨doubled, rfl⟩ := by simpa [Stmt.compound?] using compound
      simp_all [parts, Stmt.parts, functions, Site.repeatsFunctions]
    | _ => cases compound
  · rw [parts, line]
    rfl
  · exact absurd isFunction (noFunction func)

end Part

/-- A function begins behind the keyword of another one. -/
def Func.Ahead (f g : Func) : Prop :=
  f.signature.start < g.range.start

namespace Part

variable {t : String} {p : Part} {R : Func → Func → Prop} {ok : Site → Prop}

theorem pairwise_of_row (ahead : ∀ f g : Func, f.Ahead g → R f g) {ps : List Part}
    (each : ∀ q ∈ ps, q.All (AsRead t)) (row : ps.Pairwise Before)
    (own : ∀ q ∈ ps, q.functions.Pairwise R) : (ps.flatMap functions).Pairwise R := by
  refine pairwise_flatMap.2 ⟨own, row.imp_of_mem fun {q r} hq hr before f hf g hg => ?_⟩
  obtain ⟨within, placed⟩ := (each q hq).function_within hf
  obtain ⟨within', placed'⟩ := (each r hr).function_within hg
  have behind := (before.resolve_left placed).resolve_left placed'
  exact ahead f g (((each q hq).of_mem_functions hf).keyword_within.2.trans_le
    (within.stop.trans (behind.trans within'.start)))

/-- The functions of a part stand in the relation `R`, if functions ahead of each other do, and if
it does not matter how the statements of a part list their functions. -/
theorem All.pairwise_functions (ahead : ∀ f g : Func, f.Ahead g → R f g)
    (plain : ∀ a, ok (.stmt (.assign a)))
    (single : ∀ s, ok (.stmt s) → (Site.stmt s).repeatsFunctions = false)
    (listed : ∀ s, ok (.stmt s) → (s.parts.flatMap functions).Pairwise R → s.functions.Pairwise R)
    (all : p.All (AsRead t)) (here : ∀ site ∈ p.sites, ok site)
    (inside : ∀ f ∈ p.functions, ∀ site ∈ f.body.sites, ok site) : p.functions.Pairwise R := by
  induction all with
  | @intro p asRead each ih =>
    by_cases isConst : ∃ name value range outer, p = .decl (.const name value range outer)
    · obtain ⟨name, value, range, outer, rfl⟩ := isConst
      exact .nil
    have noConst : ∀ name value range outer, p ≠ .decl (.const name value range outer) := by
      simpa using isConst
    have inRow (here : ∀ q ∈ p.line, ∀ site ∈ q.sites, ok site) :
        (p.line.flatMap functions).Pairwise R := by
      refine pairwise_of_row ahead (fun q member => each q (asRead.mem_parts member)) asRead.row
        fun q member => ih q (asRead.mem_parts member) (here q member) fun f inPart => ?_
      exact inside f (mem_functions_of_parts noConst (asRead.mem_parts member) inPart)
    by_cases isFunction : ∃ func, p = .expr (.function func)
    · obtain ⟨func, rfl⟩ := isFunction
      have listing : func.functions = func :: (Part.expr (.function func)).line.flatMap functions :=
        Func.functions_eq_parts func
      rw [functions, Expr.functions, listing]
      refine pairwise_cons.2 ⟨fun g inLine => ahead _ _ ?_, inRow fun q member site inPart => ?_⟩
      · obtain ⟨q, member, inPart⟩ := mem_flatMap.1 inLine
        obtain ⟨within, placed⟩ := (each q (asRead.mem_parts member)).function_within inPart
        exact ((asRead.lexed.2 q member).resolve_left placed).trans_le within.start
      · refine inside func (by simp [functions, Expr.functions, listing]) site ?_
        simp only [line, Param.parts, mem_append, mem_map, mem_flatMap, mem_cons,
          not_mem_nil, or_false] at member
        obtain (⟨_, -, rfl⟩ | ⟨_, -, rfl | ⟨_, -, rfl⟩⟩) | rfl := member
        · cases inPart
        · cases inPart
        · cases inPart
        · exact inPart
    have noFunction : ∀ f, p ≠ .expr (.function f) := by simpa using isFunction
    have inParts : (p.parts.flatMap functions).Pairwise R := by
      rw [asRead.functions_line noFunction]
      · refine inRow fun q member site inPart => ?_
        obtain isHere | ⟨a, rfl⟩ := mem_sites noFunction (asRead.mem_parts member) inPart
        · exact here site isHere
        · exact plain a
      · rintro s rfl
        exact single s (here _ s.mem_sites_self)
    by_cases isStmt : ∃ s, p = .stmt s
    · obtain ⟨s, rfl⟩ := isStmt
      exact listed s (here _ s.mem_sites_self) inParts
    · rwa [functions_eq_parts (p := p) noFunction noConst (by simpa using isStmt)]

end Part

theorem Decl.allFunctions_eq_parts (ds : List Decl) :
    Decl.allFunctions ds = (ds.map Part.decl).flatMap Part.functions := by
  rw [Decl.allFunctions, Decl.flattenAll_eq, flatMap_assoc, flatMap_map]
  rfl

/-! ## The functions of a script -/

namespace Script

variable {source path pkgPath : String} {s : Script} {p : Part} {f : Func}

theorem HasPart.function {P : Part → Prop} (has : s.HasPart p) (all : p.All P)
    (member : f ∈ p.functions) : s.HasPart (.expr (.function f)) := by
  induction all with
  | @intro p _ _ ih =>
    obtain rfl | ⟨q, inner, inPart⟩ := p.mem_functions member
    · exact has
    · exact ih q inner (.inside has inner) inPart

/-- The functions of a part are found, unless it stands in a constant. -/
theorem HasPart.functions_subset (has : s.HasPart p) :
    p.functions ⊆ s.functions ∨ ∃ name value range outer,
      s.HasPart (.decl (.const name value range outer)) ∧ p.functions ⊆ value.functions := by
  induction has with
  | @decl d member =>
    refine .inl fun f inPart => ?_
    rw [functions, allDecls, ← Decl.allFunctions, Decl.allFunctions_eq_parts]
    exact mem_flatMap.2 ⟨_, mem_map_of_mem member, inPart⟩
  | @inside outer inner has member ih =>
    by_cases isConst : ∃ name value range nspace, outer = .decl (.const name value range nspace)
    · obtain ⟨name, value, range, nspace, rfl⟩ := isConst
      refine .inr ⟨name, value, range, nspace, has, fun f inPart => ?_⟩
      obtain rfl | rfl : inner = .ident name ∨ inner = .expr value := by
        simpa [Part.parts, Decl.parts] using member
      · cases inPart
      · exact inPart
    · have inherited : inner.functions ⊆ outer.functions :=
        fun f => Part.mem_functions_of_parts (by simpa using isConst) member
      refine ih.imp (List.Subset.trans inherited) ?_
      rintro ⟨name, value, range, nspace, isConst, inConst⟩
      exact ⟨name, value, range, nspace, isConst, List.Subset.trans inherited inConst⟩

/-- What holds between the functions of the declarations as they were read holds between the
functions of the script. -/
theorem pairwise_functions {R : Func → Func → Prop} (ok : Site → Prop)
    (read : Script.read source path pkgPath = .ok s)
    (unplaced : ∀ f g, R f.unplaced g.unplaced ↔ R f g)
    (ahead : ∀ f g : Func, f.Ahead g → R f g) (plain : ∀ a, ok (.stmt (.assign a)))
    (single : ∀ s, ok (.stmt s) → (Site.stmt s).repeatsFunctions = false)
    (listed : ∀ s, ok (.stmt s) → (s.parts.flatMap Part.functions).Pairwise R →
      s.functions.Pairwise R)
    (inside : ∀ f ∈ s.functions, ∀ site ∈ f.body.sites, ok site) : s.functions.Pairwise R := by
  obtain ⟨ds, parsed, rfl⟩ := Script.exists_parsed read
  have moved := Decl.unplaced_flattenAll_placeAll ds none
  have inside : ∀ f ∈ Decl.allFunctions ds, ∀ site ∈ f.body.sites, ok site := by
    intro f member
    have member := moved ▸ mem_map_of_mem (f := Func.unplaced) member
    obtain ⟨g, isFunction, same⟩ := mem_map.1 member
    rw [← (Func.parts_of_unplaced same).2.1]
    exact inside g isFunction
  obtain ⟨each, row⟩ := row_of_parsed parsed
  have asParsed : (Decl.allFunctions ds).Pairwise R := by
    rw [Decl.allFunctions_eq_parts] at inside ⊢
    refine Part.pairwise_of_row ahead (forall_mem_map.2 each) row fun p isDecl => ?_
    obtain ⟨d, member, rfl⟩ := mem_map.1 isDecl
    exact (each d member).pairwise_functions ahead plain single listed nofun
      fun f inPart => inside f (mem_flatMap.2 ⟨_, isDecl, inPart⟩)
  have asMoved : ((Decl.allFunctions ds).map Func.unplaced).Pairwise R :=
    pairwise_map.2 (asParsed.imp (unplaced _ _).2)
  rw [← moved] at asMoved
  exact (pairwise_map.1 asMoved).imp (unplaced _ _).1

/-- Of two functions of a script, one begins behind the keyword of the other. -/
theorem functions_apart (read : Script.read source path pkgPath = .ok s)
    (single : ∀ f ∈ s.functions, ∀ site ∈ f.body.sites, site.repeatsFunctions = false) :
    s.functions.Pairwise fun f g => f.Ahead g ∨ g.Ahead f :=
  pairwise_functions _ read (fun _ _ => Iff.rfl) (fun _ _ => .inl) (fun _ => rfl) (fun _ => id)
    (fun s _ inParts => inParts.perm s.functions_perm_parts.symm Or.symm) single

/-- Each function of a script begins behind the keyword of those before it. -/
theorem functions_ahead (read : Script.read source path pkgPath = .ok s)
    (single : ∀ f ∈ s.functions, ∀ site ∈ f.body.sites, site.repeatsFunctions = false)
    (prompt : ∀ f ∈ s.functions, ∀ site ∈ f.body.sites, site.delaysFunctions = false) :
    s.functions.Pairwise Func.Ahead := by
  refine pairwise_functions (fun site => site.repeatsFunctions = false ∧
    site.delaysFunctions = false) read (fun _ _ => Iff.rfl) (fun _ _ => id) (fun _ => ⟨rfl, rfl⟩)
    (fun _ => And.left) (fun s plain inParts => ?_)
    fun f isFunction site member =>
      ⟨single f isFunction site member, prompt f isFunction site member⟩
  rwa [Stmt.functions_eq_parts]
  rintro counter limit stride body range rfl
  simpa [Site.delaysFunctions, or_iff_not_imp_left] using plain.2

/-- The functions of a script are those of its tree, but for the functions in constants; the values
of enumeration members are not in the tree. Each is found once if no compound assignment repeats
functions, and they come in the order of the text if also no loop counter delays functions. -/
theorem functions_once (read : Script.read source path pkgPath = .ok s) :
    (∀ f ∈ s.functions, s.HasPart (.expr (.function f))) ∧
    (∀ f, s.HasPart (.expr (.function f)) → f ∈ s.functions ∨ ∃ name value range outer,
      s.HasPart (.decl (.const name value range outer)) ∧ f ∈ value.functions) ∧
    ((∀ f ∈ s.functions, ∀ site ∈ f.body.sites, site.repeatsFunctions = false) →
      s.functions.Pairwise (fun f g => f.range.start ≠ g.range.start) ∧
      ((∀ f ∈ s.functions, ∀ site ∈ f.body.sites, site.delaysFunctions = false) →
        s.functions.Pairwise fun f g => f.range.start < g.range.start)) := by
  have sound := sound_of_mem_decls read
  have found : ∀ f ∈ s.functions, s.HasPart (.expr (.function f)) := by
    intro f member
    obtain ⟨d, isDecl, inPart⟩ := Decl.exists_of_allFunctions member
    exact HasPart.function (.decl isDecl) (sound d isDecl) inPart
  have keyword : ∀ f ∈ s.functions, f.range.start ≤ f.signature.start := fun f member =>
    ((Part.Sound.of_hasPart sound (found f member)).fits.inside (.signature f.signature)
      mem_cons_self).resolve_left id |>.start
  have starts {f g : Func} (member : f ∈ s.functions) (ahead : f.Ahead g) :
      f.range.start < g.range.start := (keyword f member).trans_lt ahead
  refine ⟨found, fun f has => ?_, fun single => ⟨?_, fun prompt => ?_⟩⟩
  · have self : f ∈ (Part.expr (.function f)).functions := by
      rw [Part.functions, Expr.functions, Func.functions_eq_parts]
      exact mem_cons_self
    refine has.functions_subset.imp (· self) ?_
    rintro ⟨name, value, range, outer, isConst, inConst⟩
    exact ⟨name, value, range, outer, isConst, inConst self⟩
  · refine (functions_apart read single).imp_of_mem fun {f g} hf hg apart => ?_
    exact apart.elim (fun ahead => (starts hf ahead).ne) fun ahead => (starts hg ahead).ne'
  · exact (functions_ahead read single prompt).imp_of_mem fun hf _ => starts hf

/-- Functions in a field, a default value, a template and a compound assignment. -/
def scatteredFunctions : String :=
  "class C\n  f = sub() : end sub\n  sub m(k = sub() : end sub)\n" ++
    "    k += \x60$\x7b[sub() : end sub]\x7d\x60\n  end sub\nend class\n"

theorem functions_once_scatteredFunctions : ∃ s, Script.read scatteredFunctions "a.brs" "" = .ok s ∧
      (∀ f ∈ s.functions, ∀ site ∈ f.body.sites, site.repeatsFunctions = false) ∧
      (∀ f ∈ s.functions, ∀ site ∈ f.body.sites, site.delaysFunctions = false) ∧
      s.functions.map (·.range.start) = [⟨1, 6⟩, ⟨2, 2⟩, ⟨2, 12⟩, ⟨3, 13⟩] ∧
      s.functions.Pairwise fun f g => f.range.start < g.range.start := by
  have computed : (Script.read scatteredFunctions "a.brs" "").toOption.map (fun s =>
      (s.functions.map (·.range.start), s.functions.all fun f => f.body.sites.all fun site =>
        !site.repeatsFunctions && !site.delaysFunctions)) =
      some ([⟨1, 6⟩, ⟨2, 2⟩, ⟨2, 12⟩, ⟨3, 13⟩], true) := by
    decide +kernel
  obtain ⟨s, read, facts⟩ := exists_ok_of_map_toOption computed
  obtain ⟨starts, plain⟩ := Prod.mk.inj facts
  simp only [all_eq_true, Bool.and_eq_true, Bool.not_eq_true'] at plain
  have single := fun f hf site hsite => (plain f hf site hsite).1
  have prompt := fun f hf site hsite => (plain f hf site hsite).2
  exact ⟨s, read, single, prompt, starts, ((functions_once read).2.2 single).2 prompt⟩

/-- A function in the target of a compound assignment is found twice, and one in the start value of
a counter behind that in the limit. -/
example : (Script.read ("sub f()\n  m[sub() : end sub] += 1\n" ++
    "  for i = sub() : end sub to sub() : end sub\n  end for\nend sub\n") "a.brs" "").toOption.map
      (·.functions.map (·.range.start)) =
    some [⟨0, 0⟩, ⟨1, 4⟩, ⟨1, 4⟩, ⟨2, 29⟩, ⟨2, 10⟩] := by
  decide +kernel

/-- A function as the value of a constant. -/
def functionInConst : String :=
  "const k = function()\nend function\n"

def functionRange? : Part → Option Range
  | .expr (.function f) => some f.range
  | _ => none

/-- The script has the function as a part, but does not find it. -/
theorem no_functions_functionInConst :
    ∃ s f, Script.read functionInConst "a.brs" "" = .ok s ∧ s.HasPart (.expr (.function f)) ∧
      f.range = ⟨⟨0, 10⟩, ⟨1, 12⟩⟩ ∧ s.functions.length = 0 := by
  have computed : (Script.read functionInConst "a.brs" "").toOption.map (fun s =>
      ((s.partAt? 0 [1]).bind functionRange?, s.functions.length)) =
        some (some ⟨⟨0, 10⟩, ⟨1, 12⟩⟩, 0) := by
    decide +kernel
  obtain ⟨s, read, facts⟩ := exists_ok_of_map_toOption computed
  obtain ⟨reached, none⟩ := Prod.mk.inj facts
  obtain ⟨p, found, isFunction⟩ := Option.bind_eq_some_iff.1 reached
  unfold functionRange? at isFunction
  split at isFunction
  · next f => exact ⟨s, f, read, hasPart_of_partAt? found, Option.some.inj isFunction, none⟩
  · cases isFunction

end Script

end ChannelLint
