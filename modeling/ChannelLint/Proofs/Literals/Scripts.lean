import ChannelLint.Proofs.Spans.Scripts

/-!
# What a script holds is quoted

Walks over the tree of a script reach parts of it only: the functions that are found in a part, its
expressions and their nodes. So what holds of all parts of a text that was read holds of them, and
its string literals end with a quote.
-/
namespace ChannelLint

open List

variable {e : Expr} {f : Func} {node : Expr × Option Expr}

/-- If a part that is looked for in `p` is `p` or in a part inside it, then it is reached. -/
theorem Part.All.of_inside {P : Part → Prop} {p sought : Part} (all : p.All P)
    (IsIn : Part → Prop) (inside : ∀ p, IsIn p → p = sought ∨ ∃ q ∈ p.parts, IsIn q)
    (isIn : IsIn p) : sought.All P := by
  induction all with
  | @intro p here each ih =>
    obtain rfl | ⟨q, member, isIn⟩ := inside p isIn
    · exact .intro here each
    · exact ih q member isIn

/-! ## Functions -/

namespace Part

def functions : Part → List Func
  | expr e => e.functions
  | stmt s => s.functions
  | block b => b.functions
  | handler h => h.functions
  | member m => m.functions
  | decl d => d.flatten.flatMap (·.functions)
  | ident _ | signature _ => []

end Part

theorem Func.functions_eq_parts (f : Func) : f.functions = f :: f.parts.flatMap Part.functions := by
  have params :
      Param.functionsOf f.params = (f.params.flatMap Param.parts).flatMap Part.functions := by
    rw [Param.functionsOf_eq]
    induction f.params with
    | nil => rfl
    | cons p ps ih =>
      cases h : p.defaultValue <;> simp [Param.parts, Part.functions, h, ih]
  rw [Func.functions_eq, params]
  cases f.name <;> simp [Func.parts, Part.functions]

theorem Expr.functions_eq_parts (noFunction : ∀ f, e ≠ .function f) :
    e.functions = e.parts.flatMap Part.functions := by
  cases e with
  | function func => exact absurd rfl (noFunction func)
  | _ =>
    simp [Expr.functions, Expr.parts, Part.functions, Expr.functionsOf_eq, Member.functionsOf_eq,
      flatMap_map]

theorem Else.functions_eq_parts (e : Else) : e.functions = e.parts.flatMap Part.functions := by
  cases e <;> simp [Else.functions, Else.parts, Part.functions, Stmt.functions]

/-- The functions of a statement are in the order of its parts, unless it is a loop with functions
both in the start value of its counter and in its limit or step. -/
theorem Stmt.functions_eq_parts {s : Stmt} (prompt : ∀ counter limit stride body range,
      s = .forTo counter limit stride body range →
      counter.functions = [] ∨ limit.functions ++ Expr.functionsOf? stride = []) :
    s.functions = s.parts.flatMap Part.functions := by
  cases s with
  | assign a => cases a; simp [Stmt.functions, Assign.functions, Stmt.parts, Part.functions]
  | ifThen branch =>
    cases branch
    simp [Stmt.functions, If.functions, Stmt.parts, Part.functions, Else.functions_eq_parts]
  | forTo counter limit stride body range =>
    obtain noStart | noLimit := prompt _ _ _ _ _ rfl
    · simp [Stmt.functions, Stmt.parts, Part.functions, Expr.functionsOf?_eq, noStart, flatMap_map]
    · obtain ⟨noLimit, noStep⟩ := append_eq_nil_iff.1 noLimit
      rw [Expr.functionsOf?_eq] at noStep
      simp [Stmt.functions, Stmt.parts, Part.functions, Expr.functionsOf?_eq, noLimit, noStep,
        flatMap_map]
  | _ =>
    simp [Stmt.functions, Stmt.parts, Part.functions, Expr.functionsOf_eq, Expr.functionsOf?_eq,
      flatMap_map]

/-- The counter of a loop comes before its limit, but its functions come behind. -/
theorem Stmt.functions_perm_parts (s : Stmt) :
    s.functions.Perm (s.parts.flatMap Part.functions) := by
  cases s with
  | forTo counter limit stride body range =>
    simpa [Stmt.functions, Stmt.parts, Part.functions, Expr.functionsOf?_eq, flatMap_map] using
      perm_append_comm_assoc (limit.functions ++ Expr.functionsOf? stride) counter.functions
        body.functions
  | _ => exact .of_eq (Stmt.functions_eq_parts nofun)

theorem Part.functions_eq_parts {p : Part} (noFunction : ∀ f, p ≠ .expr (.function f))
    (noConst : ∀ name value range outer, p ≠ .decl (.const name value range outer))
    (noStmt : ∀ s, p ≠ .stmt s) : p.functions = p.parts.flatMap Part.functions := by
  cases p with
  | ident | signature => rfl
  | expr e => exact Expr.functions_eq_parts fun f same => noFunction f (congrArg Part.expr same)
  | stmt s => exact absurd rfl (noStmt s)
  | block b =>
    obtain ⟨statements, range⟩ := b
    rw [functions, Block.functions, Stmt.functionsOf_eq]
    simp [parts, functions, flatMap_map]
  | handler h =>
    obtain ⟨caught, body, range⟩ := h
    cases caught <;> simp [parts, functions, Catch.functions]
  | member m =>
    cases m with
    | method => simp [parts, ClassMember.parts, functions, ClassMember.functions, Expr.functions]
    | field =>
      simp [parts, ClassMember.parts, functions, ClassMember.functions, Expr.functionsOf?_eq,
        flatMap_map]
  | decl d =>
    cases d with
    | nspace name body range =>
      have inside : (Decl.flattenAll body).flatMap (·.functions) =
          body.flatMap fun d => d.flatten.flatMap (·.functions) := by
        rw [Decl.flattenAll_eq, flatMap_assoc]
      simpa [parts, Decl.parts, functions, Decl.flatten, Decl.functions, flatMap_map]
        using inside
    | const name value range outer => exact absurd rfl (noConst name value range outer)
    | enum => simp [parts, Decl.parts, functions, Decl.flatten, Decl.functions]
    | function => simp [parts, Decl.parts, functions, Decl.flatten, Decl.functions, Expr.functions]
    | «class» =>
      simp [parts, Decl.parts, functions, Decl.flatten, Decl.functions, flatMap_map]
    | importFile | library => rfl

theorem Part.mem_functions (p : Part) (member : f ∈ p.functions) :
    p = .expr (.function f) ∨ ∃ q ∈ p.parts, f ∈ q.functions := by
  rw [← mem_flatMap]
  by_cases isFunction : ∃ g, p = .expr (.function g)
  · obtain ⟨g, rfl⟩ := isFunction
    rw [functions, Expr.functions, Func.functions_eq_parts] at member
    exact (mem_cons.1 member).imp_left fun same => by rw [same]
  by_cases isConst : ∃ name value range outer, p = .decl (.const name value range outer)
  · obtain ⟨name, value, range, outer, rfl⟩ := isConst
    cases member
  by_cases isStmt : ∃ s, p = .stmt s
  · obtain ⟨s, rfl⟩ := isStmt
    exact .inr ((Stmt.functions_perm_parts s).mem_iff.1 member)
  · rw [functions_eq_parts (p := p) (by simpa using isFunction) (by simpa using isConst)
      (by simpa using isStmt)] at member
    exact .inr member

/-! ## Expressions -/

namespace Part

def exprs : Part → List Expr
  | expr e => [e]
  | stmt s => s.allExprs
  | block b => b.allExprs
  | handler h => h.allExprs
  | _ => []

end Part

theorem Else.allExprs_eq_parts (e : Else) : e.allExprs = e.parts.flatMap Part.exprs := by
  cases e <;> simp [Else.allExprs, Else.parts, Part.exprs, Stmt.allExprs]

theorem Stmt.mem_allExprs_iff {s : Stmt} : e ∈ s.allExprs ↔ e ∈ s.parts.flatMap Part.exprs := by
  cases s with
  | ifThen branch =>
    cases branch
    simp [Stmt.allExprs, If.allExprs, Stmt.parts, Part.exprs, Else.allExprs_eq_parts]
  | forTo counter limit stride body range =>
    simp only [Stmt.allExprs, Stmt.parts, Part.exprs, mem_append, mem_cons,
      flatMap_append, flatMap_cons, cons_append, flatMap_map, flatMap_nil,
      flatMap_singleton']
    tauto
  | _ => simp [Stmt.allExprs, Stmt.parts, Part.exprs, flatMap_map]

theorem Part.mem_exprs (p : Part) (member : e ∈ p.exprs) :
    p = .expr e ∨ ∃ q ∈ p.parts, e ∈ q.exprs := by
  rw [← mem_flatMap]
  cases p with
  | expr => exact .inl (congrArg Part.expr (mem_singleton.1 member).symm)
  | stmt s => exact .inr (Stmt.mem_allExprs_iff.1 member)
  | block b =>
    obtain ⟨statements, range⟩ := b
    rw [exprs, Block.allExprs, Stmt.allExprsOf_eq] at member
    simpa [parts, exprs, flatMap_map] using member
  | handler h =>
    obtain ⟨caught, body, range⟩ := h
    exact .inr (mem_flatMap.2 ⟨.block body, mem_append_right _ mem_cons_self, member⟩)
  | _ => cases member

def Part.nodes (parent : Option Expr) : Part → List (Expr × Option Expr)
  | expr e => e.preorder parent
  | _ => []

/-- A walk over an expression reaches the expression and the nodes of the parts inside it. -/
theorem Expr.mem_preorder {parent : Option Expr} (member : node ∈ e.preorder parent) :
    e = node.1 ∨ node ∈ e.parts.flatMap (Part.nodes (some e)) := by
  cases e with
  | var | literal | function => exact .inl (mem_singleton.1 member ▸ rfl)
  | _ =>
    simp only [preorder, preorderAll_eq, Member.preorderAll_eq, cons_append, mem_cons] at member
    refine member.imp (fun same => by rw [same]) fun inside => ?_
    simpa [parts, Part.nodes, flatMap_map, preorder, preorderAll_eq] using inside

/-! ## Quoted parts -/

namespace Part.All

variable {P : Part → Prop} {p : Part} {t : String}

theorem of_mem_functions (all : p.All P) (member : f ∈ p.functions) :
    (Part.expr (.function f)).All P :=
  all.of_inside (f ∈ ·.functions) Part.mem_functions member

theorem of_mem_exprs (all : p.All P) (member : e ∈ p.exprs) : (Part.expr e).All P :=
  all.of_inside (e ∈ ·.exprs) Part.mem_exprs member

theorem of_mem_preorder (all : (Part.expr e).All P)
    (member : node ∈ e.preorder none) : (Part.expr node.1).All P := by
  refine all.of_inside (fun p => ∃ parent, node ∈ p.nodes parent) ?_ ⟨none, member⟩
  rintro p ⟨parent, isNode⟩
  cases p with
  | expr e =>
    refine (Expr.mem_preorder isNode).imp (congrArg Part.expr) fun inside => ?_
    obtain ⟨q, inner, isNode⟩ := mem_flatMap.1 inside
    exact ⟨q, inner, _, isNode⟩
  | _ => cases isNode

theorem quotedHere (all : (Part.expr e).All (Part.AsRead t)) : e.QuotedHere := by
  rintro ⟨x, parent⟩ member
  have lexed := (all.of_mem_preorder member).here.lexed
  cases x with
  | literal kind text range =>
    cases kind with
    | string => exact lexed
    | _ => trivial
  | _ => trivial

/-- The functions of what was read are as a parser gives them. -/
theorem asRead (all : p.All (Part.AsRead t)) (member : f ∈ p.functions) : f.AsRead := by
  have function := all.of_mem_functions member
  refine ⟨fun e inFunction => ?_, function.here.lexed.1⟩
  have each : ∀ q ∈ f.parts, q.All (Part.AsRead t) := function.parts
  simp only [Func.parts, forall_mem_append, forall_mem_flatMap] at each
  obtain isDefault | inBody := mem_append.1 inFunction
  · obtain ⟨p, isParam, isDefault⟩ := mem_filterMap.1 isDefault
    exact (each.1.2 p isParam (.expr e) (.tail _ (mem_map_of_mem
      (Option.mem_toList.2 isDefault)))).quotedHere
  · exact ((each.2 _ mem_cons_self).of_mem_exprs inBody).quotedHere

end Part.All

theorem Decl.exists_of_allFunctions {ds : List Decl}
    (member : f ∈ Decl.allFunctions ds) : ∃ d ∈ ds, f ∈ (Part.decl d).functions := by
  obtain ⟨e, inFlat, inDecl⟩ := mem_flatMap.1 member
  obtain ⟨d, isDecl, inFlat⟩ := Decl.mem_flattenAll.1 inFlat
  exact ⟨d, isDecl, mem_flatMap.2 ⟨e, inFlat, inDecl⟩⟩

theorem Decl.asRead_of_parsed {t : String} {ds : List Decl}
    (parsed : parseDeclarations t.toList = .ok ds) : ∀ f ∈ Decl.allFunctions ds, f.AsRead := by
  intro f member
  obtain ⟨d, isDecl, inPart⟩ := Decl.exists_of_allFunctions member
  exact (ChannelLint.asRead_of_parsed parsed d isDecl).asRead inPart

/-- The functions of a script that was read are quoted. -/
theorem Script.quoted_of_read {source path pkgPath : String} {s : Script}
    (read : Script.read source path pkgPath = .ok s) : ∀ f ∈ s.functions, f.QuotedHere := by
  obtain ⟨ds, parsed, rfl⟩ := Script.exists_parsed read
  intro f member
  obtain ⟨g, isFunction, same⟩ := Decl.exists_unplaced member
  obtain ⟨params, body, -⟩ := Func.parts_of_unplaced same
  have quoted := (Decl.asRead_of_parsed parsed g isFunction).quoted
  unfold Func.QuotedHere Func.allExprs at quoted ⊢
  rwa [params, body] at quoted

end ChannelLint
