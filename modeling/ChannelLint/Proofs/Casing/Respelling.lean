import ChannelLint.Flow.Frame
import ChannelLint.Proofs.Casing.Letters

/-!
# Respelled scripts

A respelling writes the names of variables anew, each at its place, and every other text of a
script too. It keeps the lower case of what it rewrites, so it keeps what a name refers to. Losing
the case altogether is a respelling (`Respelling.uncase`). The definitions below carry a respelling
through the tree of a script; the lemmas say that walks over the tree follow it.
-/
namespace ChannelLint

open List

/-- New spellings for variables, which may depend on the place, and for all other texts. -/
@[ext] structure Respelling where
  name : Ident → Ident
  text : String → String
  range_name : ∀ i, (name i).range = i.range
  lower_name : ∀ i, Text.lower (name i).text = Text.lower i.text
  lower_text : ∀ t, Text.lower (text t) = Text.lower t
  /-- The names that every function has stand nowhere in the text. -/
  given_m : name ⟨"m", .empty⟩ = ⟨"m", .empty⟩
  given_super : name ⟨"super", .empty⟩ = ⟨"super", .empty⟩

namespace Respelling

/-- Every text loses its case. -/
def uncase : Respelling where
  name i := ⟨Text.uncased i.text, i.range⟩
  text := Text.uncased
  range_name _ := rfl
  lower_name i := Text.lower_uncased i.text
  lower_text := Text.lower_uncased
  given_m := rfl
  given_super := rfl

/-- A name that is no variable: a field, a label, a declared name. -/
def label (ρ : Respelling) (i : Ident) : Ident :=
  ⟨ρ.text i.text, i.range⟩

/-- The texts of booleans and of `invalid` do not depend on how they were written. -/
def literal (ρ : Respelling) (kind : LiteralKind) (text : String) : String :=
  match kind with
  | .string | .number => ρ.text text
  | .boolean | .invalid => text

end Respelling

/-! ## Trees -/

mutual

def Expr.respell (ρ : Respelling) : Expr → Expr
  | .var name called => .var (ρ.name name) called
  | .literal kind text range => .literal kind (ρ.literal kind text) range
  | .binary left op right range => .binary (left.respell ρ) op (right.respell ρ) range
  | .unary op operand range => .unary op (operand.respell ρ) range
  | .group inner range => .group (inner.respell ρ) range
  | .dot object name range => .dot (object.respell ρ) (ρ.label name) range
  | .index object key range => .index (object.respell ρ) (key.respell ρ) range
  | .call callee args range => .call (callee.respell ρ) (Expr.respellAll ρ args) range
  | .ternary test onTrue onFalse range =>
    .ternary (test.respell ρ) (onTrue.respell ρ) (onFalse.respell ρ) range
  | .template text parts range => .template (ρ.text text) (Expr.respellAll ρ parts) range
  | .new callee args callRange range =>
    .new (callee.respell ρ) (Expr.respellAll ρ args) callRange range
  | .array items range => .array (Expr.respellAll ρ items) range
  | .table members range => .table (Member.respellAll ρ members) range
  | .function func => .function (func.respell ρ)

def Expr.respellAll (ρ : Respelling) : List Expr → List Expr
  | [] => []
  | e :: rest => e.respell ρ :: Expr.respellAll ρ rest

def Expr.respell? (ρ : Respelling) : Option Expr → Option Expr
  | none => none
  | some e => some (e.respell ρ)

def Member.respellAll (ρ : Respelling) : List Member → List Member
  | [] => []
  | ⟨key, value⟩ :: rest => ⟨ρ.text key, value.respell ρ⟩ :: Member.respellAll ρ rest

def Param.respellAll (ρ : Respelling) : List Param → List Param
  | [] => []
  | ⟨name, type, value⟩ :: rest =>
    ⟨ρ.name name, type, Expr.respell? ρ value⟩ :: Param.respellAll ρ rest

def Func.respell (ρ : Respelling) : Func → Func
  | ⟨keyword, params, body, range, signature, returnType, name, isMethod, nspace⟩ =>
    ⟨keyword, Param.respellAll ρ params, body.respell ρ, range, signature, returnType,
      name.map ρ.label, isMethod, nspace⟩

def Block.respell (ρ : Respelling) : Block → Block
  | ⟨statements, range⟩ => ⟨Stmt.respellAll ρ statements, range⟩

def Stmt.respellAll (ρ : Respelling) : List Stmt → List Stmt
  | [] => []
  | s :: rest => s.respell ρ :: Stmt.respellAll ρ rest

def Stmt.respell (ρ : Respelling) : Stmt → Stmt
  | .assign a => .assign (a.respell ρ)
  | .setField object name value range =>
    .setField (object.respell ρ) (ρ.label name) (value.respell ρ) range
  | .setItem object key value range =>
    .setItem (object.respell ρ) (key.respell ρ) (value.respell ρ) range
  | .step target op range => .step (target.respell ρ) op range
  | .dim name sizes range => .dim (ρ.name name) (Expr.respellAll ρ sizes) range
  | .perform call range => .perform (call.respell ρ) range
  | .print values range => .print (Expr.respellAll ρ values) range
  | .ifThen branch => .ifThen (branch.respell ρ)
  | .forTo counter limit stride body range =>
    .forTo (counter.respell ρ) (limit.respell ρ) (Expr.respell? ρ stride) (body.respell ρ) range
  | .forEach item target body range =>
    .forEach (ρ.name item) (target.respell ρ) (body.respell ρ) range
  | .whileDo condition body range => .whileDo (condition.respell ρ) (body.respell ρ) range
  | .exit loop range => .exit loop range
  | .ret value range => .ret (Expr.respell? ρ value) range
  | .throw value range => .throw (value.respell ρ) range
  | .tryCatch body handler range => .tryCatch (body.respell ρ) (handler.respell ρ) range
  | .label name range => .label (ρ.label name) range
  | .goto label range => .goto (ρ.label label) range
  | .end range => .end range
  | .stop range => .stop range

def Assign.respell (ρ : Respelling) : Assign → Assign
  | ⟨name, value, range, op⟩ => ⟨ρ.name name, value.respell ρ, range, op⟩

def If.respell (ρ : Respelling) : If → If
  | ⟨condition, onTrue, onFalse, range, inline⟩ =>
    ⟨condition.respell ρ, onTrue.respell ρ, onFalse.respell ρ, range, inline⟩

def Else.respell (ρ : Respelling) : Else → Else
  | .absent => .absent
  | .block body => .block (body.respell ρ)
  | .elseIf branch => .elseIf (branch.respell ρ)

def Catch.respell (ρ : Respelling) : Catch → Catch
  | ⟨caught, body, range⟩ => ⟨caught.map ρ.name, body.respell ρ, range⟩

end

def Member.respell (ρ : Respelling) (m : Member) : Member :=
  ⟨ρ.text m.key, m.value.respell ρ⟩

def Param.respell (ρ : Respelling) (p : Param) : Param :=
  ⟨ρ.name p.name, p.typeName, p.defaultValue.map (·.respell ρ)⟩

variable (ρ : Respelling)

@[simp] theorem Expr.respellAll_eq (es : List Expr) :
    Expr.respellAll ρ es = es.map (·.respell ρ) := by
  induction es with
  | nil => rfl
  | cons e es ih => rw [Expr.respellAll, ih, map_cons]

@[simp] theorem Expr.respell?_eq (e : Option Expr) : Expr.respell? ρ e = e.map (·.respell ρ) := by
  cases e <;> rfl

@[simp] theorem Member.respellAll_eq (ms : List Member) :
    Member.respellAll ρ ms = ms.map (·.respell ρ) := by
  induction ms with
  | nil => rfl
  | cons m ms ih => cases m; rw [Member.respellAll, ih, map_cons, Member.respell]

@[simp] theorem Param.respellAll_eq (ps : List Param) :
    Param.respellAll ρ ps = ps.map (·.respell ρ) := by
  induction ps with
  | nil => rfl
  | cons p ps ih =>
    cases p; rw [Param.respellAll, ih, map_cons, Param.respell, Expr.respell?_eq]

@[simp] theorem Stmt.respellAll_eq (ss : List Stmt) :
    Stmt.respellAll ρ ss = ss.map (·.respell ρ) := by
  induction ss with
  | nil => rfl
  | cons s ss ih => rw [Stmt.respellAll, ih, map_cons]

/-! ## Respelling twice -/

/-- One respelling behind another. -/
def Respelling.after (σ ρ : Respelling) : Respelling where
  name := σ.name ∘ ρ.name
  text := σ.text ∘ ρ.text
  range_name i := (σ.range_name _).trans (ρ.range_name i)
  lower_name i := (σ.lower_name _).trans (ρ.lower_name i)
  lower_text t := (σ.lower_text _).trans (ρ.lower_text t)
  given_m := (congrArg σ.name ρ.given_m).trans σ.given_m
  given_super := (congrArg σ.name ρ.given_super).trans σ.given_super

variable (σ : Respelling)

theorem Respelling.literal_literal (kind : LiteralKind) (text : String) :
    σ.literal kind (ρ.literal kind text) = (σ.after ρ).literal kind text := by
  cases kind <;> rfl

mutual

theorem Expr.respell_respell (e : Expr) : (e.respell ρ).respell σ = e.respell (σ.after ρ) := by
  cases e with
  | var | dot | template =>
    simp only [Expr.respell, Expr.respell_respell, Expr.respellAll_respellAll]
    rfl
  | _ =>
    simp only [Expr.respell, Respelling.literal_literal, Expr.respell_respell,
      Expr.respellAll_respellAll, Member.respellAll_respellAll, Func.respell_respell]

theorem Expr.respellAll_respellAll (es : List Expr) :
    Expr.respellAll σ (Expr.respellAll ρ es) = Expr.respellAll (σ.after ρ) es := by
  cases es with
  | nil => rfl
  | cons e rest =>
    rw [Expr.respellAll, Expr.respellAll, Expr.respellAll, Expr.respell_respell e,
      Expr.respellAll_respellAll rest]

theorem Expr.respell?_respell? (e : Option Expr) :
    Expr.respell? σ (Expr.respell? ρ e) = Expr.respell? (σ.after ρ) e := by
  cases e with
  | none => rfl
  | some e => rw [Expr.respell?, Expr.respell?, Expr.respell?, Expr.respell_respell e]

theorem Member.respellAll_respellAll (ms : List Member) :
    Member.respellAll σ (Member.respellAll ρ ms) = Member.respellAll (σ.after ρ) ms := by
  cases ms with
  | nil => rfl
  | cons m rest =>
    obtain ⟨key, value⟩ := m
    rw [Member.respellAll, Member.respellAll, Member.respellAll, Expr.respell_respell value,
      Member.respellAll_respellAll rest]
    rfl

theorem Param.respellAll_respellAll (ps : List Param) :
    Param.respellAll σ (Param.respellAll ρ ps) = Param.respellAll (σ.after ρ) ps := by
  cases ps with
  | nil => rfl
  | cons p rest =>
    obtain ⟨name, type, value⟩ := p
    rw [Param.respellAll, Param.respellAll, Param.respellAll, Expr.respell?_respell? value,
      Param.respellAll_respellAll rest]
    rfl

theorem Func.respell_respell (f : Func) : (f.respell ρ).respell σ = f.respell (σ.after ρ) := by
  obtain ⟨keyword, params, body, range, signature, returnType, name, isMethod, nspace⟩ := f
  rw [Func.respell, Func.respell, Func.respell, Param.respellAll_respellAll params,
    Block.respell_respell body, Option.map_map]
  rfl

theorem Block.respell_respell (b : Block) : (b.respell ρ).respell σ = b.respell (σ.after ρ) := by
  obtain ⟨statements, range⟩ := b
  rw [Block.respell, Block.respell, Block.respell, Stmt.respellAll_respellAll statements]

theorem Stmt.respellAll_respellAll (ss : List Stmt) :
    Stmt.respellAll σ (Stmt.respellAll ρ ss) = Stmt.respellAll (σ.after ρ) ss := by
  cases ss with
  | nil => rfl
  | cons s rest =>
    rw [Stmt.respellAll, Stmt.respellAll, Stmt.respellAll, Stmt.respell_respell s,
      Stmt.respellAll_respellAll rest]

theorem Stmt.respell_respell (s : Stmt) : (s.respell ρ).respell σ = s.respell (σ.after ρ) := by
  cases s with
  | setField | dim | forEach =>
    simp only [Stmt.respell, Expr.respell_respell, Expr.respellAll_respellAll, Block.respell_respell]
    rfl
  | exit | label | goto | «end» | stop => rfl
  | _ =>
    simp only [Stmt.respell, Assign.respell_respell, Expr.respell_respell,
      Expr.respellAll_respellAll, Expr.respell?_respell?, If.respell_respell, Block.respell_respell,
      Catch.respell_respell]

theorem Assign.respell_respell (a : Assign) : (a.respell ρ).respell σ = a.respell (σ.after ρ) := by
  obtain ⟨name, value, range, op⟩ := a
  rw [Assign.respell, Assign.respell, Assign.respell, Expr.respell_respell value]
  rfl

theorem If.respell_respell (branch : If) :
    (branch.respell ρ).respell σ = branch.respell (σ.after ρ) := by
  obtain ⟨condition, onTrue, onFalse, range, inline⟩ := branch
  rw [If.respell, If.respell, If.respell, Expr.respell_respell condition,
    Block.respell_respell onTrue, Else.respell_respell onFalse]

theorem Else.respell_respell (e : Else) : (e.respell ρ).respell σ = e.respell (σ.after ρ) := by
  cases e with
  | absent => rfl
  | block body => simp only [Else.respell, Block.respell_respell body]
  | elseIf branch => simp only [Else.respell, If.respell_respell branch]

theorem Catch.respell_respell (c : Catch) : (c.respell ρ).respell σ = c.respell (σ.after ρ) := by
  obtain ⟨caught, body, range⟩ := c
  rw [Catch.respell, Catch.respell, Catch.respell, Block.respell_respell body, Option.map_map]
  rfl

end

/-! ## What stays -/

@[simp] theorem Expr.range_respell (e : Expr) : (e.respell ρ).range = e.range := by
  cases e with
  | var name called => exact ρ.range_name name
  | function func => cases func; rfl
  | _ => rfl

@[simp] theorem Stmt.range_respell (s : Stmt) : (s.respell ρ).range = s.range := by
  cases s with
  | assign a => cases a; rfl
  | ifThen branch => cases branch; rfl
  | _ => rfl

theorem Stmt.exprs_respell (s : Stmt) : (s.respell ρ).exprs = s.exprs.map (·.respell ρ) := by
  cases s with
  | assign a => cases a; rfl
  | ifThen branch => cases branch; rfl
  | dim => exact Expr.respellAll_eq ρ _
  | print => exact Expr.respellAll_eq ρ _
  | forTo _ _ stride => cases stride <;> rfl
  | ret value => cases value <;> rfl
  | _ => rfl

/-! ## Walks -/

/-- A node of a walk over expressions, with its parent. -/
def Expr.respellNode (node : Expr × Option Expr) : Expr × Option Expr :=
  (node.1.respell ρ, node.2.map (·.respell ρ))

mutual

theorem Expr.preorder_respell (e : Expr) (parent : Option Expr) :
    (e.respell ρ).preorder (parent.map (·.respell ρ)) =
      (e.preorder parent).map (Expr.respellNode ρ) := by
  cases e with
  | var | literal | function => rfl
  | _ =>
    simp only [Expr.respell, Expr.preorder, map_cons, map_append, cons_append,
      ← Expr.preorder_respell, ← Expr.preorderAll_respell, ← Member.preorderAll_respell]
    rfl

theorem Expr.preorderAll_respell (es : List Expr) (parent : Option Expr) :
    Expr.preorderAll (parent.map (·.respell ρ)) (Expr.respellAll ρ es) =
      (Expr.preorderAll parent es).map (Expr.respellNode ρ) := by
  cases es with
  | nil => rfl
  | cons e rest =>
    simp only [Expr.respellAll, Expr.preorderAll, map_append, Expr.preorder_respell e,
      Expr.preorderAll_respell rest]

theorem Member.preorderAll_respell (ms : List Member) (parent : Option Expr) :
    Member.preorderAll (parent.map (·.respell ρ)) (Member.respellAll ρ ms) =
      (Member.preorderAll parent ms).map (Expr.respellNode ρ) := by
  cases ms with
  | nil => rfl
  | cons m rest =>
    obtain ⟨key, value⟩ := m
    simp only [Member.respellAll, Member.preorderAll, map_append, Expr.preorder_respell value,
      Member.preorderAll_respell rest]

end

mutual

theorem Expr.functions_respell (e : Expr) :
    (e.respell ρ).functions = e.functions.map (·.respell ρ) := by
  cases e with
  | var | literal => rfl
  | _ =>
    simp only [Expr.respell, Expr.functions, map_append, Expr.functions_respell,
      Expr.functionsOf_respell, Member.functionsOf_respell, Func.functions_respell]

theorem Expr.functionsOf_respell (es : List Expr) :
    Expr.functionsOf (Expr.respellAll ρ es) = (Expr.functionsOf es).map (·.respell ρ) := by
  cases es with
  | nil => rfl
  | cons e rest =>
    simp only [Expr.respellAll, Expr.functionsOf, map_append, Expr.functions_respell e,
      Expr.functionsOf_respell rest]

theorem Expr.functionsOf?_respell (e : Option Expr) :
    Expr.functionsOf? (Expr.respell? ρ e) = (Expr.functionsOf? e).map (·.respell ρ) := by
  cases e with
  | none => rfl
  | some e => simp only [Expr.respell?, Expr.functionsOf?, Expr.functions_respell e]

theorem Member.functionsOf_respell (ms : List Member) :
    Member.functionsOf (Member.respellAll ρ ms) = (Member.functionsOf ms).map (·.respell ρ) := by
  cases ms with
  | nil => rfl
  | cons m rest =>
    obtain ⟨key, value⟩ := m
    simp only [Member.respellAll, Member.functionsOf, map_append, Expr.functions_respell value,
      Member.functionsOf_respell rest]

theorem Param.functionsOf_respell (ps : List Param) :
    Param.functionsOf (Param.respellAll ρ ps) = (Param.functionsOf ps).map (·.respell ρ) := by
  cases ps with
  | nil => rfl
  | cons p rest =>
    obtain ⟨name, type, value⟩ := p
    simp only [Param.respellAll, Param.functionsOf, map_append,
      Expr.functionsOf?_respell value, Param.functionsOf_respell rest]

theorem Func.functions_respell (f : Func) :
    (f.respell ρ).functions = f.functions.map (·.respell ρ) := by
  obtain ⟨keyword, params, body, range, signature, returnType, name, isMethod, nspace⟩ := f
  simp only [Func.respell, Func.functions, map_cons, map_append,
    Param.functionsOf_respell params, Block.functions_respell body, cons_append]

theorem Block.functions_respell (b : Block) :
    (b.respell ρ).functions = b.functions.map (·.respell ρ) := by
  obtain ⟨statements, range⟩ := b
  simp only [Block.respell, Block.functions, Stmt.functionsOf_respell statements]

theorem Stmt.functionsOf_respell (ss : List Stmt) :
    Stmt.functionsOf (Stmt.respellAll ρ ss) = (Stmt.functionsOf ss).map (·.respell ρ) := by
  cases ss with
  | nil => rfl
  | cons s rest =>
    simp only [Stmt.respellAll, Stmt.functionsOf, map_append, Stmt.functions_respell s,
      Stmt.functionsOf_respell rest]

theorem Stmt.functions_respell (s : Stmt) :
    (s.respell ρ).functions = s.functions.map (·.respell ρ) := by
  cases s with
  | exit | label | goto | «end» | stop => rfl
  | _ =>
    simp only [Stmt.respell, Stmt.functions, map_append, Assign.functions_respell,
      Expr.functions_respell, Expr.functionsOf_respell, Expr.functionsOf?_respell,
      If.functions_respell, Block.functions_respell, Catch.functions_respell]

theorem Assign.functions_respell (a : Assign) :
    (a.respell ρ).functions = a.functions.map (·.respell ρ) := by
  obtain ⟨name, value, range, op⟩ := a
  simp only [Assign.respell, Assign.functions, Expr.functions_respell value]

theorem If.functions_respell (branch : If) :
    (branch.respell ρ).functions = branch.functions.map (·.respell ρ) := by
  obtain ⟨condition, onTrue, onFalse, range, inline⟩ := branch
  simp only [If.respell, If.functions, map_append, Expr.functions_respell condition,
    Block.functions_respell onTrue, Else.functions_respell onFalse]

theorem Else.functions_respell (e : Else) :
    (e.respell ρ).functions = e.functions.map (·.respell ρ) := by
  cases e with
  | absent => rfl
  | block body => simp only [Else.respell, Else.functions, Block.functions_respell body]
  | elseIf branch => simp only [Else.respell, Else.functions, If.functions_respell branch]

theorem Catch.functions_respell (c : Catch) :
    (c.respell ρ).functions = c.functions.map (·.respell ρ) := by
  obtain ⟨caught, body, range⟩ := c
  simp only [Catch.respell, Catch.functions, Block.functions_respell body]

end

end ChannelLint
