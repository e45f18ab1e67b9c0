import ChannelLint.Proofs.Casing.Uses
import ChannelLint.Script.Parser.Declarations

/-!
# Literals that end with a quote

A function is quoted if every string literal in it ends with a quote, outside the functions inside
it. Then the literals of a script are texts that end with a quote, in lower case.
-/
namespace ChannelLint

open List

def EndsQuoted (text : String) : Prop :=
  text.toList.getLast? = some '"'

instance (text : String) : Decidable (EndsQuoted text) :=
  inferInstanceAs (Decidable (_ = _))

/-- A node that is no string, or a string that ends with a quote. -/
def Expr.IsQuoted : Expr → Prop
  | .literal .string text _ => EndsQuoted text
  | _ => True

/-- The strings of an expression outside the functions in it end with a quote. -/
def Expr.QuotedHere (e : Expr) : Prop :=
  ∀ node ∈ e.preorder none, node.1.IsQuoted

/-- The strings of a function outside the functions in it end with a quote. -/
def Func.QuotedHere (f : Func) : Prop :=
  ∀ e ∈ f.allExprs, e.QuotedHere

/-- A function as a parser gives it: its own strings end with a quote, and no namespace is noted
yet. -/
structure Func.AsRead (f : Func) : Prop where
  quoted : f.QuotedHere
  nspace : f.nspace = none

/-! ## Walks over lists -/

theorem Expr.functionsOf_eq (es : List Expr) : Expr.functionsOf es = es.flatMap Expr.functions := by
  induction es with
  | nil => rfl
  | cons e es ih => rw [Expr.functionsOf, ih, flatMap_cons]

theorem Expr.functionsOf?_eq (e : Option Expr) :
    Expr.functionsOf? e = e.toList.flatMap Expr.functions := by
  cases e <;> simp [Expr.functionsOf?]

theorem Member.functionsOf_eq (ms : List Member) :
    Member.functionsOf ms = (ms.map (·.value)).flatMap Expr.functions := by
  induction ms with
  | nil => rfl
  | cons m ms ih =>
    obtain ⟨key, value⟩ := m
    rw [Member.functionsOf, ih, map_cons, flatMap_cons]

theorem Param.functionsOf_eq (ps : List Param) :
    Param.functionsOf ps = (ps.filterMap (·.defaultValue)).flatMap Expr.functions := by
  induction ps with
  | nil => rfl
  | cons p ps ih =>
    obtain ⟨name, type, value⟩ := p
    cases value with
    | none => simpa [Param.functionsOf, Expr.functionsOf?] using ih
    | some e => simp [Param.functionsOf, Expr.functionsOf?, ih]

theorem Stmt.functionsOf_eq (ss : List Stmt) : Stmt.functionsOf ss = ss.flatMap Stmt.functions := by
  induction ss with
  | nil => rfl
  | cons s ss ih => rw [Stmt.functionsOf, ih, flatMap_cons]

theorem Stmt.allExprsOf_eq (ss : List Stmt) : Stmt.allExprsOf ss = ss.flatMap Stmt.allExprs := by
  induction ss with
  | nil => rfl
  | cons s ss ih => rw [Stmt.allExprsOf, ih, flatMap_cons]

theorem Expr.preorderAll_eq (parent : Option Expr) (es : List Expr) :
    Expr.preorderAll parent es = es.flatMap (Expr.preorder parent) := by
  induction es with
  | nil => rfl
  | cons e es ih => rw [Expr.preorderAll, ih, flatMap_cons]

theorem Member.preorderAll_eq (parent : Option Expr) (ms : List Member) :
    Member.preorderAll parent ms = (ms.map (·.value)).flatMap (Expr.preorder parent) := by
  induction ms with
  | nil => rfl
  | cons m ms ih =>
    obtain ⟨key, value⟩ := m
    rw [Member.preorderAll, ih, map_cons, flatMap_cons]

theorem Decl.flattenAll_eq (ds : List Decl) : Decl.flattenAll ds = ds.flatMap Decl.flatten := by
  induction ds with
  | nil => rfl
  | cons d ds ih => rw [Decl.flattenAll, ih, flatMap_cons]

theorem Decl.mem_flattenAll {ds : List Decl} {e : Decl} :
    e ∈ Decl.flattenAll ds ↔ ∃ d ∈ ds, e ∈ d.flatten := by
  rw [Decl.flattenAll_eq, mem_flatMap]

/-! ## Scripts -/

/-- The literals that a script holds are texts that end with a quote, in lower case. -/
theorem Script.exists_quoted_of_mem_stringLiterals {s : Script}
    (quoted : ∀ f ∈ s.functions, f.QuotedHere) {text : String} {range : Range}
    (member : (text, range) ∈ s.stringLiterals) :
    ∃ written, EndsQuoted written ∧ Text.lower written = text := by
  unfold Script.stringLiterals at member
  obtain ⟨f, isFunction, inFunction⟩ := mem_flatMap.1 member
  obtain ⟨⟨e, parent⟩, isNode, found⟩ := mem_filterMap.1 inFunction
  obtain ⟨top, isTop, inTop⟩ := mem_flatMap.1 isNode
  have closed := quoted f isFunction top isTop _ inTop
  cases e with
  | literal kind written place =>
    cases kind with
    | string =>
      dsimp only at found
      split at found
      · cases found
      · cases found
        exact ⟨written, closed, rfl⟩
    | _ => cases found
  | _ => cases found

end ChannelLint
