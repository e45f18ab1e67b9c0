import ChannelLint.Proofs.Casing.Statements
import ChannelLint.Script.Parser.Declarations

/-!
# Declarations without their case

Each rule for declarations reads without case what it reads.
-/
namespace ChannelLint

open Text (uncased)

/-! ## Declarations -/

def ClassMember.uncase : ClassMember → ClassMember
  | method name func => method (Respelling.uncase.label name) (func.respell .uncase)
  | field name type value range =>
    field (Respelling.uncase.label name) type (value.map (·.respell .uncase)) range

def Class.uncase (c : Class) : Class :=
  ⟨Respelling.uncase.label c.name, c.parent.map uncased, c.members.map (·.uncase), c.range,
    c.nspace⟩

mutual

def Decl.uncase : Decl → Decl
  | .function name func => .function (Respelling.uncase.label name) (func.respell .uncase)
  | .class decl => .class decl.uncase
  | .nspace name body range => .nspace (uncased name) (Decl.uncaseAll body) range
  | .const name value range outer =>
    .const (Respelling.uncase.label name) (value.respell .uncase) range outer
  | .enum name members range outer =>
    .enum (Respelling.uncase.label name) (members.map Respelling.uncase.label) range outer
  | .importFile path range => .importFile (uncased path) range
  | .library path range => .library (uncased path) range

def Decl.uncaseAll : List Decl → List Decl
  | [] => []
  | d :: rest => d.uncase :: Decl.uncaseAll rest

end

theorem Decl.uncaseAll_eq (ds : List Decl) : Decl.uncaseAll ds = ds.map Decl.uncase := by
  induction ds with
  | nil => rfl
  | cons d ds ih => rw [Decl.uncaseAll, ih, List.map_cons]

/-- The functions of declarations, those inside namespaces included. -/
def Decl.allFunctions (ds : List Decl) : List Func :=
  (Decl.flattenAll ds).flatMap (·.functions)

namespace Parser

variable {α : Type}

namespace Reading

/-- A name that is declared. -/
abbrev label : Reading Ident := Respelling.uncase.label

abbrev classMember : Reading ClassMember := ClassMember.uncase

abbrev decl : Reading Decl := Decl.uncase

/-- A text that is not in lower case yet. -/
abbrev text : Reading String := uncased

end Reading

theorem methodName_reads : Blind .label methodName := by
  refine .look fun t => ?_
  split
  · exact take_reads.bind fun t => .pure rfl
  · exact take_reads.bind fun t => .pure rfl
  · exact .refuse

theorem parentClause?_reads : Blind Reading.text.option parentClause? := by
  refine .accepting (fun _ => ?_) (.pure rfl)
  exact dottedNames_reads.bind fun names => .pure (congrArg some (dottedText_uncase names))

theorem pathDeclaration_reads {build : String → Range → Decl}
    (same : ∀ path range, (build path range).uncase = build (uncased path) range) :
    Blind .decl (pathDeclaration build) := by
  refine .here fun start => ?_
  refine take_reads.bind fun _ => ?_
  refine expect_reads.bind fun path => ?_
  refine .since fun range => .pure ?_
  exact (congrArg (build · range) (unquote_uncased path.text)).trans (same _ range).symm

section

variable {rules : Rules} (h : rules.Alike)

include h

theorem functionDeclaration_reads : Blind .decl (functionDeclaration rules) := by
  refine take_reads.bind fun keyword => ?_
  refine expect_reads.bind fun name => ?_
  have tail := functionTail_reads h keyword.range.start keyword (some (ident name)) false
  exact tail.bind fun func => .pure rfl

theorem classMember_reads : Blind .classMember (classMember rules) := by
  refine .here fun start => ?_
  refine skipMany_reads.bind fun _ => ?_
  refine .look fun t => .ite ?_ ?_
  · refine take_reads.bind fun keyword => ?_
    refine methodName_reads.bind fun name => ?_
    have tail := functionTail_reads h start keyword (some name) true
    exact tail.bind fun func => .pure rfl
  · refine expect_reads.bind fun name => ?_
    refine typeClause?_reads.bind fun type => ?_
    refine (valueClause?_reads h).bind fun value => ?_
    exact .since fun range => .pure rfl

theorem classDeclaration_reads : Blind .decl (classDeclaration rules) := by
  refine .here fun start => ?_
  refine take_reads.bind fun _ => ?_
  refine expect_reads.bind fun name => ?_
  refine parentClause?_reads.bind fun parent => ?_
  refine separator_reads.bind fun _ => ?_
  refine (linesOf_reads startsMember (classMember_reads h)).bind fun members => ?_
  refine expect_reads.bind fun _ => ?_
  exact .since fun range => .pure rfl

theorem constDeclaration_reads : Blind .decl (constDeclaration rules) := by
  refine .here fun start => ?_
  refine take_reads.bind fun _ => ?_
  refine expect_reads.bind fun name => ?_
  refine expect_reads.bind fun _ => ?_
  refine h.expr.bind fun value => ?_
  exact .since fun range => .pure rfl

theorem enumMember_reads : Blind .label (enumMember rules) := by
  refine expect_reads.bind fun name => ?_
  exact (valueClause?_reads h).bind fun _ => .pure rfl

theorem enumDeclaration_reads : Blind .decl (enumDeclaration rules) := by
  refine .here fun start => ?_
  refine take_reads.bind fun _ => ?_
  refine expect_reads.bind fun name => ?_
  refine separator_reads.bind fun _ => ?_
  refine (linesOf_reads _ (enumMember_reads h)).bind fun members => ?_
  refine expect_reads.bind fun _ => ?_
  exact .since fun range => .pure rfl

omit h in
theorem namespaceDeclaration_reads {inner : Parser Decl} (each : Blind .decl inner) :
    Blind .decl (namespaceDeclaration inner) := by
  refine .here fun start => ?_
  refine take_reads.bind fun _ => ?_
  refine dottedNames_reads.bind fun names => ?_
  refine separator_reads.bind fun _ => ?_
  refine (linesOf_reads startsDeclaration each).bind fun body => ?_
  refine expect_reads.bind fun _ => ?_
  refine .since fun range => .pure ?_
  exact congrArg₂ (Decl.nspace · · range) (dottedText_uncase names) (Decl.uncaseAll_eq body).symm

theorem declarationUpTo_reads (n : Nat) : Blind .decl (declarationUpTo rules n) := by
  induction n with
  | zero => exact .refuse
  | succ n ih =>
    refine .look fun t => ?_
    split
    · exact functionDeclaration_reads h
    · exact functionDeclaration_reads h
    · exact classDeclaration_reads h
    · exact namespaceDeclaration_reads ih
    · exact constDeclaration_reads h
    · exact enumDeclaration_reads h
    · exact pathDeclaration_reads fun _ _ => rfl
    · exact pathDeclaration_reads fun _ _ => rfl
    · exact .refuse

end

theorem topLine?_reads {declaration : Parser Decl} (h : Blind .decl declaration) :
    Blind Reading.decl.option.option (topLine? declaration) := by
  refine .look fun t => ?_
  cases t with
  | none => exact .pure rfl
  | some t =>
    refine .ite ?_ ?_
    · exact separator_reads.bind fun _ => .pure rfl
    · refine h.bind fun d => .look fun t => .ite ?_ ?_
      · exact separator_reads.bind fun _ => .pure rfl
      · exact .pure rfl

theorem scriptLines_reads {declaration : Parser Decl} (h : Blind .decl declaration) :
    Blind Reading.decl.list (scriptLines declaration) := by
  refine (collect_reads (topLine?_reads h)).bind fun lines => ?_
  exact .pure (filterMap_id_map Decl.uncase lines)

end Parser

end ChannelLint
