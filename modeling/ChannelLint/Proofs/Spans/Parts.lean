import ChannelLint.Proofs.Casing.Places
import ChannelLint.Proofs.Literals.Tree
import ChannelLint.Proofs.Naming.Dotted

/-!
# The parts of a script and where they stand

The tree of a script is made of parts: names, signatures, expressions, statements, blocks and
declarations. `Part.parts` are the parts directly inside a part, and a script has every part that is
reached from its declarations in this way, whatever is embedded in templates included.

A part is sound if its range runs forward and holds the ranges of the parts inside it, if the
statements of a block stand one behind the other, if a name or a literal is the text that stands at
its range, and if all of this holds of the parts inside it. A block without any token has no place
in the text and is excepted.

A part as it is read has more to it. It takes something from its tokens: strings end with a quote
and declared names are segments. It has no namespace yet. And its parts stand in a row
(`Part.line`), apart from those that the tree holds twice: the name of a declared function, and the
target of a compound assignment.
-/
namespace ChannelLint

/-! ## Reading order -/

instance : Preorder Position where
  le_refl p := .inr ⟨rfl, Nat.le_refl _⟩
  le_trans p q r first second := by
    obtain less | ⟨same, le⟩ := first
    · obtain less' | ⟨same', -⟩ := second
      · exact .inl (less.trans less')
      · exact .inl (same' ▸ less)
    · obtain less' | ⟨same', le'⟩ := second
      · exact .inl (same ▸ less')
      · exact .inr ⟨same.trans same', le.trans le'⟩

theorem Position.le_next (p : Position) (c : Char) : p ≤ p.next c := by
  unfold Position.next
  split
  · exact .inl (Nat.lt_succ_self _)
  · exact .inr ⟨rfl, Nat.le_succ _⟩

theorem Position.le_after (p : Position) (cs : List Char) : p ≤ p.after cs := by
  induction cs generalizing p with
  | nil => exact le_refl p
  | cons c cs ih => exact (p.le_next c).trans (ih (p.next c))

theorem Position.lt_after (p : Position) {cs : List Char} (nonempty : cs ≠ []) : p < p.after cs := by
  cases cs with
  | nil => exact absurd rfl nonempty
  | cons c cs =>
    have next : p < p.next c := by
      refine ⟨p.le_next c, fun back => ?_⟩
      unfold Position.next at back
      split at back <;> obtain less | ⟨same, le⟩ := back <;> simp at *
    exact next.trans_le ((p.next c).le_after cs)

theorem Position.after_le_after_append (p : Position) (cs ds : List Char) :
    p.after cs ≤ p.after (cs ++ ds) := by
  rw [Position.after_append]
  exact Position.le_after _ _

theorem take_eq_append_of_le (cs : List Char) {i j : Nat} (le : i ≤ j) :
    cs.take j = cs.take i ++ (cs.take j).drop i := by
  conv_lhs => rw [← List.take_append_drop i (cs.take j), List.take_take, Nat.min_eq_left le]

theorem Position.after_take_le (p : Position) (cs : List Char) {i j : Nat} (le : i ≤ j) :
    p.after (cs.take i) ≤ p.after (cs.take j) := by
  rw [take_eq_append_of_le cs le]
  exact p.after_le_after_append _ _

/-- A range inside another one. -/
structure Range.Inside (inner outer : Range) : Prop where
  start : outer.start ≤ inner.start
  stop : inner.stop ≤ outer.stop

/-! ## Parts -/

/-- What occupies a range of the text of a script. -/
inductive Part where
  | ident (i : Ident)
  | signature (range : Range)
  | expr (e : Expr)
  | stmt (s : Stmt)
  | block (b : Block)
  | handler (h : Catch)
  | member (m : ClassMember)
  | decl (d : Decl)

variable {p : Part} {s : Script} {P : Part → Prop}

def Param.parts (p : Param) : List Part :=
  .ident p.name :: p.defaultValue.toList.map .expr

def Func.parts (f : Func) : List Part :=
  .signature f.signature :: f.name.toList.map .ident ++ f.params.flatMap Param.parts ++
    [.block f.body]

/-- What is directly inside an expression. `new` creates by a call of its own. -/
def Expr.parts : Expr → List Part
  | var name _ => [.ident name]
  | literal .. => []
  | binary left _ right _ => [.expr left, .expr right]
  | unary _ operand _ => [.expr operand]
  | group inner _ => [.expr inner]
  | dot object name _ => [.expr object, .ident name]
  | index object key _ => [.expr object, .expr key]
  | call callee args _ => .expr callee :: args.map .expr
  | ternary test onTrue onFalse _ => [.expr test, .expr onTrue, .expr onFalse]
  | template _ parts _ => parts.map .expr
  | new callee args callRange _ => [.expr (.call callee args callRange)]
  | array items _ => items.map .expr
  | table members _ => members.map (.expr ·.value)
  | function func => func.parts

def Else.parts : Else → List Part
  | absent => []
  | block body => [.block body]
  | elseIf branch => [.stmt (.ifThen branch)]

def Stmt.parts : Stmt → List Part
  | assign a => [.ident a.name, .expr a.value]
  | setField object name value _ => [.expr object, .ident name, .expr value]
  | setItem object key value _ => [.expr object, .expr key, .expr value]
  | step target _ _ => [.expr target]
  | dim name sizes _ => .ident name :: sizes.map .expr
  | perform call _ => [.expr call]
  | print values _ => values.map .expr
  | ifThen branch => .expr branch.condition :: .block branch.onTrue :: branch.onFalse.parts
  | forTo counter limit stride body _ =>
    .stmt (.assign counter) :: .expr limit :: stride.toList.map .expr ++ [.block body]
  | forEach item target body _ => [.ident item, .expr target, .block body]
  | whileDo condition body _ => [.expr condition, .block body]
  | ret value _ => value.toList.map .expr
  | throw value _ => [.expr value]
  | tryCatch body handler _ => [.block body, .handler handler]
  | label name _ => [.ident name]
  | goto target _ => [.ident target]
  | exit .. | «end» _ | stop _ => []

def ClassMember.parts : ClassMember → List Part
  | method name func => [.ident name, .expr (.function func)]
  | field name _ value _ => .ident name :: value.toList.map .expr

def Decl.parts : Decl → List Part
  | function name func => [.ident name, .expr (.function func)]
  | «class» decl => .ident decl.name :: decl.members.map .member
  | nspace _ body _ => body.map .decl
  | const name value _ _ => [.ident name, .expr value]
  | enum name members _ _ => .ident name :: members.map .ident
  | importFile .. | library .. => []

def ClassMember.range : ClassMember → Range
  | method _ func => func.range
  | field _ _ _ range => range

def Decl.range : Decl → Range
  | function _ func => func.range
  | «class» decl => decl.range
  | nspace _ _ range | const _ _ range _ | enum _ _ range _ | importFile _ range
  | library _ range => range

namespace Part

/-- The parts directly inside a part. -/
def parts : Part → List Part
  | ident _ | signature _ => []
  | expr e => e.parts
  | stmt s => s.parts
  | block b => b.statements.map .stmt
  | handler h => h.caught.toList.map .ident ++ [.block h.body]
  | member m => m.parts
  | decl d => d.parts

def range : Part → Range
  | ident i => i.range
  | signature range => range
  | expr e => e.range
  | stmt s => s.range
  | block b => b.range
  | handler h => h.range
  | member m => m.range
  | decl d => d.range

/-- The text of a name, or of a string, a number or a template. -/
def text? : Part → Option String
  | ident i => some i.text
  | expr (.literal .string text _) | expr (.literal .number text _)
  | expr (.template text _ _) => some text
  | _ => none

/-- A block that was read without any token. -/
def IsBare : Part → Prop
  | block b => b.statements = [] ∧ b.range = .empty
  | _ => False

end Part

/-- What a compound assignment stores: an operation that ranges over the whole statement. -/
def Stmt.compound? : Stmt → Option Expr
  | assign a => if a.value.range = a.range then some a.value else none
  | setField _ _ value range | setItem _ _ value range =>
    if value.range = range then some value else none
  | _ => none

namespace Part

/-- The parts that stand in a row: all of them but a signature, the name of a function that holds
its own name, and the target of a compound assignment, which stands in what is stored. -/
def line : Part → List Part
  | expr (.function func) =>
    func.name.toList.map .ident ++ func.params.flatMap Param.parts ++ [.block func.body]
  | member (.method _ func) | decl (.function _ func) => [.expr (.function func)]
  | stmt s => s.compound?.elim s.parts fun value => [.expr value]
  | p => p.parts

/-- One part stands behind the other, if both have a place. -/
def Before (p q : Part) : Prop :=
  p.IsBare ∨ q.IsBare ∨ p.range.stop ≤ q.range.start

/-- What a part by itself takes from its tokens, in the text `t`. No namespace is noted in a
function yet. The keyword of a function or of a handler stands in front of all that is in it. A
compound assignment stores an operation on the old value of its target. -/
def Lexed (t : String) : Part → Prop
  | ident i => StandsIn t i
  | expr (.literal .string text _) => EndsQuoted text
  | expr (.function func) => func.nspace = none ∧
      ∀ q ∈ (Part.expr (.function func)).line, q.IsBare ∨ func.signature.start < q.range.start
  | handler h => ∀ q ∈ (Part.handler h).parts, q.IsBare ∨ h.range.start < q.range.start
  | stmt s => ∀ value ∈ s.compound?, ∃ old op right range, value = .binary old op right range ∧
      (∀ f, old ≠ .function f) ∧ s.parts = old.parts ++ [.expr value]
  | decl d => d.NamedHere
  | _ => True

/-- A part with nothing of its own that comes from a token, and with all its parts in a row. -/
def isPlain : Part → Bool
  | decl _ | member (.method ..) | expr (.function _) | handler _ => false
  | stmt s => s.compound?.isNone
  | p => p.text?.isNone

theorem isPlain_spec (t : String) (plain : p.isPlain = true) :
    p.text? = none ∧ p.Lexed t ∧ p.line = p.parts := by
  cases p with
  | ident | decl | handler => cases plain
  | stmt s =>
    have simple : s.compound? = none := Option.isNone_iff_eq_none.1 plain
    exact ⟨rfl, by simp [Lexed, simple], by simp only [line, simple, Option.elim, parts]⟩
  | expr e =>
    cases e with
    | function => cases plain
    | literal kind =>
      cases kind with
      | string => cases plain
      | _ => exact ⟨Option.isNone_iff_eq_none.1 plain, trivial, rfl⟩
    | _ => exact ⟨Option.isNone_iff_eq_none.1 plain, trivial, rfl⟩
  | member m =>
    cases m with
    | method => cases plain
    | field => exact ⟨rfl, trivial, rfl⟩
  | _ => exact ⟨rfl, trivial, rfl⟩

end Part

/-- A part of a script, at any depth. -/
inductive Script.HasPart (s : Script) : Part → Prop
  | decl {d : Decl} : d ∈ s.decls → HasPart s (.decl d)
  | inside {outer inner : Part} : HasPart s outer → inner ∈ outer.parts → HasPart s inner

/-- The part that is reached from a part by a path of indices. -/
def Part.at? (p : Part) : List Nat → Option Part
  | [] => some p
  | i :: path => p.parts[i]?.bind (·.at? path)

def Script.partAt? (s : Script) (decl : Nat) (path : List Nat) : Option Part :=
  s.decls[decl]?.bind fun d => (Part.decl d).at? path

theorem Script.HasPart.of_at? {q : Part} (has : s.HasPart p) {path : List Nat}
    (found : p.at? path = some q) : s.HasPart q := by
  induction path generalizing p with
  | nil =>
    cases found
    exact has
  | cons i path ih =>
    obtain ⟨inner, next, found⟩ := Option.bind_eq_some_iff.1 found
    exact ih (.inside has (List.mem_of_getElem? next)) found

theorem Script.hasPart_of_partAt? {decl : Nat} {path : List Nat}
    (found : s.partAt? decl path = some p) : s.HasPart p := by
  obtain ⟨d, first, found⟩ := Option.bind_eq_some_iff.1 found
  exact .of_at? (.decl (List.mem_of_getElem? first)) found

/-! ## Soundness -/

/-- What is asked of a part by itself, in the text `t`. -/
structure Part.Fits (t : String) (p : Part) : Prop where
  forward : p.range.start ≤ p.range.stop
  inside : ∀ q ∈ p.parts, q.IsBare ∨ q.range.Inside p.range
  ordered : ∀ b, p = .block b → b.statements.Pairwise fun x y => x.range.stop ≤ y.range.start
  text : ∀ text ∈ p.text?, textAt t p.range = text

/-- What is asked of a part by itself when it is read. -/
structure Part.AsRead (t : String) (p : Part) : Prop extends p.Fits t where
  lexed : p.Lexed t
  row : p.line.Pairwise Before
  proper : p.IsBare ∨ p.range.start < p.range.stop

/-- A part has a property, and so have all parts inside it. -/
inductive Part.All (P : Part → Prop) : Part → Prop
  | intro {p : Part} : P p → (∀ q ∈ p.parts, q.All P) → p.All P

def Part.Sound (t : String) (p : Part) : Prop :=
  p.All (Part.Fits t)

namespace Part

variable {t : String} {lo hi : Position}

theorem All.here (all : p.All P) : P p := by
  cases all with
  | intro here _ => exact here

theorem All.parts (all : p.All P) : ∀ q ∈ p.parts, q.All P := by
  cases all with
  | intro _ each => exact each

theorem All.sound (all : p.All (AsRead t)) : p.Sound t := by
  induction all with
  | intro here _ ih => exact .intro here.toFits ih

theorem Sound.fits (sound : p.Sound t) : p.Fits t :=
  All.here sound

/-- All parts of a script are sound if its declarations are. -/
theorem Sound.of_hasPart (sound : ∀ d ∈ s.decls, (Part.decl d).Sound t)
    (has : s.HasPart p) : p.Sound t := by
  induction has with
  | decl member => exact sound _ member
  | inside _ member ih => exact All.parts ih _ member

/-- A part that was read and stands between two positions, unless it has no place. -/
structure Between (t : String) (lo hi : Position) (p : Part) : Prop where
  asRead : p.All (AsRead t)
  placed : p.IsBare ∨ p.range.Inside ⟨lo, hi⟩

theorem Between.mono {lo' hi' : Position} (between : p.Between t lo hi) (start : lo' ≤ lo)
    (stop : hi ≤ hi') : p.Between t lo' hi' :=
  ⟨between.asRead, between.placed.imp_right fun inside =>
    ⟨start.trans inside.start, inside.stop.trans stop⟩⟩

/-- A part is as it is read if the parts inside it stand within its range. -/
theorem All.of_between (range : p.range = ⟨lo, hi⟩) (forward : lo < hi)
    (each : ∀ q ∈ p.parts, q.Between t lo hi) (text : ∀ text ∈ p.text?, textAt t p.range = text)
    (lexed : p.Lexed t) (row : p.line.Pairwise Before) : p.All (AsRead t) := by
  refine .intro ⟨⟨?_, fun q member => ?_, ?_, text⟩, lexed, row, ?_⟩
    fun q member => (each q member).asRead
  · rw [range]
    exact forward.le
  · rw [range]
    exact (each q member).placed
  · rintro b rfl
    exact (List.pairwise_map.1 row).imp fun before => (before.resolve_left id).resolve_left id
  · rw [range]
    exact .inr forward

/-- A part all of whose parts stand in a row. -/
theorem All.of_row (range : p.range = ⟨lo, hi⟩) (forward : lo < hi)
    (each : ∀ q ∈ p.parts, q.Between t lo hi) (row : p.parts.Pairwise Before)
    (text : ∀ text ∈ p.text?, textAt t p.range = text) (lexed : p.Lexed t)
    (line : p.line = p.parts) : p.All (AsRead t) :=
  .of_between range forward each text lexed (line ▸ row)

end Part

end ChannelLint
