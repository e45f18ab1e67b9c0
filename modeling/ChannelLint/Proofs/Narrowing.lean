import ChannelLint.Proofs.DefiniteAssignment
import ChannelLint.Proofs.Invariant

/-!
# What a condition settles

An `if` notes every unsettled variable that its condition compares with `invalid`, wherever in the
condition the comparison stands. Whether the variable is valid on the side that the note speaks of
depends on the shape of the whole condition. Here conditions get values, and `Expr.settles` says
which shapes leave no doubt; for them the notes of a walk are right. `Expr.joins` names shapes that
settle whatever they compare.
-/
namespace ChannelLint

open List

inductive Value where
  | invalid
  | truth (b : Bool)
  | other
  deriving DecidableEq, Repr

variable {v : Value} {e : Expr}

namespace Value

/-- Whether a condition with this value may lead to a side. Any other value than a truth value may
be a number, and these lead to both sides. -/
def takes (side : Bool) : Value → Bool
  | invalid => false
  | truth b => b == side
  | other => true

def ofLiteral (kind : LiteralKind) (text : String) : Value :=
  match kind with
  | .invalid => invalid
  | .boolean => truth (Text.lower text = "true")
  | _ => other

def not : Value → Value
  | truth b => truth !b
  | v => v

theorem takes_not (v : Value) (side : Bool) : v.not.takes side = v.takes !side := by
  cases v with
  | truth b => cases b <;> cases side <;> rfl
  | _ => rfl

theorem ne_invalid_of_takes {side : Bool} (takes : v.takes side) : v ≠ .invalid := by
  rintro rfl
  cases takes

end Value

/-- The value of its left operand with which `and` or `or` is decided. -/
def BinaryOp.decidedBy? : BinaryOp → Option Bool
  | .and => some false
  | .or => some true
  | _ => none

/-- The side of a condition on which a variable is not `invalid`, if its note holds. -/
def Validity.side : Validity → Bool
  | valid => true
  | invalid => false

/-- What a comparison gives for equal values. -/
def BinaryOp.ifEqual? : BinaryOp → Option Bool
  | .equal => some true
  | .notEqual => some false
  | _ => none

namespace Expr

/-- Whether the value depends on more than the variables. -/
def isForeign : Expr → Bool
  | .var .. | .literal .. | .group .. | .ternary .. | .unary .not .. => false
  | .binary _ op _ _ => op.decidedBy?.isNone && op.ifEqual?.isNone && op ≠ .coalesce
  | _ => true

/-- The values that an expression may have where the variables have the values `σ`. A comparison is
followed only where one side is `invalid`. -/
inductive Gives (σ : String → Value) : Expr → Value → Prop where
  | var {name : Ident} {called : Bool} : Gives σ (.var name called) (σ name.key)
  | literal {kind : LiteralKind} {text : String} {range : Range} :
    Gives σ (.literal kind text range) (.ofLiteral kind text)
  | group {inner : Expr} {range : Range} {v : Value} :
    Gives σ inner v → Gives σ (.group inner range) v
  | not {operand : Expr} {range : Range} {v : Value} :
    Gives σ operand v → Gives σ (.unary .not operand range) v.not
  | decided {left right : Expr} {op : BinaryOp} {range : Range} {b : Bool} :
    op.decidedBy? = some b → Gives σ left (.truth b) →
    Gives σ (.binary left op right range) (.truth b)
  | passed {left right : Expr} {op : BinaryOp} {range : Range} {b : Bool} {v : Value} :
    op.decidedBy? = some b → Gives σ left (.truth !b) → Gives σ right v →
    Gives σ (.binary left op right range) v
  | bitwise {left right : Expr} {op : BinaryOp} {range : Range} {b : Bool} :
    op.decidedBy? = some b → Gives σ left .other → Gives σ right .other →
    Gives σ (.binary left op right range) .other
  | compared {left right : Expr} {op : BinaryOp} {range : Range} {b result : Bool} {v v' : Value} :
    op.ifEqual? = some b → Gives σ left v → Gives σ right v' →
    (v = .invalid ∨ v' = .invalid → result = if v = v' then b else !b) →
    Gives σ (.binary left op right range) (.truth result)
  | present {left right : Expr} {range : Range} {v : Value} :
    Gives σ left v → v ≠ .invalid → Gives σ (.binary left .coalesce right range) v
  | missing {left right : Expr} {range : Range} {v : Value} :
    Gives σ left .invalid → Gives σ right v → Gives σ (.binary left .coalesce right range) v
  | ternary {test onTrue onFalse : Expr} {range : Range} {side : Bool} {v w : Value} :
    Gives σ test w → w.takes side → Gives σ (if side then onTrue else onFalse) v →
    Gives σ (.ternary test onTrue onFalse range) v
  | foreign {e : Expr} {v : Value} : e.isForeign → Gives σ e v

def isNamed (x : String) : Expr → Bool
  | .var name _ => name.key = x
  | _ => false

/-- Whether the variable `x` is valid wherever an expression leads to a side. -/
def settles (x : String) (side : Bool) : Expr → Bool
  | .var name _ => name.key = x
  | .literal kind text _ => !(Value.ofLiteral kind text).takes side
  | .group inner _ => inner.settles x side
  | .unary .not operand _ => operand.settles x (!side)
  | .ternary test onTrue onFalse _ =>
    (test.settles x true || onTrue.settles x side) && (test.settles x false || onFalse.settles x side)
  | .binary left op right _ =>
    match op.decidedBy?, op.ifEqual? with
    | some b, _ =>
      (side != b || left.settles x b) && (left.settles x (!b) || right.settles x side)
    | none, some b =>
      side != b &&
        (Walk.isInvalid right && left.isNamed x || Walk.isInvalid left && right.isNamed x)
    | none, none => op = .coalesce && left.settles x side && right.settles x side
  | _ => false

variable {σ : String → Value} {x : String}

theorem Gives.of_isNamed (gives : e.Gives σ v) (isNamed : e.isNamed x) : v = σ x := by
  cases e with
  | var name called =>
    cases gives with
    | var => exact congrArg σ (of_decide_eq_true isNamed)
    | foreign foreign => cases foreign
  | _ => cases isNamed

theorem Gives.of_isInvalid (gives : e.Gives σ v) (isInvalid : Walk.isInvalid e) : v = .invalid := by
  unfold Walk.isInvalid at isInvalid
  split at isInvalid
  · cases gives with
    | literal => rfl
    | foreign foreign => cases foreign
  · cases isInvalid

theorem settles_of_isForeign (foreign : e.isForeign) (side : Bool) : e.settles x side = false := by
  cases e with
  | binary left op right range => cases op <;> first | rfl | cases foreign
  | unary op operand range => cases op <;> first | rfl | cases foreign
  | _ => first | rfl | cases foreign

theorem Gives.valid_of_settles (gives : e.Gives σ v) {side : Bool}
    (takes : v.takes side) (settled : e.settles x side) : σ x ≠ .invalid := by
  induction gives generalizing side with
  | var =>
    obtain rfl := of_decide_eq_true settled
    exact Value.ne_invalid_of_takes takes
  | literal =>
    rw [settles, takes] at settled
    cases settled
  | group _ ih => exact ih takes settled
  | not _ ih => exact ih (Value.takes_not _ _ ▸ takes) settled
  | decided op _ ih =>
    simp only [settles, op, Bool.and_eq_true, Bool.or_eq_true] at settled
    obtain rfl := eq_of_beq takes
    exact ih takes (settled.1.resolve_left (by simp))
  | passed op _ _ ihLeft ihRight =>
    simp only [settles, op, Bool.and_eq_true, Bool.or_eq_true] at settled
    exact settled.2.elim (ihLeft (beq_self_eq_true _)) (ihRight takes)
  | bitwise op _ _ ihLeft ihRight =>
    simp only [settles, op, Bool.and_eq_true, Bool.or_eq_true] at settled
    exact settled.2.elim (ihLeft rfl) (ihRight rfl)
  | @compared left right op range b result v v' compares ofLeft ofRight equal =>
    have undecided : op.decidedBy? = none := by cases op <;> first | rfl | cases compares
    simp only [settles, undecided, compares, Bool.and_eq_true, Bool.or_eq_true] at settled
    obtain ⟨differs, tested⟩ := settled
    obtain rfl := eq_of_beq takes
    intro invalid
    have same : v = .invalid ∧ v' = .invalid := by
      rcases tested with ⟨literal, name⟩ | ⟨literal, name⟩
      · exact ⟨(ofLeft.of_isNamed name).trans invalid, ofRight.of_isInvalid literal⟩
      · exact ⟨ofLeft.of_isInvalid literal, (ofRight.of_isNamed name).trans invalid⟩
    rw [equal (.inl same.1), if_pos (same.1.trans same.2.symm)] at differs
    simp at differs
  | present _ _ ih =>
    simp only [settles, BinaryOp.decidedBy?, BinaryOp.ifEqual?, Bool.and_eq_true] at settled
    exact ih takes settled.1.2
  | missing _ _ _ ih =>
    simp only [settles, BinaryOp.decidedBy?, BinaryOp.ifEqual?, Bool.and_eq_true] at settled
    exact ih takes settled.2
  | @ternary test onTrue onFalse range taken v w _ leads _ ihTest ih =>
    simp only [settles, Bool.and_eq_true, Bool.or_eq_true] at settled
    cases taken with
    | true => exact settled.1.elim (ihTest leads) (ih takes)
    | false => exact settled.2.elim (ihTest leads) (ih takes)
  | @foreign e v isForeign =>
    rw [settles_of_isForeign isForeign] at settled
    cases settled

/-! ## Joined comparisons -/

/-- Whether all comparisons behind the notes of a validity hold where an expression leads to their
side: they are joined by `and` if the side is true and by `or` if it is false. -/
def joins (validity : Validity) : Expr → Bool
  | .group inner _ => inner.joins validity
  | .binary left op right _ =>
    if op.decidedBy? = some !validity.side then left.joins validity && right.joins validity
    else (left.compared validity).isEmpty && (right.compared validity).isEmpty
  | e => (e.compared validity).isEmpty

variable {validity : Validity} {left right : Expr} {op : BinaryOp} {range : Range}

theorem mem_compared :
    x ∈ e.compared validity ↔ ∃ name called parent, (.var name called, parent) ∈ e.preorder none ∧
      Walk.comparedValidity? parent = some (some validity) ∧ name.key = x := by
  unfold compared
  rw [mem_filterMap]
  constructor
  · rintro ⟨node, mem, named⟩
    split at named
    · next name called parent =>
      split at named
      · next tests => exact ⟨name, called, parent, mem, tests, Option.some.inj named⟩
      · cases named
    · cases named
  · rintro ⟨name, called, parent, mem, tests, rfl⟩
    exact ⟨_, mem, if_pos tests⟩

/-- What is compared inside an expression is compared by it alone, or it is the expression. -/
theorem mem_compared_or_isNamed {name : Ident} {called : Bool} {around parent : Option Expr}
    (mem : (.var name called, parent) ∈ e.preorder around)
    (tests : Walk.comparedValidity? parent = some (some validity)) :
    name.key ∈ e.compared validity ∨ e.isNamed name.key ∧ parent = around := by
  rw [mem_compared]
  cases e with
  | var =>
    obtain ⟨⟨rfl, rfl⟩, rfl⟩ : (_ ∧ _) ∧ _ := by simpa [preorder] using mem
    exact .inr ⟨decide_eq_true rfl, rfl⟩
  | _ =>
    refine .inl ⟨name, called, parent, ?_, tests, rfl⟩
    simp only [preorder, cons_append, mem_cons, Prod.mk.injEq, reduceCtorEq, false_and,
      false_or] at mem ⊢
    exact mem

/-- A test of an operand settles the operand where the note of the test speaks. -/
theorem settles_of_tests
    (tests : Walk.comparedValidity? (some (.binary left op right range)) = some (some validity))
    (named : left.isNamed x ∨ right.isNamed x) :
    op.decidedBy? = none ∧ (Expr.binary left op right range).settles x validity.side := by
  have literal {e : Expr} (named : e.isNamed x) : Walk.isInvalid e = false := by
    cases e <;> first | rfl | cases named
  simp only [Walk.comparedValidity?] at tests
  split at tests
  · next isInvalid =>
    have decided : op.decidedBy? = none ∧ op.ifEqual? = some !validity.side := by
      cases op <;> cases tests <;> exact ⟨rfl, rfl⟩
    refine ⟨decided.1, ?_⟩
    rcases named with named | named <;>
      simpa [settles, decided, named, literal named] using isInvalid
  · cases tests

theorem mem_compared_binary (compared : x ∈ (Expr.binary left op right range).compared validity) :
    x ∈ left.compared validity ∨ x ∈ right.compared validity ∨
      op.decidedBy? = none ∧ (Expr.binary left op right range).settles x validity.side := by
  obtain ⟨name, called, parent, mem, tests, rfl⟩ := mem_compared.1 compared
  simp only [preorder, cons_append, mem_cons, mem_append, Prod.mk.injEq,
    reduceCtorEq, false_and, false_or] at mem
  rcases mem with mem | mem
  · rcases mem_compared_or_isNamed mem tests with inside | ⟨named, rfl⟩
    · exact .inl inside
    · exact .inr (.inr (settles_of_tests tests (.inl named)))
  · rcases mem_compared_or_isNamed mem tests with inside | ⟨named, rfl⟩
    · exact .inr (.inl inside)
    · exact .inr (.inr (settles_of_tests tests (.inr named)))

/-- A condition that joins its comparisons settles all that it compares. -/
theorem settles_of_joins (compared : x ∈ e.compared validity) (joins : e.joins validity) :
    e.settles x validity.side := by
  fun_induction Expr.joins validity e with
  | case1 inner range ih =>
    obtain ⟨name, called, parent, mem, tests, rfl⟩ := mem_compared.1 compared
    simp only [preorder, mem_cons, Prod.mk.injEq, reduceCtorEq, false_and, false_or] at mem
    rcases mem_compared_or_isNamed mem tests with inside | ⟨-, rfl⟩
    · exact ih inside joins
    · cases tests
  | case2 left op right range decided ihLeft ihRight =>
    obtain ⟨ofLeft, ofRight⟩ := Bool.and_eq_true_iff.1 joins
    simp only [settles, decided, Bool.bne_not_self, Bool.true_or, Bool.true_and, Bool.not_not,
      Bool.or_eq_true]
    rcases mem_compared_binary compared with inLeft | inRight | ⟨undecided, -⟩
    · exact .inl (ihLeft inLeft ofLeft)
    · exact .inr (ihRight inRight ofRight)
    · cases decided.symm.trans undecided
  | case3 left op right range =>
    obtain ⟨ofLeft, ofRight⟩ := Bool.and_eq_true_iff.1 joins
    rcases mem_compared_binary compared with inLeft | inRight | ⟨-, settled⟩
    · exact absurd inLeft (isEmpty_iff.1 ofLeft ▸ not_mem_nil)
    · exact absurd inRight (isEmpty_iff.1 ofRight ▸ not_mem_nil)
    · exact settled
  | case4 e => exact absurd compared (isEmpty_iff.1 joins ▸ not_mem_nil)

end Expr

namespace Func

/-- What an `if` notes itself is about a variable that its condition compares with `invalid`. If the
condition settles this variable, it is not `invalid` on the side that the note speaks of. If it
joins its comparisons, it settles every variable that it notes. -/
theorem valid_of_noted (f : Func) (loopsBranch : Bool) {c : Closing} {i : If} {n : Narrowing}
    (closes : c ∈ (f.flow loopsBranch).closings) (site : c.closed.site = .stmt (.ifThen i))
    (noted : n ∈ c.closed.narrowings) (own : n.owner = c.closed.index) :
    Text.lower n.text ∈ i.condition.compared n.validity ∧
      (i.condition.settles (Text.lower n.text) n.validity.side → ∀ σ v, i.condition.Gives σ v →
        v.takes n.validity.side → σ (Text.lower n.text) ≠ .invalid) ∧
      (i.condition.joins n.validity →
        i.condition.settles (Text.lower n.text) n.validity.side) := by
  obtain ⟨visited, inOrder⟩ := f.bodyWalk_isTidy loopsBranch
  obtain ⟨last, stack, -, flow⟩ := f.flow_eq loopsBranch
  have honest : c.closed.IsHonest := by
    rw [flow] at closes
    rcases mem_append.1 closes with inner | outermost
    · exact (inOrder.closed c inner).honest
    · rw [mem_singleton.1 outermost]
      exact (inOrder.frames last (by simp [stack])).honest
  have compared := honest i site n noted own
  exact ⟨compared, fun settled σ v gives takes => gives.valid_of_settles takes settled,
    Expr.settles_of_joins compared⟩

def flag : Expr :=
  .var ⟨"c", .empty⟩ false

/-- A read under a condition that compares the variable with `invalid` and looks at the flag. -/
def testedRead (op : BinaryOp) : If :=
  let x := Expr.var ⟨"x", .empty⟩ false
  let tested := Expr.binary x .notEqual (.literal .invalid "invalid" .empty) .empty
  ⟨.binary tested op flag .empty, ⟨[.print [x] .empty], .empty⟩, .absent, .empty, false⟩

/-- The variable that is read is assigned only if the flag is set. -/
def readTested (op : BinaryOp) : Func :=
  let assigned := Block.mk [.assign ⟨⟨"x", .empty⟩, flag, .empty, none⟩] .empty
  .sub ["c"] [.ifThen ⟨flag, assigned, .absent, .empty, false⟩, .ifThen (testedRead op)]

theorem readTested_noted {op : BinaryOp} (connects : op = .and ∨ op = .or) :
    ∃ c ∈ ((readTested op).flow true).closings, c.closed.site = .stmt (.ifThen (testedRead op)) ∧
      c.closed.index = 4 ∧ c.closed.narrowings = [⟨"x", .empty, .valid, 4⟩] := by
  rcases connects with rfl | rfl
  · exact ⟨_, mem_of_getElem? (i := 3) rfl, rfl, rfl, by decide +kernel⟩
  · exact ⟨_, mem_of_getElem? (i := 3) rfl, rfl, rfl, by decide +kernel⟩

theorem valid_of_noted_testedAnd :
    ∃ c ∈ ((readTested .and).flow true).closings, ∃ n ∈ c.closed.narrowings,
      n.owner = c.closed.index ∧ n.validity = .valid ∧
      (testedRead .and).condition.joins n.validity ∧
      ∀ σ v, (testedRead .and).condition.Gives σ v → v.takes true →
        σ (Text.lower n.text) ≠ .invalid := by
  obtain ⟨c, closes, site, index, narrowings⟩ := readTested_noted (.inl rfl)
  have noted : ⟨"x", .empty, .valid, 4⟩ ∈ c.closed.narrowings :=
    narrowings ▸ mem_singleton_self _
  have joins : (testedRead .and).condition.joins .valid := by decide
  obtain ⟨-, valid, settled⟩ := valid_of_noted _ true closes site noted index.symm
  exact ⟨c, closes, _, noted, index.symm, rfl, joins, valid (settled joins)⟩

/-- With `or` the same note is made and the read is accepted, though the flag alone leads to it. -/
theorem invalid_though_noted_testedOr : ((readTested .or).flow true).findings = [] ∧
    ∃ c ∈ ((readTested .or).flow true).closings, c.closed.site = .stmt (.ifThen (testedRead .or)) ∧
      ∃ n ∈ c.closed.narrowings, n.owner = c.closed.index ∧ n.validity = .valid ∧
        ∃ σ, (testedRead .or).condition.Gives σ (.truth true) ∧ σ (Text.lower n.text) = .invalid := by
  obtain ⟨c, closes, site, index, narrowings⟩ := readTested_noted (.inr rfl)
  refine ⟨by decide +kernel, c, closes, site, _, narrowings ▸ mem_singleton_self _,
    index.symm, rfl, ?_⟩
  let σ := fun name : String => if name = "c" then Value.truth true else .invalid
  exact ⟨σ, .passed rfl (.compared rfl .var .literal fun _ => rfl) .var, rfl⟩

end Func

end ChannelLint
