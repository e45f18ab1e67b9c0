import ChannelLint.Proofs.Path

/-!
# The names of a function

The names of a function are its parameters and the names that its body reads and binds. Those of
the functions inside it are not among them.
-/
namespace ChannelLint

def Event.name : Event → Ident
  | .read name => name
  | .bind name _ => name

theorem map_name_readEvents (es : List Expr) : (readEvents es).map Event.name = readsOf es := by
  rw [readEvents, List.map_map]
  exact List.map_id _

/-- What an expression reads does not depend on where it stands. -/
theorem Expr.filterMap_preorder (e : Expr) (parent : Option Expr) :
    (e.preorder parent).filterMap nodeReads = e.reads := by
  cases e <;> rfl

/-- The names that the body of a function reads and binds, outside the functions in it. -/
def Func.uses (f : Func) : List Ident :=
  (eventsOf f.body.sites).map Event.name

def Func.paramNames (f : Func) : List Ident :=
  f.params.map (·.name)

def Func.names (f : Func) : List Ident :=
  f.paramNames ++ f.uses

/-- A function wherever it was declared. -/
def Func.unplaced (f : Func) : Func :=
  { f with nspace := none }

theorem Func.functions_eq (f : Func) :
    f.functions = f :: Param.functionsOf f.params ++ f.body.functions := by
  cases f
  rfl

end ChannelLint
