import ChannelLint.Proofs.Naming.Deferred

/-!
# The namespaces of functions

Placing a declaration notes its namespace in the functions that it names: a declared function, or
the methods of a class. The functions without a name inside it, in default values, bodies and
fields, are in no namespace, wherever they stand. A deferred use has the namespace of the function
that it stands in.
-/
namespace ChannelLint

open List

variable {f : Func} {outer : Option String}

/-- The functions in the default values and in the body of a function. -/
def Func.inner (f : Func) : List Func :=
  Param.functionsOf f.params ++ f.body.functions

namespace ClassMember

def declared : ClassMember → List Func
  | method _ func => [func]
  | field .. => []

def anonymous : ClassMember → List Func
  | method _ func => func.inner
  | field _ _ value _ => Expr.functionsOf? value

end ClassMember

namespace Decl

/-- The functions that a declaration names. -/
def declared : Decl → List Func
  | .function _ func => [func]
  | .class decl => decl.members.flatMap (·.declared)
  | _ => []

/-- The functions inside a declaration that have no name. -/
def anonymous : Decl → List Func
  | .function _ func => func.inner
  | .class decl => decl.members.flatMap (·.anonymous)
  | _ => []

end Decl

theorem Func.mem_functions_place {g : Func} : f ∈ ({ g with nspace := outer } : Func).functions ↔
      f = { g with nspace := outer } ∨ f ∈ g.inner := by
  rw [Func.functions_eq, cons_append, mem_cons]
  rfl

theorem ClassMember.mem_functions_place {m : ClassMember} : f ∈ (m.place outer).functions ↔
      (∃ g ∈ m.declared, f = { g with nspace := outer }) ∨ f ∈ m.anonymous := by
  cases m with
  | method name func => simpa [place, functions, declared, anonymous] using Func.mem_functions_place
  | field name type value range => simp [place, functions, declared, anonymous]

/-- The functions of a placed declaration: those that it names, in its namespace, and the others as
they were read. -/
theorem Decl.mem_functions_place {d : Decl} : f ∈ (d.place outer).functions ↔
      (∃ g ∈ d.declared, f = { g with nspace := outer }) ∨ f ∈ d.anonymous := by
  cases d with
  | function name func => simpa [place, functions, declared, anonymous] using Func.mem_functions_place
  | «class» decl =>
    simp only [place, functions, declared, anonymous, flatMap_map, mem_flatMap,
      ClassMember.mem_functions_place, and_or_left, exists_or]
    refine or_congr_left ?_
    grind
  | _ => simp [place, functions, declared, anonymous]

/-- The functions without a name are functions of the declaration as it was read. -/
theorem Decl.anonymous_subset (d : Decl) : d.anonymous ⊆ d.functions := by
  intro f inside
  have inFunction {g : Func} (inside : f ∈ g.inner) : f ∈ g.functions := by
    rw [Func.functions_eq, cons_append]
    exact mem_cons_of_mem _ inside
  cases d with
  | function name func => exact inFunction inside
  | «class» decl =>
    obtain ⟨m, isMember, inside⟩ := mem_flatMap.1 inside
    refine mem_flatMap.2 ⟨m, isMember, ?_⟩
    cases m with
    | method name func => exact inFunction inside
    | field => exact inside
  | _ => cases inside

theorem namespaceOf_eq_none {segments : List String} :
    namespaceOf segments = none ↔ segments = [] := by
  unfold namespaceOf
  split <;> simp [*]

namespace Script

/-- A deferred use stands in a function, and has its namespace. -/
theorem exists_function_of_deferred {s : Script} {loopsBranch : Bool} {d : DeferredUse}
    (member : d ∈ (s.flow loopsBranch).deferred) :
    ∃ f ∈ s.functions, d.use.ident ∈ f.uses ∧ d.nspace = f.nspace := by
  simp only [flow, flatMap_map, mem_flatMap, Func.deferredUses, mem_map] at member
  obtain ⟨f, isFunction, use, isFree, rfl⟩ := member
  exact ⟨f, isFunction, ((f.flow_respell .uncase loopsBranch).uses use isFree).1, rfl⟩

/-- The functions of a script are those of its declarations. A function that a declaration names has
the dotted name of the namespaces around it, in lower case, and none exactly if there are none. All
other functions have none. A deferred use has the namespace of its function. -/
theorem nspace_of_functions {source path pkgPath : String} {s : Script}
    (read : Script.read source path pkgPath = .ok s) (loopsBranch : Bool) :
    (∀ f, f ∈ s.functions ↔ ∃ l ∈ s.located,
      (∃ g ∈ l.2.declared, f = { g with nspace := namespaceOf l.1 }) ∨ f ∈ l.2.anonymous) ∧
    (∀ l ∈ s.located, ∀ f ∈ l.2.anonymous, f.nspace = none) ∧
    (∀ l ∈ s.located, namespaceOf l.1 = none ↔ l.1 = []) ∧
    ∀ d ∈ (s.flow loopsBranch).deferred, ∃ f ∈ s.functions,
      d.use.ident ∈ f.uses ∧ d.nspace = f.nspace := by
  have placed := placed_of_read read
  refine ⟨fun f => ?_, fun l isLocated f inside => ?_, fun l _ => namespaceOf_eq_none,
    fun d member => exists_function_of_deferred member⟩
  · rw [functions, placed.allDecls, flatMap_map, mem_flatMap]
    simp only [Decl.mem_functions_place]
  · exact (placed.asRead l isLocated f (l.2.anonymous_subset inside)).nspace

/-- Functions with and without a name, at the top and inside two namespaces. -/
def nestedFunctions : String :=
  "sub top(k = sub() : end sub)\nend sub\nnamespace App\nnamespace Net.IO\nclass C\n" ++
    "f = sub() : end sub\nsub m()\nprint lost\nend sub\nend class\nend namespace\nend namespace\n"

theorem nspace_of_functions_nestedFunctions : ∃ s, Script.read nestedFunctions "a.brs" "" = .ok s ∧
      s.functions.map (·.nspace) = [none, none, none, some "app.net.io"] ∧
      (s.flow true).deferred.map (fun d => (d.use.name, d.nspace)) =
        [("lost", some "app.net.io")] ∧
      (∀ f, f ∈ s.functions ↔ ∃ l ∈ s.located,
        (∃ g ∈ l.2.declared, f = { g with nspace := namespaceOf l.1 }) ∨ f ∈ l.2.anonymous) := by
  have computed : (Script.read nestedFunctions "a.brs" "").toOption.map (fun s =>
      (s.functions.map (·.nspace),
        (s.flow true).deferred.map fun d => (d.use.name, d.nspace))) =
      some ([none, none, none, some "app.net.io"], [("lost", some "app.net.io")]) := by
    decide +kernel
  obtain ⟨s, read, facts⟩ := exists_ok_of_map_toOption computed
  obtain ⟨nspaces, deferred⟩ := Prod.mk.inj facts
  exact ⟨s, read, nspaces, deferred, (nspace_of_functions read true).1⟩

/-- A function without a name that is written inside a namespace, and a name that it reads. -/
def namelessInNamespace : String :=
  "namespace A\nsub f()\n  g = function()\n    print helper()\n  end function\n  g()\nend sub\n" ++
    "end namespace\n"

/-- Neither the function nor the use in it has the namespace around it. -/
theorem no_nspace_namelessInNamespace : ∃ s, Script.read namelessInNamespace "a.brs" "" = .ok s ∧
      s.located.map (fun l => (l.1, l.2.anonymous.map (·.nspace))) =
        [([], []), (["A"], [none])] ∧
      (s.flow true).deferred.map (fun d => (d.use.name, d.nspace)) = [("helper", none)] := by
  have computed : (Script.read namelessInNamespace "a.brs" "").toOption.map (fun s =>
      (s.located.map (fun l => (l.1, l.2.anonymous.map (·.nspace))),
        (s.flow true).deferred.map fun d => (d.use.name, d.nspace))) =
      some ([([], []), (["A"], [none])], [("helper", none)]) := by
    decide +kernel
  obtain ⟨s, read, facts⟩ := exists_ok_of_map_toOption computed
  exact ⟨s, read, Prod.mk.inj facts⟩

end Script

end ChannelLint
