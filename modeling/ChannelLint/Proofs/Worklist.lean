import ChannelLint.Proofs.OrderedMap
import ChannelLint.Worklist

/-!
# What a visit reaches

A visit enters exactly the names that can be reached from its stack without passing a name that was
entered before. Both directions follow the recursion of the visit: the names that are barred grow by
the name that was entered last, and a path through that name is cut behind the last time it stands
on it.
-/
namespace ChannelLint

open List

/-- What is reached from some roots when no barred name may be entered. -/
inductive Reached (leads : String → String → Prop) (barred roots : List String) : String → Prop
  | root {name : String} : name ∈ roots → name ∉ barred → Reached leads barred roots name
  | step {name next : String} : Reached leads barred roots name → leads name next →
      next ∉ barred → Reached leads barred roots next

namespace Reached

variable {leads leads' : String → String → Prop} {barred roots : List String} {name : String}

theorem mono (sub : ∀ a b, leads a b → leads' a b) (reached : Reached leads barred roots name) :
    Reached leads' barred roots name := by
  induction reached with
  | root isRoot allowed => exact .root isRoot allowed
  | step _ edge allowed ih => exact .step ih (sub _ _ edge) allowed

/-- Only roots that may be entered count. -/
theorem of_roots {roots' : List String} (sub : ∀ root ∈ roots, root ∉ barred → root ∈ roots')
    (reached : Reached leads barred roots name) : Reached leads barred roots' name := by
  induction reached with
  | root isRoot allowed => exact .root (sub _ isRoot allowed) allowed
  | step _ edge allowed ih => exact .step ih edge allowed

theorem congr (same : ∀ a b, leads a b ↔ leads' a b) :
    Reached leads barred roots name ↔ Reached leads' barred roots name :=
  ⟨mono fun a b => (same a b).1, mono fun a b => (same a b).2⟩

end Reached

namespace Worklist

/-- A name of the graph leads to another one. -/
def Leads (graph : OrderedMap (List String)) (name next : String) : Prop :=
  ∃ nexts, graph.find? name = some nexts ∧ next ∈ nexts

variable {graph : OrderedMap (List String)} {seen stack rest : List String} {name top : String}

/-- What is reached behind a name that is entered now is reached from that name. -/
theorem reached_of_entered (unseen : top ∉ seen) {roots : List String}
    (sound : ∀ root ∈ roots, Leads graph top root ∨ root ∈ rest)
    (reached : Reached (Leads graph) (top :: seen) roots name) :
    Reached (Leads graph) seen (top :: rest) name := by
  have entered : Reached (Leads graph) seen (top :: rest) top :=
    .root mem_cons_self unseen
  induction reached with
  | root isRoot allowed =>
    have allowed := (ne_and_not_mem_of_not_mem_cons allowed).2
    cases sound _ isRoot with
    | inl edge => exact .step entered edge allowed
    | inr inRest => exact .root (mem_cons_of_mem _ inRest) allowed
  | step _ edge allowed ih => exact .step ih edge (ne_and_not_mem_of_not_mem_cons allowed).2

/-- A path that may pass `top` ends there, or goes on behind the last time it stands there. -/
theorem reached_or_entered {roots : List String}
    (complete : ∀ next, Leads graph top next → next ∈ roots) (inRest : ∀ next ∈ rest, next ∈ roots)
    (reached : Reached (Leads graph) seen (top :: rest) name) :
    name = top ∨ Reached (Leads graph) (top :: seen) roots name := by
  induction reached with
  | @root name isRoot allowed =>
    by_cases same : name = top
    · exact .inl same
    · have other : name ∈ rest := (mem_cons.1 isRoot).resolve_left same
      exact .inr (.root (inRest name other) (not_mem_cons_of_ne_of_not_mem same allowed))
  | @step before name _ edge allowed ih =>
    by_cases same : name = top
    · exact .inl same
    · have allowed : name ∉ top :: seen := not_mem_cons_of_ne_of_not_mem same allowed
      cases ih with
      | inl atTop => exact .inr (.root (complete name (atTop ▸ edge)) allowed)
      | inr reached => exact .inr (.step reached edge allowed)

/-- A visit enters exactly what is reached from its stack without entering a seen name. -/
theorem mem_visit_iff (graph : OrderedMap (List String)) (stack seen : List String)
    (name : String) : name ∈ visit graph stack seen ↔ Reached (Leads graph) seen stack name := by
  fun_induction visit graph stack seen with
  | case1 seen =>
    constructor
    · exact fun member => absurd member not_mem_nil
    · intro reached
      induction reached with
      | root isRoot _ => exact isRoot
      | step _ _ _ ih => exact absurd ih not_mem_nil
  | case2 seen top rest isSeen ih =>
    rw [ih]
    constructor
    · exact Reached.of_roots fun _ inRest _ => mem_cons_of_mem _ inRest
    · refine Reached.of_roots fun root isRoot allowed => ?_
      have other : root ≠ top := fun same => allowed (same ▸ isSeen)
      exact (mem_cons.1 isRoot).resolve_left other
  | case3 seen top rest unseen missing ih =>
    have nowhere (next : String) : ¬ Leads graph top next := by
      rintro ⟨nexts, found, -⟩
      rw [missing] at found
      cases found
    rw [mem_cons, ih]
    constructor
    · rintro (rfl | reached)
      · exact .root mem_cons_self unseen
      · exact reached_of_entered unseen (fun _ inRest => .inr inRest) reached
    · exact reached_or_entered (fun next edge => absurd edge (nowhere next)) fun _ inRest => inRest
  | case4 seen top rest unseen nexts found ih =>
    rw [mem_cons, ih]
    constructor
    · rintro (rfl | reached)
      · exact .root mem_cons_self unseen
      · refine reached_of_entered unseen (fun root isRoot => ?_) reached
        exact (mem_append.1 isRoot).imp_left fun inNexts => ⟨nexts, found, inNexts⟩
    · refine reached_or_entered (fun next edge => ?_) fun _ => mem_append_right _
      obtain ⟨others, found', isNext⟩ := edge
      rw [found, Option.some.injEq] at found'
      exact mem_append_left _ (found' ▸ isNext)

end Worklist

end ChannelLint
