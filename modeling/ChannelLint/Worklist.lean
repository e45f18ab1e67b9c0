import ChannelLint.OrderedMap

/-!
# Visiting a graph

A graph gives to each of its names the names it leads to; a name that it does not hold leads
nowhere. `visit` walks it depth first, in the order of the lists, and enters no name twice. It ends
because a name of the graph is entered at most once: `remaining` shrinks with every such step.
-/
namespace ChannelLint.Worklist

/-- The names of the graph that are still to be entered. -/
def remaining (graph : OrderedMap (List String)) (seen : List String) : List String :=
  graph.keys.filter (· ∉ seen)

theorem length_filter_lt {α : Type} {p q : α → Bool} {a : α} :
    ∀ {l : List α}, (∀ x, q x = true → p x = true) → a ∈ l → p a = true → q a = false →
      (l.filter q).length < (l.filter p).length
  | [], _, h, _, _ => by simp at h
  | x :: l, sub, h, pa, qa => by
    have le : (l.filter q).length ≤ (l.filter p).length := by
      rw [← List.countP_eq_length_filter, ← List.countP_eq_length_filter]
      exact List.countP_mono_left fun x _ => sub x
    rcases List.mem_cons.1 h with rfl | h
    · simp only [List.filter_cons, qa, pa, Bool.false_eq_true, ↓reduceIte, List.length_cons]
      omega
    · have lt := length_filter_lt sub h pa qa
      by_cases px : p x = true
      · by_cases qx : q x = true <;> simp [px, qx] <;> omega
      · have qx : q x = false := by
          cases hq : q x with
          | false => rfl
          | true => exact absurd (sub x hq) px
        simpa [px, qx] using lt

theorem remaining_cons_le (graph : OrderedMap (List String)) (name : String) (seen : List String) :
    (remaining graph (name :: seen)).length ≤ (remaining graph seen).length := by
  unfold remaining
  rw [← List.countP_eq_length_filter, ← List.countP_eq_length_filter]
  refine List.countP_mono_left fun x _ h => ?_
  simp only [List.mem_cons, not_or, decide_eq_true_eq] at *
  exact h.2

theorem remaining_cons_lt {graph : OrderedMap (List String)} {name : String} {seen : List String}
    (held : name ∈ graph.keys) (unseen : name ∉ seen) :
    (remaining graph (name :: seen)).length < (remaining graph seen).length := by
  refine length_filter_lt (fun x h => ?_) held (by simpa using unseen) (by simp)
  simp only [List.mem_cons, not_or, decide_eq_true_eq] at *
  exact h.2

theorem mem_keys_of_find? {α : Type} {m : OrderedMap α} {name : String} {a : α}
    (h : m.find? name = some a) : name ∈ m.keys := by
  obtain ⟨entries⟩ := m
  simp only [OrderedMap.find?, OrderedMap.keys] at *
  induction entries with
  | nil => simp at h
  | cons entry rest ih =>
    obtain ⟨key, value⟩ := entry
    by_cases same : name == key
    · simp_all
    · simp only [List.lookup_cons, same] at h
      simp only [List.map_cons, List.mem_cons]
      exact Or.inr (ih h)

/-- The names that are entered, in order, when `stack` is to be visited and `seen` was entered
before. -/
def visit (graph : OrderedMap (List String)) (stack seen : List String) : List String :=
  match stack with
  | [] => []
  | name :: rest =>
    if _unseen : name ∈ seen then visit graph rest seen
    else
      match _held : graph.find? name with
      | none => name :: visit graph rest (name :: seen)
      | some next => name :: visit graph (next ++ rest) (name :: seen)
termination_by ((remaining graph seen).length, stack.length)
decreasing_by
  · exact Prod.Lex.right _ (by simp)
  · rcases Nat.lt_or_eq_of_le (remaining_cons_le graph name seen) with lt | eq
    · exact Prod.Lex.left _ _ lt
    · rw [eq]
      exact Prod.Lex.right _ (by simp)
  · exact Prod.Lex.left _ _ (remaining_cons_lt (mem_keys_of_find? _held) _unseen)

end ChannelLint.Worklist
