import ChannelLint.OrderedMap
import Mathlib

/-!
# Facts about ordered maps

What the operations do to a look-up. Removing entries and looking one up commute only if no key
occurs twice; every operation keeps that.
-/
namespace ChannelLint.OrderedMap

open List

variable {α β : Type}

variable {key : String} {value : α} {entries : List (String × α)} {m : OrderedMap α} {view : α → β}

theorem find?_insert (m : OrderedMap α) (key other : String) (value : α) :
    (m.insert key value).find? other = if other = key then some value else m.find? other := by
  obtain ⟨entries⟩ := m
  show (insertEntry key value entries).lookup other = if _ then _ else entries.lookup other
  induction entries with
  | nil => grind [insertEntry]
  | cons entry rest ih => grind [insertEntry]

theorem find?_insert_eq_some (m : OrderedMap α) (key other : String) (value found : α) :
    (m.insert key value).find? other = some found ↔
      other = key ∧ value = found ∨ other ≠ key ∧ m.find? other = some found := by
  rw [find?_insert]
  split <;> simp [*]

@[simp] theorem find?_insert_self (m : OrderedMap α) (key : String) (value : α) :
    (m.insert key value).find? key = some value := by
  rw [find?_insert, if_pos rfl]

theorem find?_insert_of_ne (m : OrderedMap α) {key other : String} (differs : other ≠ key)
    (value : α) : (m.insert key value).find? other = m.find? other := by
  rw [find?_insert, if_neg differs]

theorem mem_insertEntry {entry : String × α} (member : entry ∈ insertEntry key value entries) :
    entry = (key, value) ∨ entry ∈ entries := by
  induction entries with
  | nil => simpa [insertEntry] using member
  | cons head rest ih =>
    unfold insertEntry at member
    split at member
    · rcases mem_cons.1 member with same | inRest
      · exact .inl same
      · exact .inr (mem_cons_of_mem _ inRest)
    · rcases mem_cons.1 member with same | inRest
      · exact .inr (same ▸ mem_cons_self)
      · exact (ih inRest).imp_right (mem_cons_of_mem _)

theorem keys_insertEntry (key : String) (value : α) (entries : List (String × α)) :
    (insertEntry key value entries).map (·.1) =
      if key ∈ entries.map (·.1) then entries.map (·.1) else entries.map (·.1) ++ [key] := by
  induction entries with
  | nil => rfl
  | cons head rest ih =>
    unfold insertEntry
    by_cases same : head.1 = key
    · simp [same]
    · have other : ¬ key = head.1 := fun h => same h.symm
      simp only [beq_iff_eq, same, ↓reduceIte, map_cons, ih, mem_cons, other, false_or]
      split <;> rfl

/-- A key keeps its place; a new one goes to the end. -/
theorem keys_insert (m : OrderedMap α) (key : String) (value : α) :
    (m.insert key value).keys = if key ∈ m.keys then m.keys else m.keys ++ [key] :=
  keys_insertEntry key value m.entries

theorem keys_insert_nodup (distinct : m.keys.Nodup) (key : String) (value : α) :
    (m.insert key value).keys.Nodup := by
  rw [keys_insert]
  split
  · exact distinct
  · next isNew => rwa [← concat_eq_append, nodup_concat, and_iff_right isNew]

theorem lookup_map (f : α → β) (key : String) (entries : List (String × α)) :
    (entries.map fun (k, v) => (k, f v)).lookup key = (entries.lookup key).map f := by
  induction entries with
  | nil => rfl
  | cons entry rest ih =>
    obtain ⟨k, v⟩ := entry
    simp only [map_cons, List.lookup]
    split <;> simp_all

@[simp] theorem find?_map (m : OrderedMap α) (f : α → β) (key : String) :
    (m.map f).find? key = (m.find? key).map f :=
  lookup_map f key m.entries

@[simp] theorem keys_map (m : OrderedMap α) (f : α → β) : (m.map f).keys = m.keys := by
  simp [keys, map]

/-- A view that turns one change into another. -/
theorem modify_map (m : OrderedMap α) (key : String) {f : α → α} {g : β → β}
    (turns : ∀ v, g (view v) = view (f v)) :
    (m.map view).modify key g = (m.modify key f).map view := by
  simp only [map, modify, map_map, mk.injEq]
  apply map_congr_left
  rintro ⟨k, v⟩ _
  dsimp only [Function.comp]
  split
  · rw [turns]
  · rfl

/-- A change that a view does not see. -/
theorem map_modify (m : OrderedMap α) (key : String) {f : α → α}
    (hidden : ∀ v, view (f v) = view v) : (m.modify key f).map view = m.map view := by
  rw [← modify_map m key (g := id) fun v => (hidden v).symm]
  simp [modify]

theorem lookup_modify {κ : Type} [BEq κ] [LawfulBEq κ] [DecidableEq κ] (entries : List (κ × α))
    (key other : κ) (f : α → α) :
    (entries.map fun (k, v) => if k == key then (k, f v) else (k, v)).lookup other =
      if other = key then (entries.lookup other).map f else entries.lookup other := by
  induction entries with
  | nil => simp
  | cons entry rest ih =>
    obtain ⟨k, v⟩ := entry
    simp only [map_cons, beq_iff_eq, lookup_cons] at ih ⊢
    split <;> grind

theorem find?_modify (m : OrderedMap α) (key other : String) (f : α → α) :
    (m.modify key f).find? other = if other = key then (m.find? other).map f else m.find? other :=
  lookup_modify m.entries key other f

theorem entries_insert (isNew : key ∉ m.keys) (value : α) :
    (m.insert key value).entries = m.entries ++ [(key, value)] := by
  obtain ⟨entries⟩ := m
  show insertEntry key value entries = _
  induction entries with
  | nil => rfl
  | cons entry rest ih =>
    simp only [keys, map_cons, mem_cons, not_or] at isNew
    rw [insertEntry, if_neg (by simpa using Ne.symm isNew.1), ih isNew.2]
    rfl

theorem mem_of_lookup (found : entries.lookup key = some value) : (key, value) ∈ entries := by
  obtain ⟨before, behind, rfl, -⟩ := lookup_eq_some_iff.1 found
  simp

theorem mem_of_find? (found : m.find? key = some value) : (key, value) ∈ m.entries :=
  mem_of_lookup found

theorem find?_of_mem (distinct : m.keys.Nodup) (member : (key, value) ∈ m.entries) :
    m.find? key = some value := by
  obtain ⟨before, behind, split⟩ := mem_iff_append.1 member
  rw [keys, split, map_append, map_cons, nodup_append] at distinct
  refine lookup_eq_some_iff.2 ⟨before, behind, split, fun entry inFront => ?_⟩
  exact bne_iff_ne.2 (distinct.2.2 _ (mem_map_of_mem inFront) _ mem_cons_self).symm

theorem find?_eq_none_iff (m : OrderedMap α) (key : String) :
    m.find? key = none ↔ key ∉ m.keys := by
  simp [find?, keys, lookup_eq_none_iff]
  grind

theorem contains_iff_mem_keys (m : OrderedMap α) (key : String) :
    m.contains key = true ↔ key ∈ m.keys := by
  rw [contains, Option.isSome_iff_ne_none, ne_eq, find?_eq_none_iff, Decidable.not_not]

theorem keys_filter_nodup (distinct : m.keys.Nodup) (p : String → α → Bool) :
    (m.filter p).keys.Nodup :=
  List.Nodup.sublist (List.Sublist.map _ filter_sublist) distinct

theorem find?_filter (distinct : m.keys.Nodup) (p : String → α → Bool) (key : String) :
    (m.filter p).find? key = (m.find? key).filter (p key) := by
  refine Option.ext fun value => ?_
  rw [Option.filter_eq_some_iff]
  refine ⟨fun found => ?_, fun ⟨found, accepted⟩ => ?_⟩
  · obtain ⟨member, accepted⟩ := mem_filter.1 (mem_of_find? found)
    exact ⟨find?_of_mem distinct member, accepted⟩
  · exact find?_of_mem (keys_filter_nodup distinct p)
      (mem_filter.2 ⟨mem_of_find? found, accepted⟩)

/-- Adding to a list what it does not hold yet. -/
theorem mem_foldl_keep [BEq α] [LawfulBEq α] (names known : List α) (name : α) :
    name ∈ names.foldl (fun known a => if known.contains a then known else known ++ [a]) known ↔
      name ∈ known ∨ name ∈ names := by
  induction names generalizing known with
  | nil => simp
  | cons first rest ih =>
    rw [foldl_cons, ih]
    split <;> grind

/-! ## Views of a changed map -/

theorem map_insertEntry (f : α → β) (key : String) (value : α) (entries : List (String × α)) :
    (insertEntry key value entries).map (fun (k, v) => (k, f v)) =
      insertEntry key (f value) (entries.map fun (k, v) => (k, f v)) := by
  induction entries with
  | nil => rfl
  | cons entry rest ih =>
    simp only [insertEntry, map_cons]
    split
    · rfl
    · rw [map_cons, ih]

@[simp] theorem map_insert (m : OrderedMap α) (f : α → β) (key : String) (value : α) :
    (m.insert key value).map f = (m.map f).insert key (f value) := by
  simp only [map, insert, map_insertEntry]

@[simp] theorem map_map {γ : Type} (m : OrderedMap α) (f : α → β) (g : β → γ) :
    (m.map f).map g = m.map (g ∘ f) := by
  simp only [map, List.map_map, mk.injEq]
  rfl

@[simp] theorem values_map (m : OrderedMap α) (f : α → β) : (m.map f).values = m.values.map f := by
  simp only [values, map, List.map_map]
  rfl

@[simp] theorem contains_map (m : OrderedMap α) (f : α → β) (key : String) :
    (m.map f).contains key = m.contains key := by
  simp [contains]

theorem filter_map (m : OrderedMap α) {p : String → α → Bool} {q : String → β → Bool}
    (same : ∀ k v, q k (view v) = p k v) : (m.map view).filter q = (m.filter p).map view := by
  simp only [map, filter, List.filter_map, mk.injEq]
  congr 1
  apply List.filter_congr
  rintro ⟨k, v⟩ _
  exact same k v

end ChannelLint.OrderedMap
