/-!
# Maps that remember insertion order

A map from texts to values. A key keeps the place where it was first inserted; a key that was
erased and is inserted again goes to the end.
-/
namespace ChannelLint

structure OrderedMap (α : Type) where
  entries : List (String × α)
  deriving DecidableEq, Repr

namespace OrderedMap

variable {α β : Type}

def empty : OrderedMap α := ⟨[]⟩

instance : EmptyCollection (OrderedMap α) := ⟨empty⟩

instance : Inhabited (OrderedMap α) := ⟨empty⟩

def isEmpty (m : OrderedMap α) : Bool :=
  m.entries.isEmpty

def find? (m : OrderedMap α) (key : String) : Option α :=
  m.entries.lookup key

def contains (m : OrderedMap α) (key : String) : Bool :=
  (m.find? key).isSome

def keys (m : OrderedMap α) : List String :=
  m.entries.map (·.1)

def values (m : OrderedMap α) : List α :=
  m.entries.map (·.2)

/-- Replaces the value of a key in its place, or adds the key at the end. -/
def insertEntry (key : String) (value : α) : List (String × α) → List (String × α)
  | [] => [(key, value)]
  | entry :: rest =>
    if entry.1 == key then (key, value) :: rest else entry :: insertEntry key value rest

def insert (m : OrderedMap α) (key : String) (value : α) : OrderedMap α :=
  ⟨insertEntry key value m.entries⟩

def erase (m : OrderedMap α) (key : String) : OrderedMap α :=
  ⟨m.entries.filter (·.1 != key)⟩

/-- Changes the value of a key; a missing key stays missing. -/
def modify (m : OrderedMap α) (key : String) (f : α → α) : OrderedMap α :=
  ⟨m.entries.map fun (k, v) => if k == key then (k, f v) else (k, v)⟩

def map (f : α → β) (m : OrderedMap α) : OrderedMap β :=
  ⟨m.entries.map fun (k, v) => (k, f v)⟩

def filter (p : String → α → Bool) (m : OrderedMap α) : OrderedMap α :=
  ⟨m.entries.filter fun (k, v) => p k v⟩

/-- Inserts the pairs from left to right. -/
def ofList (pairs : List (String × α)) : OrderedMap α :=
  pairs.foldl (fun m (k, v) => m.insert k v) empty

/-- Every entry of `other` over those of `m`. -/
def merge (m other : OrderedMap α) : OrderedMap α :=
  other.entries.foldl (fun m (k, v) => m.insert k v) m

end OrderedMap

end ChannelLint
