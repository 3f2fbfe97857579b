import ModGraph.Graph

/-!
# The module cache

Modules are cached under their keys in three partitions. Two are committed: the one that legacy modules
see, and the one of declarative modules that keep to themselves. The third, discovery, holds modules
whose format is not known yet; they move on to a committed partition or are dropped.

A slot says how far a module is: being compiled, ready, or poisoned by the error with which its
compilation ended.
-/

namespace ModGraph

/-- A part of the cache. -/
inductive Partition where
  /-- What legacy modules see. -/
  | legacy
  /-- Declarative modules that legacy modules do not see. -/
  | declarative
  /-- Modules whose format is not known yet. -/
  | discovery
deriving DecidableEq, Repr, Inhabited

namespace Partition

/-- The name of a partition. -/
def name : Partition → String
  | legacy => "legacy"
  | declarative => "declarative"
  | discovery => "discovery"

/-- Whether a failure poisons the slots of a partition. -/
def isCommitted : Partition → Bool
  | discovery => false
  | _ => true

/-- All partitions, in the order in which they are searched and shown. -/
def all : List Partition := [legacy, declarative, discovery]

end Partition

/-- How far a module is. -/
inductive Slot where
  /-- It is being compiled; who asks for it sees what there is. -/
  | loading (id : EntryId)
  /-- It is compiled, or parsed. -/
  | ready (id : EntryId)
  /-- Its compilation failed. -/
  | poisoned (e : LoadError)
deriving DecidableEq, Repr, Inhabited

namespace Slot

/-- The entry of a slot, or its error. -/
def entry : Slot → Except LoadError EntryId
  | loading id => .ok id
  | ready id => .ok id
  | poisoned e => .error e

/-- The entry of a slot that has one. -/
def entry? : Slot → Option EntryId
  | loading id => some id
  | ready id => some id
  | poisoned _ => none

/-- Whether the module is being compiled. -/
def isLoading : Slot → Bool
  | loading _ => true
  | _ => false

/-- Whether the slot holds an error. -/
def isPoisoned : Slot → Bool
  | poisoned _ => true
  | _ => false

/-- The slot when the compilation is over. -/
def finish : Slot → Slot
  | loading id => ready id
  | slot => slot

end Slot

/-- The module cache. -/
structure Cache where
  /-- The slots that legacy modules see. -/
  legacy : Table String Slot
  /-- The slots of declarative modules that keep to themselves. -/
  declarative : Table String Slot
  /-- The slots of modules whose format is not known yet. -/
  discovery : Table String Slot
  /-- The entries of builtin modules, by name. -/
  builtins : Table String EntryId
  /-- The main module. -/
  main? : Option EntryId
  /-- The main module as far as legacy modules see it. -/
  legacyMain? : Option EntryId
  /-- Whether a parse-only pass is running. -/
  parsing : Bool
deriving Inhabited

namespace Cache

/-- Nothing is cached. -/
def empty : Cache := ⟨.empty, .empty, .empty, .empty, none, none, false⟩

/-- The slots of a partition. -/
def slots (c : Cache) : Partition → Table String Slot
  | .legacy => c.legacy
  | .declarative => c.declarative
  | .discovery => c.discovery

/-- Replace the slots of a partition. -/
def withSlots (c : Cache) (p : Partition) (slots : Table String Slot) : Cache :=
  match p with
  | .legacy => { c with legacy := slots }
  | .declarative => { c with declarative := slots }
  | .discovery => { c with discovery := slots }

@[simp] theorem slots_withSlots_self (c : Cache) (p : Partition) (slots : Table String Slot) :
    (c.withSlots p slots).slots p = slots := by
  cases p <;> rfl

theorem slots_withSlots_of_ne (c : Cache) {p q : Partition} (slots : Table String Slot) (h : p ≠ q) :
    (c.withSlots p slots).slots q = c.slots q := by
  cases p <;> cases q <;> simp_all [withSlots, Cache.slots]

/-! ### Slots -/

/-- The slot of a key in a partition. -/
def get? (c : Cache) (p : Partition) (key : String) : Option Slot := (c.slots p).get? key

/-- Whether a partition has a slot for a key. -/
def has (c : Cache) (p : Partition) (key : String) : Bool := (c.slots p).contains key

/-- Put a slot into a partition. -/
def set (c : Cache) (p : Partition) (key : String) (slot : Slot) : Cache :=
  c.withSlots p ((c.slots p).insert key slot)

/-- Take a slot out of a partition. -/
def delete (c : Cache) (p : Partition) (key : String) : Cache :=
  c.withSlots p ((c.slots p).erase key)

theorem get?_set_self (c : Cache) (p : Partition) (key : String) (slot : Slot) :
    (c.set p key slot).get? p key = some slot := by
  simp [set, get?]

theorem get?_set (c : Cache) (p q : Partition) (key k : String) (slot : Slot) :
    (c.set p key slot).get? q k = if p = q ∧ key = k then some slot else c.get? q k := by
  by_cases h : p = q
  · subst h
    simp [set, get?, Table.get?_insert]
  · simp [set, get?, slots_withSlots_of_ne, h]

theorem get?_delete (c : Cache) (p q : Partition) (key k : String) :
    (c.delete p key).get? q k = if p = q ∧ key = k then none else c.get? q k := by
  by_cases h : p = q
  · subst h
    simp [delete, get?, Table.get?_erase]
  · simp [delete, get?, slots_withSlots_of_ne, h]

/-! ### The life of a slot -/

/-- Mark a module as compiled. -/
def finish (c : Cache) (p : Partition) (key : String) : Cache :=
  match c.get? p key with
  | some slot => c.set p key slot.finish
  | none => c

/-- Move a slot from discovery to another partition, and give its entry. A poisoned slot is dropped. -/
def commit (c : Cache) (key : String) (p : Partition) : Cache × Option EntryId :=
  match c.get? .discovery key with
  | none => (c, none)
  | some slot =>
    let c := c.delete .discovery key
    match slot.entry? with
    | none => (c, none)
    | some id => (c.set p key slot, some id)

/-- Drop a slot of discovery. -/
def rollback (c : Cache) (key : String) : Cache := c.delete .discovery key

/-- Replace a slot by the error with which its compilation ended. -/
def poison (c : Cache) (p : Partition) (key : String) (e : LoadError) : Cache :=
  c.set p key (.poisoned e)

/-- Whether any partition has a slot for a key. -/
def hasAny (c : Cache) (key : String) : Bool := Partition.all.any fun p => c.has p key

/-- Drop a key from every partition. -/
def invalidate (c : Cache) (key : String) : Cache :=
  Partition.all.foldl (fun c p => c.delete p key) c

/-- Drop every slot and forget the main module. -/
def clear (c : Cache) : Cache :=
  { c with legacy := .empty, declarative := .empty, discovery := .empty, main? := none,
           legacyMain? := none }

/-- Store the entry of a builtin module. -/
def setBuiltin (c : Cache) (name : String) (id : EntryId) : Cache :=
  { c with builtins := c.builtins.insert name id }

/-! ### Views -/

/-- Texts in their order. -/
def sorted (keys : List String) : List String := keys.mergeSort fun a b => decide (a ≤ b)

/-- The keys of a partition, in order. -/
def keys (c : Cache) (p : Partition) : List String := sorted (c.slots p).keys

/-- The number of slots in a partition. -/
def length (c : Cache) (p : Partition) : Nat := (c.slots p).size

/-- Whether no partition has a slot. -/
def isEmpty (c : Cache) : Bool := Partition.all.all fun p => c.length p == 0

/-- The keys of poisoned slots, in order. A key that is poisoned in two partitions comes twice. -/
def poisonedKeys (c : Cache) : List String :=
  sorted (Partition.all.flatMap fun p =>
    ((c.slots p).entries.filter fun e => e.2.isPoisoned).map (·.1))

/-- The entries that the cache owns. -/
def owned (c : Cache) : List EntryId :=
  (Partition.all.flatMap fun p => (c.slots p).values.filterMap Slot.entry?)
    ++ c.builtins.values ++ c.main?.toList ++ c.legacyMain?.toList

end Cache

end ModGraph
