import ModGraph.Format
import ModGraph.Json.Value
import ModGraph.Package.Context

/-!
# The module graph

Modules and how they hang together. An entry is a module with its place in the graph: the entry that
first asked for it, and the entries that it asked for, by request. A graph only grows; its entries are
numbered in the order in which they were made, and an `EntryId` stays good for ever.

An entry lives as long as something owns it: the outside, or the children of an entry that lives
(`Graph.alive`). The link to the parent does not own, so `Graph.parent?` shows it only while the parent
lives.
-/

namespace ModGraph

open Json (Value)

/-- The number of an entry. -/
abbrev EntryId := Nat

/-- A module. -/
structure Module where
  /-- The module's name: its cache key, or a point for the main module. -/
  id : String
  /-- The module's file. -/
  filename : Path
  /-- What the module exports. -/
  exports : Value
  /-- Whether the module was evaluated to its end. -/
  loaded : Bool
  /-- The folders in which the module's packages are looked up. -/
  paths : List Path
deriving Repr, Inhabited

/-- A module with its place in the graph. -/
structure Entry where
  /-- The key under which the module is cached. -/
  key : String
  /-- The module's format. -/
  format : Format
  /-- Whether the module went through a parse-only pass. -/
  parsed : Bool
  /-- The module. -/
  module : Module
  /-- The package that the module's file belongs to. -/
  package : PackageContext
  /-- The entry that first asked for the module. -/
  parent : Option EntryId
  /-- The entries that the module asked for, by request. -/
  children : Table String EntryId
deriving Inhabited

namespace Entry

/-- A module that was not evaluated yet. -/
def new (key : String) (filename : Path) (format : Format) (package : PackageContext) : Entry where
  key := key
  format := format
  parsed := false
  module := { id := key, filename := filename, exports := .object [], loaded := false, paths := [] }
  package := package
  parent := none
  children := .empty

/-- Whether the module was evaluated to its end. -/
def isLoaded (e : Entry) : Bool := e.module.loaded

/-- Change the module's format. The format of a loaded module is fixed. -/
def setFormat (e : Entry) (format : Format) : Entry :=
  if e.isLoaded then e else { e with format := format }

/-- Say whether the module was evaluated to its end. -/
def setLoaded (e : Entry) (loaded : Bool) : Entry := { e with module := { e.module with loaded := loaded } }

/-- Replace what the module exports. -/
def setExports (e : Entry) (v : Value) : Entry := { e with module := { e.module with exports := v } }

/-- Export a value under a name. -/
def setExport (e : Entry) (name : String) (v : Value) : Entry := e.setExports (e.module.exports.set name v)

/-- Replace the folders in which the module's packages are looked up. -/
def setPaths (e : Entry) (paths : List Path) : Entry := { e with module := { e.module with paths := paths } }

/-- Record that a request led to an entry. -/
def addChild (e : Entry) (request : String) (child : EntryId) : Entry :=
  { e with children := e.children.insert request child }

/-- The children in the order of their requests. -/
def sortedChildren (e : Entry) : List (String × EntryId) :=
  e.children.entries.mergeSort fun a b => decide (a.1 ≤ b.1)

end Entry

/-- All entries that were ever made. -/
structure Graph where
  /-- The entries, by number. -/
  entries : Array Entry
deriving Inhabited

namespace Graph

/-- The graph without entries. -/
def empty : Graph := ⟨#[]⟩

/-- The number of entries. -/
def size (g : Graph) : Nat := g.entries.size

/-- The entry with a number. -/
def entry (g : Graph) (id : EntryId) : Entry := g.entries[id]?.getD default

/-- Make an entry. -/
def add (g : Graph) (e : Entry) : Graph × EntryId := (⟨g.entries.push e⟩, g.size)

/-- Change an entry. -/
def update (g : Graph) (id : EntryId) (f : Entry → Entry) : Graph := ⟨g.entries.modify id f⟩

/-! ### Look-up after each operation -/

@[simp] theorem size_add (g : Graph) (e : Entry) : (g.add e).1.size = g.size + 1 := by
  simp [add, size]

@[simp] theorem size_update (g : Graph) (id : EntryId) (f : Entry → Entry) :
    (g.update id f).size = g.size := by
  simp [update, size]

@[simp] theorem entry_add_self (g : Graph) (e : Entry) : (g.add e).1.entry (g.add e).2 = e := by
  simp [add, entry, size]

theorem entry_add_of_lt (g : Graph) (e : Entry) {id : EntryId} (h : id < g.size) :
    (g.add e).1.entry id = g.entry id := by
  simp only [size] at h
  simp [add, entry, Array.getElem?_push, Nat.ne_of_lt h]

@[simp] theorem entry_update_self (g : Graph) {id : EntryId} (f : Entry → Entry) (h : id < g.size) :
    (g.update id f).entry id = f (g.entry id) := by
  simp only [size] at h
  simp [update, entry, h, Array.getElem_modify_self]

theorem entry_update_of_ne (g : Graph) {id id' : EntryId} (f : Entry → Entry) (h : id ≠ id') :
    (g.update id f).entry id' = g.entry id' := by
  simp [update, entry, Array.getElem?_modify, h]

/-! ### Ownership -/

/-- Whether an entry is owned: from outside, or by one of some entries. -/
def isOwned (g : Graph) (roots owners : List EntryId) (id : EntryId) : Bool :=
  roots.contains id || owners.any fun owner => (g.entry owner).children.values.contains id

/-- Drop the entries that nothing owns, then those that only these owned, and so on. -/
def settle (g : Graph) (roots : List EntryId) : Nat → List EntryId → List EntryId
  | 0, ids => ids
  | rounds + 1, ids => settle g roots rounds (ids.filter (g.isOwned roots ids))

/-- The entries that are owned when the outside owns some. Entries that own one another in a circle keep
themselves alive. -/
def alive (g : Graph) (roots : List EntryId) : List EntryId :=
  g.settle roots g.size (List.range g.size)

/-- The parent of an entry, if it still lives. -/
def parent? (g : Graph) (roots : List EntryId) (id : EntryId) : Option EntryId :=
  (g.entry id).parent.filter fun parent => (g.alive roots).contains parent

end Graph

end ModGraph
