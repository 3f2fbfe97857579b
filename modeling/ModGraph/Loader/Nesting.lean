import ModGraph.Loader.Request

/-!
# How deep requests can nest

A module that is being compiled has a slot that is marked as loading, and a request that leads to such
a slot is answered at once. So requests nest no deeper than there are slots: three partitions, times the
keys that can come up. A key is the path of a file and the query of a request. The path comes from a
spelling that a look-up accepts, and those have a limited length; the query comes from one of the texts
at hand. `Loader.nestingBound` counts all texts of these lengths. It is far above what can happen, but
finite.
-/

namespace ModGraph

/-- A bound on the length of the text that is at a place. -/
def Node.weight : Node → Nat
  | file content => content.size
  | _ => 0

/-- A bound on the number of texts with a limited number of characters: at each position there is one of
the characters, or the text is over. -/
def Text.count (length : Nat) : Nat := Nat.pow 0x110001 length

namespace Loader

/-- The texts that requests are made of, besides those of files. -/
def textsAtHand (l : Loader) (request : String) : List String :=
  request :: (l.sources.values
    ++ l.programs.values.flatMap Source.Program.requests
    ++ l.compilers.byExtension.values.flatMap Compiler.ownRequests)

/-- A bound on the length of every text that requests are made of. -/
def textBound (l : Loader) (request : String) : Nat :=
  (l.textsAtHand request).foldr (fun s n => s.length + n) 0
    + l.files.nodes.values.foldr (fun node n => node.weight + n) 0

/-- A bound on how deep the requests behind a request can nest. A spelling leads to a file in two ways,
with and without its links. -/
@[irreducible] def nestingBound (l : Loader) (request : String) : Nat :=
  Partition.all.length * (2 * Text.count FileSystem.maxPathBytes * Text.count (l.textBound request))

/-- Load what a module asks for, with a limit on how deep requests nest. -/
def loadNested : Nat → NestedLoad
  | 0, request, _ => throw (.nestedTooDeep request)
  | limit + 1, request, parent =>
    reported request (answer (loadNested limit) request (some parent) false)

end Loader

end ModGraph
