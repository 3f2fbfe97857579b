import ModGraph.Command

/-!
# The arguments of the command

The main module is the only positional argument. Options come before or behind it; those that take a
value take the next argument.
-/

namespace ModGraph

/-- A call of the command: what it is told to do, and the file that describes the file system. -/
structure Invocation where
  /-- The main module, once it was given. -/
  script : Option Path
  /-- The file that describes the file system. -/
  snapshot : Option String
  /-- What else the command is told. -/
  command : Command
deriving DecidableEq, Repr, Inhabited

namespace Invocation

/-- Nothing was given yet. -/
def empty : Invocation := ⟨none, none, ⟨⟨""⟩, false, none, none, false, false, false⟩⟩

/-- How the command is called. -/
def usage : String :=
  "usage: modgraph --snapshot FILE [--preserve-symlinks] [--cache-dir DIR] [--config FILE]"
    ++ " [--parse-only] [--exports] [--cache] SCRIPT"

/-- Take up arguments. -/
def take (i : Invocation) : List String → Option Invocation
  | [] => some i
  | "--preserve-symlinks" :: rest =>
    take { i with command := { i.command with preserveSymlinks := true } } rest
  | "--parse-only" :: rest => take { i with command := { i.command with parseOnly := true } } rest
  | "--exports" :: rest => take { i with command := { i.command with showExports := true } } rest
  | "--cache" :: rest => take { i with command := { i.command with showCache := true } } rest
  | "--cache-dir" :: dir :: rest =>
    take { i with command := { i.command with cacheDir := some ⟨dir⟩ } } rest
  | "--config" :: file :: rest =>
    take { i with command := { i.command with configFile := some ⟨file⟩ } } rest
  | "--snapshot" :: file :: rest => take { i with snapshot := some file } rest
  | script :: rest =>
    if "--".toList.isPrefixOf script.toList || i.script.isSome then none
    else take { i with script := some ⟨script⟩ } rest

/-- The call of some arguments: the command, and the file that describes the file system. -/
def ofArguments? (arguments : List String) : Option (Command × String) := do
  let i ← empty.take arguments
  return ({ i.command with script := ← i.script }, ← i.snapshot)

end Invocation

end ModGraph
