import ModGraph.Json.Printer
import ModGraph.Loader

/-!
# Reports

What is shown of a module graph: the tree of the modules that a module asked for, and the keys that the
cache holds. A module that comes up again is shown again, but not what lies below it, so that the tree
of a circular graph ends. Lines are coloured for terminals.
-/

namespace ModGraph.Report

/-! ### Colours -/

/-- A way to set a text off. -/
inductive Style where
  | yellow
  | cyan
  | green
  | red
  | bold
  | dimmed
deriving DecidableEq, Repr

/-- The terminal's codes that switch a style on and off. -/
def Style.codes : Style → String × String
  | yellow => ("33", "39")
  | cyan => ("36", "39")
  | green => ("32", "39")
  | red => ("31", "39")
  | bold => ("1", "0")
  | dimmed => ("2", "0")

/-- A text in a style. -/
def Style.paint (style : Style) (text : String) : String :=
  let (on, off) := style.codes
  s!"\x1b[{on}m{text}\x1b[{off}m"

/-- A format in its colour. -/
def paintFormat (format : Format) : String :=
  match format with
  | .legacy => Style.yellow.paint format.name
  | .declarative => Style.cyan.paint format.name

/-- The mark in front of error messages. -/
def errorMark : String := Style.bold.paint (Style.red.paint "Error")

/-- The text of an error message. -/
def errorText (message : String) : String := s!"{errorMark}: {message}"

/-! ### The tree -/

/-- The name of the partition that holds a key. -/
def partitionName (c : Cache) (key : String) : String :=
  match Partition.all.find? fun p => c.has p key with
  | some p => p.name
  | none => "builtin"

/-- A report under way. -/
structure Progress where
  /-- The keys of the modules that were shown. -/
  seen : List String
  /-- The lines, the latest first. -/
  lines : List String

/-- One more line. -/
def Progress.line (r : Progress) (text : String) : Progress := { r with lines := text :: r.lines }

/-- The indentation of a level. -/
def indent (depth : Nat) : String := String.ofList (List.replicate (2 * depth) ' ')

/-- The line of an entry. -/
def entryLine (c : Cache) (e : Entry) (request : Option String) (depth : Nat) (isNew : Bool) : String :=
  let label := match request with
    | some request => s!"{Style.green.paint request} -> {e.key}"
    | none => Style.bold.paint e.key
  let partition := Style.dimmed.paint (partitionName c e.key)
  let again := if isNew then "" else " (seen)"
  s!"{indent depth}{label} [{paintFormat e.format}, {partition}]{again}"

/-- The line of an entry's exports. -/
def exportsLine (e : Entry) (depth : Nat) : String :=
  s!"{indent depth}  {Style.dimmed.paint e.module.exports.render}"

/-- Show an entry and, if it was not shown before, what lies below it. Each level of the tree shows a
module that was not shown before, so `limit` need not exceed the number of modules. -/
def showEntry (l : Loader) (withExports : Bool) :
    Nat → Nat → Option String → EntryId → Progress → Progress
  | 0, _, _, _, r => r
  | limit + 1, depth, request, id, r =>
    let e := l.graph.entry id
    if r.seen.contains e.key then r.line (entryLine l.cache e request depth false)
    else
      let r := { r with seen := e.key :: r.seen }.line (entryLine l.cache e request depth true)
      let r := if withExports && e.isLoaded then r.line (exportsLine e depth) else r
      e.sortedChildren.foldl
        (fun r child => showEntry l withExports limit (depth + 1) (some child.1) child.2 r) r

/-- The lines of the tree below an entry. -/
def tree (l : Loader) (withExports : Bool) (root : EntryId) : List String :=
  (showEntry l withExports (l.graph.size + 1) 0 none root ⟨[], []⟩).lines.reverse

/-! ### The cache -/

/-- The mark of poisoned slots. -/
def poisonMark : String := Style.red.paint "poisoned"

/-- The lines of a partition. -/
def partitionLines (c : Cache) (p : Partition) : List String :=
  let keys := c.keys p
  let poisoned := c.poisonedKeys
  s!"{Style.bold.paint p.name} ({keys.length})" :: keys.map fun key =>
    if poisoned.contains key then s!"  {key} {poisonMark}" else s!"  {key}"

/-- The lines of all partitions. -/
def cacheLines (c : Cache) : List String := "" :: Partition.all.flatMap (partitionLines c)

/-- Lines as a text. -/
def text (lines : List String) : String := String.join (lines.map fun line => line ++ "\n")

end ModGraph.Report
