import ModGraph.Loader.Nesting

/-!
# The loader

What a loader can be asked for. `load` answers a request with an entry of the graph, and everything that
the module needs is loaded first; `discover` does the same without evaluating anything, and leaves
modules of unknown format in discovery; `resolve` says only under which key a module would be cached.
The remaining operations look at the cache or change it from outside.
-/

namespace ModGraph

open Json (Value)

namespace Loader

/-! ### Requests -/

/-- Load the module that a request asks for. A request without a parent is made at the root of the
graph and is seen from the working directory. -/
def load (request : String) (parent : Option EntryId) (isMain : Bool) : LoadM EntryId := do
  let limit := (← get).nestingBound request
  reported request (answer (loadNested limit) request parent isMain)

/-- Say whether a parse-only pass is running. -/
def setParsing (parsing : Bool) : LoadM Unit := updateCache fun c => { c with parsing := parsing }

/-- Classify the modules that a request leads to, without evaluating them. -/
def discover (request : String) (parent : Option EntryId) : LoadM EntryId := do
  let before := (← get).cache.parsing
  setParsing true
  let id ← onError (load request parent false) fun _ => setParsing before
  setParsing before
  return id

/-- The key under which the module of a request would be cached; for a builtin module, its name. -/
def resolve (request : String) (parent : Option EntryId) : LoadM String := do
  let referrer ← parent.mapM referrer
  let (specifier, query) := splitQuery request
  match ← resolveSpecifier specifier referrer false with
  | .builtin name => return name
  | .file path => return cacheKey path query

/-- Load a module and give what it exports. -/
def require (request : String) (parent : Option EntryId) : LoadM Value := do
  let id ← load request parent false
  return (← getEntry id).module.exports

/-! ### The cache -/

/-- Drop a key from every partition and forget the source of its file; whether there was such a key. -/
def invalidate (key : String) : LoadM Bool :=
  modifyGet fun l =>
    let file : Path := ⟨(splitQuery key).1⟩
    (l.cache.hasAny key, { l with
      sources := l.sources.erase file.components
      programs := l.programs.erase file.components
      cache := l.cache.invalidate key })

/-- Replace a slot by an entry, also one that was poisoned. -/
def replaceCached (p : Partition) (key : String) (id : EntryId) : LoadM Unit :=
  updateCache fun c => c.set p key (.ready id)

/-- Forget all modules and sources. -/
def clearCache : LoadM Unit :=
  modify fun l => { l with cache := l.cache.clear, sources := .empty, programs := .empty }

/-- The exports of every module that legacy modules see and that is ready. -/
def requireCache (l : Loader) : Value :=
  .object ((l.cache.keys .legacy).filterMap fun key =>
    match l.cache.get? .legacy key with
    | some (.ready id) => some (key, (l.graph.entry id).module.exports)
    | _ => none)

/-- The main module as far as legacy modules see it. -/
def requireMain (l : Loader) : Option EntryId := l.cache.legacyMain?

/-! ### Registering -/

/-- Let a compiler take an extension. -/
def registerCompiler (extension : String) (c : Compiler) : LoadM Unit :=
  modify fun l => { l with compilers := l.compilers.register extension c }

/-- Give a builtin module its exports. If the module was asked for before, its entry exports them from
now on. -/
def registerBuiltin (name : String) (exports : Value) : LoadM Unit :=
  modify fun l =>
    let graph := match l.cache.builtins.get? name with
      | none => l.graph
      | some id => l.graph.update id fun e => e.setExports exports
    { l with
      resolver := l.resolver.addBuiltin name
      builtinExports := l.builtinExports.insert name exports
      graph := graph }

/-! ### Ownership -/

/-- The entries that live while the outside holds some. -/
def alive (l : Loader) (held : List EntryId) : List EntryId := l.graph.alive (held ++ l.cache.owned)

/-- The parent of an entry, if it lives while the outside holds some entries. -/
def parent? (l : Loader) (held : List EntryId) (id : EntryId) : Option EntryId :=
  l.graph.parent? (held ++ l.cache.owned) id

end Loader

end ModGraph
