import ModGraph.Proofs.BuiltinEntries
import ModGraph.Proofs.World

/-!
# What outlasts a cleared cache

Two things that a loader made stay when its cache is cleared: what it knows about packages, and the entries of
builtin modules. While the files stay as they are, the former is what there is to see, and the latter are as they
would be if they were made now (`Loader.Enduring`). This is so as no compilation writes to the entry of a builtin
module (`Loader.Mindful.sustains`). Nothing is assumed about the names of files.
-/

namespace ModGraph

/-- The package of a file that is looked up is found, and remembering it is sound. -/
theorem World.Recalls.contextForFile {w : World} {cs : PackageContexts} (h : w.Recalls cs) {file : Path}
    (hf : file.Canonical) :
    let answer := cs.contextForFile (w.manifests w.files) file
    answer.contexts.context answer.id = w.package file ∧ w.Recalls answer.contexts := by
  unfold PackageContexts.contextForFile World.package
  cases hp : file.parent with
  | none =>
    refine ⟨?_, h⟩
    simp [PackageContexts.context, PackageContexts.defaultContext, h.defaults]
  | some dir => exact h.contextFor (hf.parent hp)

namespace Loader

variable {l l' : Loader} {request : String} {parent : Option EntryId} {isMain : Bool} {file : Path}

/-- A loader with nothing that would be in the way after its cache was cleared: it has no code cache, it knows about
packages what there is to see, and the entries of its builtin modules are as they would be if they were made now. -/
structure Enduring (l : Loader) : Prop extends Grounded l where
  bare : l.codeCache? = none
  proper : FileSystem.Proper l.files.workingDirectory
  recalls : l.world.Recalls l.packages
  pristine : ∀ {name id}, l.cache.builtins.get? name = some id →
    (l.builtinEntry name).Spared (l.graph.entry id) ∧ (l.graph.entry id).children = .empty
  distinct : ∀ {name name' id}, l.cache.builtins.get? name = some id → l.cache.builtins.get? name' = some id →
    name = name'

/-- The same without a word about slots. -/
structure Mindful (l : Loader) : Prop extends Enlisted l where
  bare : l.codeCache? = none
  proper : FileSystem.Proper l.files.workingDirectory
  recalls : l.world.Recalls l.packages
  pristine : ∀ {name id}, l.cache.builtins.get? name = some id →
    (l.builtinEntry name).Spared (l.graph.entry id) ∧ (l.graph.entry id).children = .empty

theorem Enduring.mindful (h : l.Enduring) : l.Mindful :=
  { h with inRange := fun hget => (h.builtin hget).1 }

theorem Mindful.enduring (h : l.Mindful) (hg : l.Grounded) : l.Enduring := { h, hg with }

theorem Mindful.canonical (h : l.Mindful) (hr : l.resolved request parent isMain = .ok (.file file)) :
    file.Canonical := by
  obtain ⟨q, hq⟩ := resolve_of_resolution hr
  exact Resolver.canonical_of_resolve h.proper hq

theorem Evolves.world (h : l.Evolves l') (hc : l.codeCache? = none) : l'.world = l.world := by
  unfold Loader.world
  rw [h.resolver, h.reader, h.manifests, h.builtinExports, h.files hc, h.defaults]

theorem builtinEntry_congr (hw : l'.world = l.world) (name : String) : l'.builtinEntry name = l.builtinEntry name := by
  have hdefaults : l'.packages.defaults = l.packages.defaults := congrArg World.defaults hw
  have hexports : l'.builtinExports = l.builtinExports := congrArg World.builtinExports hw
  unfold builtinEntry PackageContexts.defaultContext
  rw [hdefaults, hexports]

/-- Reading a file tells nothing about packages. -/
theorem reading_packages : Reading fun l l' => l'.packages = l.packages where
  refl _ := rfl
  trans _ _ _ h h' := h'.trans h
  report _ _ _ := rfl
  remember _ _ _ := rfl
  lookup _ _ _ := rfl
  store _ _ _ _ := rfl

namespace Mindful

/-- It is enough to look at the entries of builtin modules. -/
theorem of_entries (h : l.Mindful) (hw : l'.world = l.world) (hc : l'.codeCache? = l.codeCache?)
    (hp : l'.packages = l.packages) (hbuiltins : l'.cache.builtins = l.cache.builtins)
    (hsize : l.graph.size ≤ l'.graph.size) (hentry : ∀ {name id}, l.cache.builtins.get? name = some id →
      (l.graph.entry id).Spared (l'.graph.entry id) ∧
        (l'.graph.entry id).children = (l.graph.entry id).children) : l'.Mindful where
  toEnlisted := h.toEnlisted.of_same hbuiltins hsize
  bare := hc.trans h.bare
  proper := (show l'.files = l.files from congrArg World.files hw) ▸ h.proper
  recalls := hw ▸ hp ▸ h.recalls
  pristine hget := by
    rw [hbuiltins] at hget
    obtain ⟨hspared, hchildren⟩ := h.pristine hget
    obtain ⟨hspared', hchildren'⟩ := hentry hget
    rw [builtinEntry_congr hw]
    exact ⟨hspared.trans hspared', hchildren'.trans hchildren⟩

theorem of_graph (h : l.Mindful) (hw : l'.world = l.world) (hc : l'.codeCache? = l.codeCache?)
    (hp : l'.packages = l.packages) (hbuiltins : l'.cache.builtins = l.cache.builtins) (hg : l'.graph = l.graph) :
    l'.Mindful :=
  h.of_entries hw hc hp hbuiltins (by rw [hg]) fun _ => by
    rw [hg]
    exact ⟨.refl _, rfl⟩

/-- The entry of a builtin module is made as it is to stay. -/
theorem builtinOf (h : l.Mindful) (name : String) : (l.builtinOf name).2.Mindful := by
  have hsame : (l.builtinOf name).2.world = l.world ∧ (l.builtinOf name).2.codeCache? = l.codeCache? ∧
      (l.builtinOf name).2.packages = l.packages := by
    unfold Loader.builtinOf
    split <;> exact ⟨rfl, rfl, rfl⟩
  obtain ⟨hw, hc, hp⟩ := hsame
  refine { toEnlisted := h.toEnlisted.builtinOf name, bare := hc.trans h.bare,
           proper := (show (l.builtinOf name).2.files = l.files from congrArg World.files hw) ▸ h.proper,
           recalls := hw ▸ hp ▸ h.recalls, pristine := fun {name' id} hget => ?_ }
  rw [builtinEntry_congr hw]
  rcases entry_builtinOf h.toEnlisted hget with ⟨hold, hentry⟩ | ⟨rfl, hentry⟩
  · rw [hentry]
    exact h.pristine hold
  · rw [hentry]
    exact ⟨.refl _, rfl⟩

/-- What is found out about the package of a file that a request stands for is what there is to see. -/
theorem packaged (h : l.Mindful) (hr : l.resolved request parent isMain = .ok (.file file)) :
    (l.packaged file).Mindful := by
  have hworld : (l.packaged file).world = l.world := (Evolves.respects.package file l).world h.bare
  refine { h with recalls := ?_, pristine := fun hget => ?_ }
  · rw [hworld]
    exact (h.recalls.contextForFile (h.canonical hr)).2
  · rw [builtinEntry_congr hworld]
    exact h.pristine hget

/-- A file is read without a word about builtin modules or packages. -/
theorem of_reading {α : Type} {action : LoadM α} (he : Follows Evolves action) (hq : Follows Quiet action)
    (hp : Follows (fun l l' => l'.packages = l.packages) action) (h : l.Mindful) : (l.run action).2.Mindful :=
  h.of_graph ((he l).world h.bare) (he l).codeCache (hp l) (by rw [(hq l).cache]) (hq l).graph

theorem sustains : Sustains True fun l l' => l.Mindful → l'.Mindful where
  refl _ h := h
  trans _ _ _ h h' := h' ∘ h
  report _ _ h := h.of_graph rfl rfl rfl rfl rfl
  updateCache hf _ h := h.of_graph rfl rfl rfl (hf _) rfl
  updateEntry {l id} hid f _ h := by
    refine h.of_entries rfl rfl rfl rfl (Nat.le_of_eq (Graph.size_update _ _ _).symm) fun {name other} hget => ?_
    have hne : id ≠ other := fun heq => hid.nameless name (heq ▸ hget)
    rw [run_updateEntry, Graph.entry_update_of_ne _ _ hne]
    exact ⟨.refl _, rfl⟩
  link {l r} hr request child h := by
    refine h.of_entries rfl rfl rfl rfl (Nat.le_of_eq (Graph.size_update _ _ _).symm) fun {name other} hget => ?_
    have hne : r.id ≠ other := fun heq => (hr trivial).nameless name (heq ▸ hget)
    rw [run_link, linked, Graph.entry_update_of_ne _ _ hne]
    exact ⟨.refl _, rfl⟩
  addEntry e l h := by
    refine h.of_entries rfl rfl rfl rfl (Nat.le_of_lt (by simp)) fun hget => ?_
    rw [run_addEntry, Graph.entry_add_of_lt _ _ (h.inRange hget)]
    exact ⟨.refl _, rfl⟩
  builtin name _ h := by
    rw [run_builtin]
    exact h.builtinOf name
  package hr h := by
    rw [run_packageOfFile]
    exact h.packaged hr
  source file _ h := h.of_reading (Evolves.reading.source file) (Quiet.reading.source file)
    (reading_packages.source file)
  program file _ h := h.of_reading (Evolves.reading.program file) (Quiet.reading.program file)
    (reading_packages.program file)

end Mindful

/-! ## Between calls -/

/-- A call that names no parent, with the files as they are. An entry that is put into a slot from outside is one that
there is. -/
def Undirected (l : Loader) : Operation → Prop
  | .replaceCached _ _ id => id < l.graph.size
  | .changeFiles _ => False
  | op => op.parent? = none

theorem Undirected.sensible {op : Operation} (h : l.Undirected op) : l.Sensible op := by
  cases op with
  | replaceCached p key id => exact h
  | _ => trivial

/-- What is known about packages does not depend on builtin modules. -/
theorem recalls_congr {w w' : World} {cs : PackageContexts} (h : w.Recalls cs) (hm : w'.manifests = w.manifests)
    (hf : w'.files = w.files) (hd : w'.defaults = w.defaults) : w'.Recalls cs := by
  have hin : ∀ dirs, w'.packageIn dirs = w.packageIn dirs := by
    intro dirs
    induction dirs with
    | nil => rw [World.packageIn, World.packageIn, hd]
    | cons dir above ih => rw [World.packageIn, World.packageIn, hm, hf, ih]
  exact ⟨h.defaults.trans hd.symm, h.made, fun hdir hget => (h.context hdir hget).trans (hin _).symm⟩

theorem Enduring.registerBuiltin (h : l.Enduring) (name : String) (exports : Json.Value) :
    (l.after (.registerBuiltin name exports)).Enduring := by
  obtain ⟨hsize, hretains⟩ := l.retains_registerBuiltin name exports
  have hb : Balanced l (l.after (.registerBuiltin name exports)) :=
    .of_cache ⟨Nat.le_of_eq hsize.symm, fun _ => .of_retains (hretains _)⟩ rfl
  refine { (hb h.toGrounded).1 with
    bare := h.bare, proper := h.proper, recalls := recalls_congr h.recalls rfl rfl rfl
    distinct := h.distinct, pristine := fun {name' id} hget => ?_ }
  change l.cache.builtins.get? name' = some id at hget
  obtain ⟨hspared, hchildren⟩ := h.pristine hget
  simp only [after, Loader.registerBuiltin, run_modify, builtinEntry, Table.get?_insert]
  by_cases heq : name = name'
  · subst heq
    simp only [if_true, hget, Graph.entry_update_self _ _ (h.builtin hget).1]
    refine ⟨⟨hspared.key, hspared.format, hspared.parsed, ?_, hspared.package⟩, hchildren⟩
    have hmodule := hspared.module
    simp only [Entry.setExports, hmodule]
    rfl
  · rw [if_neg heq]
    cases hmade : l.cache.builtins.get? name with
    | none => exact ⟨hspared, hchildren⟩
    | some made =>
      have hne : made ≠ id := fun hid => heq (h.distinct hmade (hid ▸ hget))
      simp only [Graph.entry_update_of_ne _ _ hne]
      exact ⟨hspared, hchildren⟩

theorem Enduring.after {op : Operation} (h : l.Enduring) (hidle : l.Idle) (hop : l.Undirected op) :
    (l.after op).Enduring := by
  have hg : (l.after op).Grounded := (hidle.after hop.sensible).toGrounded
  have hnone : ∀ id ∈ (none : Option EntryId), l.NonBuiltin id := nofun
  -- neither builtin modules nor the graph change
  have hsame : ∀ {l' : Loader}, l'.Grounded → l'.world = l.world → l'.codeCache? = l.codeCache? →
      l'.packages = l.packages → l'.cache.builtins = l.cache.builtins → l'.graph = l.graph → l'.Enduring := by
    intro l' hg hw hc hp hb hgraph
    have hfiles : l'.files = l.files := congrArg World.files hw
    refine { hg with
      bare := hc.trans h.bare
      proper := hfiles ▸ h.proper
      recalls := hw ▸ hp ▸ h.recalls
      pristine := fun hget => ?_
      distinct := fun hget hget' => h.distinct (hb ▸ hget) (hb ▸ hget') }
    rw [builtinEntry_congr hw, hgraph]
    exact h.pristine (hb ▸ hget)
  cases op with
  | load request parent isMain =>
    obtain rfl : parent = none := hop
    exact (Mindful.sustains.load h.toGrounded (fun _ => hnone) request isMain h.mindful).enduring hg
  | discover request parent =>
    obtain rfl : parent = none := hop
    exact (Mindful.sustains.discover h.toGrounded (fun _ => hnone) request h.mindful).enduring hg
  | resolve request parent =>
    rw [Loader.after, run_resolve] at hg ⊢
    exact hsame hg rfl rfl rfl rfl rfl
  | invalidate key =>
    have hbuiltins : (l.cache.invalidate key).builtins = l.cache.builtins := by
      simp [Cache.invalidate, Partition.all]
    exact hsame hg rfl rfl rfl hbuiltins rfl
  | clearCache => exact hsame hg rfl rfl rfl rfl rfl
  | registerBuiltin name exports => exact h.registerBuiltin name exports
  | registerCompiler extension c => exact hsame hg rfl rfl rfl rfl rfl
  | replaceCached p key id => exact hsame hg rfl rfl rfl (Cache.builtins_set _ _ _ _) rfl
  | changeFiles fs => exact hop.elim

/-- A new loader without a code cache. -/
structure Untried (l : Loader) : Prop extends Fresh l where
  bare : l.codeCache? = none
  proper : FileSystem.Proper l.files.workingDirectory

theorem Untried.enduring (h : l.Untried) : l.Enduring := by
  have hnone : ∀ name id, l.cache.builtins.get? name ≠ some id := by
    intro name id hget
    rw [h.cache] at hget
    cases hget
  refine { (idle_of_empty h.cache).toGrounded with
    bare := h.bare, proper := h.proper, recalls := ?_
    pristine := fun hget => absurd hget (hnone _ _), distinct := fun hget => absurd hget (hnone _ _) }
  rw [h.packages]
  refine ⟨?_, fun hget => ?_, fun hdir hget => ?_⟩
  · rw [h.packages]
    rfl
  · cases hget
  · cases hget

/-- Whatever calls there were, nothing is in the way. -/
theorem enduring_of_reachable (h : Reachable Untried Undirected l) : l.Idle ∧ l.Enduring :=
  h.invariant (P := fun l => l.Idle ∧ l.Enduring) (fun _ hl => ⟨idle_of_empty hl.cache, hl.enduring⟩)
    fun _ _ hl hop => ⟨hl.1.after hop.sensible, hl.2.after hl.1 hop⟩

end Loader
end ModGraph
