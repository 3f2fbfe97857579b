import ModGraph.Command
import ModGraph.Proofs.Drawings
import ModGraph.Proofs.Remnants

/-!
# What the command shows

The command loads or classifies one module in a new loader, and shows the tree below it. Everything in the cache can be
reached from that module then, and no slot is poisoned, so the tree shows all there is in the cache
(`Command.depicts_of_run`). It goes by keys, however: a builtin module that has the name of a cached key is taken for
the module with that key (`Command.misdrawn_disguised`).
-/

namespace ModGraph

/-! ## After the first load -/

namespace Loader

variable {w : World} {start l : Loader} {root id : EntryId} {request : String} {isMain : Bool}

/-- What there is after the first load or discovery, when that succeeded. -/
structure Rooted (w : World) (l : Loader) (root : EntryId) : Prop where
  meshed : l.Meshed w
  enduring : l.Enduring
  simple : l.graph.Simple
  leads : ∃ ref, l.view.Leads ref root
  reached : ∀ {ref id}, l.view.Leads ref id → l.graph.Reaches root id
  healthy : ∀ p key e, l.cache.get? p key ≠ some (.poisoned e)

/-- No builtin module that was asked for has the name of a cached key. -/
def Unmistaken (l : Loader) : Prop :=
  ∀ name id, l.cache.builtins.get? name = some id → ∀ p, l.cache.has p name = false

instance (l : Loader) : Decidable l.Unmistaken :=
  decidable_of_iff (∀ name ∈ l.cache.builtins.keys, ∀ p ∈ Partition.all, l.cache.has p name = false) <| by
    constructor
    · intro h name id hget p
      exact h name ((Table.mem_keys_iff _ _).mpr (Option.isSome_iff_exists.mpr ⟨id, hget⟩)) p (by cases p <;> decide)
    · intro h name hname p _
      obtain ⟨id, hget⟩ := Option.isSome_iff_exists.mp ((Table.mem_keys_iff _ _).mp hname)
      exact h name id hget p

theorem Pristine.untried (h : start.Pristine) : start.Untried :=
  { h.fresh with bare := h.codeCache, proper := h.proper }

/-- What the first load put into the cache is all there is. -/
theorem Pristine.rooted (hs : start.Pristine) (hmeshed : l.Meshed start.world) (henduring : l.Enduring)
    (hcovers : start.view.Covers l.view root) (hleads : ∃ ref, l.view.Leads ref root) (hspotless : Spotless start l) :
    l.Rooted start.world root := by
  have hnothing : ∀ {ref id}, ¬ start.view.Leads ref id := by
    rintro ref id ⟨s, hheld, -⟩
    rw [hs.fresh.held ref] at hheld
    cases hheld
  refine ⟨hmeshed, henduring, hcovers.simple fun id => ?_, hleads,
    fun h => (hcovers.leads h).resolve_left hnothing, fun p key e hslot => ?_⟩
  · have hentry : (start.view.graph.entry id).children = .empty := by
      show (start.graph.entry id).children = .empty
      rw [hs.fresh.graph]
      rfl
    rw [hentry]
    exact List.nodup_nil
  · have hpoisoned := hspotless key p e (hmeshed.exclusive.slot?_eq_some.mpr hslot)
    rw [hs.fresh.cache] at hpoisoned
    cases hpoisoned

theorem rooted_of_load (hs : start.Pristine) (hrun : start.run (load request none isMain) = (.ok root, l)) :
    l.Rooted start.world root := by
  obtain ⟨hmeshed, hweaves⟩ := hs.meshed.load hrun
  have henduring : (start.after (.load request none isMain)).Enduring :=
    hs.untried.enduring.after (idle_of_empty hs.fresh.cache) rfl
  rw [after, hrun] at henduring
  exact hs.rooted hmeshed henduring (hs.meshed.covers_of_load hrun) hweaves.leads (hs.meshed.spotless_of_load hrun)

theorem rooted_of_discover (hs : start.Pristine) (hrun : start.run (discover request none) = (.ok root, l)) :
    l.Rooted start.world root := by
  obtain ⟨hmeshed, -⟩ := hs.meshed.discover hrun
  have henduring : (start.after (.discover request none)).Enduring :=
    hs.untried.enduring.after (idle_of_empty hs.fresh.cache) rfl
  rw [after, hrun] at henduring
  obtain ⟨hcovers, hleads⟩ := hs.meshed.covers_of_discover hrun
  exact hs.rooted hmeshed henduring hcovers hleads (hs.meshed.spotless_of_discover hrun)

namespace Rooted

/-- What can be reached is in the cache. -/
theorem led (h : l.Rooted w root) (hreach : l.graph.Reaches root id) : ∃ ref, l.view.Leads ref id :=
  (reaches_of_grows h.meshed.woven h.meshed.woven (.refl _) h.leads hreach).2

theorem key_of_module (h : l.Rooted w root) {key : String} (hled : l.view.Leads (.module key) id) :
    (l.graph.entry id).key = key ∧ ∃ p, l.cache.has p key = true := by
  obtain ⟨p, hslot⟩ := slot?_of_held (h.meshed.held_of_leads hled)
  exact ⟨(h.meshed.keyed hslot rfl).2, p, Cache.has_of_get? (Cache.get?_of_slot? hslot)⟩

theorem key_of_builtin (h : l.Rooted w root) {name : String} (hget : l.cache.builtins.get? name = some id) :
    (l.graph.entry id).key = name := (h.enduring.pristine hget).1.key.trans rfl

/-- A cached key leads to an entry. -/
theorem leads_of_has (h : l.Rooted w root) {p : Partition} {key : String} (hkey : l.cache.has p key = true) :
    ∃ id, l.view.Leads (.module key) id := by
  obtain ⟨s, hs⟩ := Option.isSome_iff_exists.mp hkey
  have hheld := held_of_slot? (h.meshed.exclusive.slot?_eq_some.mpr hs)
  cases s with
  | loading id => exact ⟨id, _, hheld, rfl⟩
  | ready id => exact ⟨id, _, hheld, rfl⟩
  | poisoned e => exact absurd hs (h.healthy p key e)

/-- An entry in the cache is that of a builtin module or it has a cached key. -/
theorem builtin_or_cached (h : l.Rooted w root) (hled : ∃ ref, l.view.Leads ref id) :
    (∃ name, l.cache.builtins.get? name = some id) ∨ ∃ p, l.cache.has p (l.graph.entry id).key = true := by
  obtain ⟨ref, hled⟩ := hled
  cases ref with
  | builtin name => exact .inl ⟨name, builtins_of_held (h.meshed.held_of_leads hled)⟩
  | module key =>
    obtain ⟨hkey, hcached⟩ := h.key_of_module hled
    exact .inr (hkey ▸ hcached)

/-- Where builtin modules are not mistaken, a key tells which entry is meant. -/
theorem key_inj (h : l.Rooted w root) (hu : l.Unmistaken) {a b : EntryId} (ha : ∃ ref, l.view.Leads ref a)
    (hb : ∃ ref, l.view.Leads ref b) (hkey : (l.graph.entry a).key = (l.graph.entry b).key) : a = b := by
  obtain ⟨ref, ha⟩ := ha
  obtain ⟨ref', hb⟩ := hb
  -- a builtin module and one from a file never share a key
  have hnever : ∀ {name key : String} {i j : EntryId}, l.view.Leads (.builtin name) i →
      l.view.Leads (.module key) j → (l.graph.entry i).key ≠ (l.graph.entry j).key := by
    intro name key i j hi hj hsame
    have hget := builtins_of_held (h.meshed.held_of_leads hi)
    obtain ⟨hj, p, hp⟩ := h.key_of_module hj
    rw [h.key_of_builtin hget, hj] at hsame
    subst hsame
    cases hp.symm.trans (hu name i hget p)
  cases ref with
  | module key =>
    cases ref' with
    | module key' =>
      obtain rfl : key = key' := (h.key_of_module ha).1.symm.trans (hkey.trans (h.key_of_module hb).1)
      exact ha.unique hb
    | builtin name => exact absurd hkey.symm (hnever hb ha)
  | builtin name =>
    cases ref' with
    | module key => exact absurd hkey (hnever ha hb)
    | builtin name' =>
      have hget := builtins_of_held (h.meshed.held_of_leads ha)
      have hget' := builtins_of_held (h.meshed.held_of_leads hb)
      obtain rfl : name = name' := (h.key_of_builtin hget).symm.trans (hkey.trans (h.key_of_builtin hget'))
      exact ha.unique hb

end Rooted
end Loader

/-! ## What the tree shows -/

namespace Report

variable {w : World} {l : Loader} {root : EntryId} {visits : List Visit} {seen : List String}

theorem partitionName_eq_builtin (c : Cache) (key : String) :
    partitionName c key = "builtin" ↔ ∀ p, c.has p key = false := by
  unfold partitionName
  constructor
  · intro h p
    split at h
    · next q _ => cases q <;> exact absurd h (by decide)
    · next hnone =>
      have hall := List.find?_eq_none.mp hnone p (by cases p <;> decide)
      simpa using hall
  · intro h
    have hnone : Partition.all.find? (fun p => c.has p key) = none :=
      List.find?_eq_none.mpr fun p _ => by simp [h p]
    rw [hnone]

/-- Lines show what there is in the cache. -/
structure Depicts (l : Loader) (root : EntryId) (visits : List Visit) : Prop where
  /-- No key comes up for the first time twice. -/
  distinct : (newKeys l.graph visits).Nodup
  /-- There is a line for the root, and one for each edge of an entry that is shown with what lies below it. -/
  lines : (visits.map Visit.edge).Perm ((none, root) :: (expanded visits).flatMap (edges l.graph))
  /-- No slot is poisoned. -/
  healthy : ∀ p key e, l.cache.get? p key ≠ some (.poisoned e)
  /-- The keys that come up are those that are cached and those of builtin modules that were asked for. -/
  keys : l.Unmistaken → ∀ key, key ∈ newKeys l.graph visits ↔
    (∃ p, key ∈ l.cache.keys p) ∨ ∃ name id, l.cache.builtins.get? name = some id ∧ key = (l.graph.entry id).key
  /-- A line says that a module is builtin where it is. -/
  label : l.Unmistaken → ∀ v ∈ visits, partitionName l.cache (l.graph.entry v.id).key = "builtin" ↔
    ∃ name, l.cache.builtins.get? name = some v.id

theorem mem_keys {c : Cache} {p : Partition} {key : String} : key ∈ c.keys p ↔ c.has p key = true := by
  unfold Cache.keys Cache.sorted
  rw [(List.mergeSort_perm _ _).mem_iff]
  exact Table.mem_keys_iff _ _

theorem depicts_of_rooted (h : l.Rooted w root) (hd : Draws l.graph [] [⟨0, none, root⟩] visits seen) :
    Depicts l root visits := by
  have hled : ∀ v ∈ visits, ∃ ref, l.view.Leads ref v.id := by
    have hreached : ∀ v ∈ visits, l.graph.Reaches root v.id :=
      hd.invariant h.simple (fun hid hasks => hid.tail hasks) fun s hs => by
        obtain rfl := List.mem_singleton.mp hs
        exact .refl
    exact fun v hv => h.led (hreached v hv)
  -- with different keys, the entries that are expanded are those that the cache leads to
  have hexpanded : l.Unmistaken → ∀ id, id ∈ expanded visits ↔ ∃ ref, l.view.Leads ref id := by
    intro hu id
    rw [hd.mem_expanded h.simple fun ha hb => h.key_inj hu (h.led ha) (h.led hb)]
    exact ⟨h.led, fun ⟨_, hled⟩ => h.reached hled⟩
  refine ⟨hd.keys.1, hd.perm, h.healthy, fun hu key => ⟨fun hkey => ?_, ?_⟩, fun hu v hv => ?_⟩
  · obtain ⟨id, hid, rfl⟩ := List.mem_map.mp hkey
    rcases h.builtin_or_cached ((hexpanded hu id).mp hid) with ⟨name, hget⟩ | ⟨p, hp⟩
    · exact .inr ⟨name, id, hget, rfl⟩
    · exact .inl ⟨p, mem_keys.mpr hp⟩
  · rintro (⟨p, hp⟩ | ⟨name, id, hget, rfl⟩)
    · obtain ⟨id, hled⟩ := h.leads_of_has (mem_keys.mp hp)
      exact List.mem_map.mpr ⟨id, (hexpanded hu id).mpr ⟨_, hled⟩, (h.key_of_module hled).1⟩
    · have hheld : l.view.held (.builtin name) = some (.ready id) :=
        Loader.held_builtin.mpr ⟨id, hget, rfl⟩
      exact List.mem_map.mpr ⟨id, (hexpanded hu id).mpr ⟨_, _, hheld, rfl⟩, rfl⟩
  · rw [partitionName_eq_builtin]
    constructor
    · intro hnone
      refine (h.builtin_or_cached (hled v hv)).resolve_right ?_
      rintro ⟨p, hp⟩
      cases hp.symm.trans (hnone p)
    · rintro ⟨name, hget⟩ p
      rw [h.key_of_builtin hget]
      exact hu name v.id hget p

end Report

namespace Command

/-- The tree that a run shows is drawn to its end, in the one way there is, for whatever graph. After a run that
succeeded without a code cache, on files without query marks in their names, it shows what there is in the cache,
and no slot is poisoned. -/
theorem depicts_of_run :
    (∀ (l : Loader) (withExports : Bool) (root : EntryId), ∃ visits seen,
      Report.Draws l.graph [] [⟨0, none, root⟩] visits seen ∧
      (∀ visits' seen', Report.Draws l.graph [] [⟨0, none, root⟩] visits' seen' → visits' = visits) ∧
      Report.tree l withExports root = visits.flatMap (Report.Visit.lines l withExports)) ∧
    ∀ {c : Command} {env : Environment} {fs : FileSystem} {config : Config} {text : String},
      c.config env fs = .ok config → config.cacheDir = none → fs.Unmarked →
      FileSystem.Proper fs.workingDirectory → c.run env fs = .ok text →
      ∃ request l root, c.request fs = .ok request ∧
        (Loader.ofConfig config fs).run (c.loadMain request) = (.ok root, l) ∧ text = c.output l root ∧
        ∀ visits seen, Report.Draws l.graph [] [⟨0, none, root⟩] visits seen → Report.Depicts l root visits := by
  refine ⟨fun l withExports root => ?_, fun {c env fs config text} hconfig hcache hnames hproper hrun => ?_⟩
  · obtain ⟨visits, seen, hdraws, htree⟩ := Report.tree_eq l withExports root
    exact ⟨visits, seen, hdraws, fun _ _ h => (hdraws.unique h).1, htree⟩
  · have hpristine : (Loader.ofConfig config fs).Pristine :=
      Loader.pristine_ofConfig (congrArg (Option.map CodeCache.mk) hcache) hnames hproper
    unfold run at hrun
    rw [hconfig] at hrun
    cases hrequest : c.request fs with
    | error e =>
      rw [hrequest] at hrun
      cases hrun
    | ok request =>
      rw [hrequest] at hrun
      dsimp only [bind, Except.bind] at hrun
      generalize hmain : (Loader.ofConfig config fs).run (c.loadMain request) = r at hrun
      obtain ⟨e | root, l⟩ := r
      · cases hrun
      · cases hrun
        have hrooted : l.Rooted (Loader.ofConfig config fs).world root := by
          unfold loadMain at hmain
          split at hmain
          · exact Loader.rooted_of_discover hpristine hmain
          · exact Loader.rooted_of_load hpristine hmain
        exact ⟨request, l, root, rfl, hmain, rfl, fun _ _ hd => Report.depicts_of_rooted hrooted hd⟩

/-- Two modules that ask for each other, and one of them for a builtin module. -/
def knotFiles : FileSystem where
  nodes := ⟨[
    (["app"], .directory),
    (["main.js", "app"], .file "exports.fs = require(\"node:fs\")\nexports.a = require(\"./a.js\")".toUTF8),
    (["a.js", "app"], .file "exports.main = require(\"./main.js\")".toUTF8)]⟩
  workingDirectory := ["app"]

/-- Show the modules of `knotFiles`. -/
def knot : Command := ⟨⟨"main.js"⟩, false, none, none, false, true, false⟩

theorem depicts_knot : ∃ text request l root visits seen,
    knot.run ⟨none, none⟩ knotFiles = .ok text ∧ text = knot.output l root ∧
    (Loader.ofConfig (.default ⟨none, none⟩) knotFiles).run (knot.loadMain request) = (.ok root, l) ∧
    l.Unmistaken ∧ Report.Draws l.graph [] [⟨0, none, root⟩] visits seen ∧ Report.Depicts l root visits := by
  have hconfig : knot.config ⟨none, none⟩ knotFiles = .ok (.default ⟨none, none⟩) := by decide +kernel
  have hrequest : knot.request knotFiles = .ok "/app/main.js" := by decide +kernel
  obtain ⟨hsuccess, hunmistaken⟩ : (knot.run ⟨none, none⟩ knotFiles).toOption.isSome = true ∧
      ((Loader.ofConfig (.default ⟨none, none⟩) knotFiles).run (knot.loadMain "/app/main.js")).2.Unmistaken := by
    decide +kernel
  cases hrun : knot.run ⟨none, none⟩ knotFiles with
  | error e =>
    rw [hrun] at hsuccess
    cases hsuccess
  | ok text =>
    obtain ⟨request, l, root, hrequest', hmain, htext, hdepicts⟩ :=
      depicts_of_run.2 hconfig rfl (by decide) Loader.proper_app hrun
    obtain ⟨visits, seen, hdraws, -⟩ := depicts_of_run.1 l true root
    cases hrequest.symm.trans hrequest'
    rw [hmain] at hunmistaken
    exact ⟨text, _, l, root, visits, seen, rfl, htext, hmain, hunmistaken, hdraws, hdepicts visits seen hdraws⟩

/-! ## Builtin modules in disguise -/

/-- A configuration that makes a builtin module of a file's path, and a link by which the file is asked for itself. -/
def disguisedFiles : FileSystem where
  nodes := ⟨[
    (["app"], .directory),
    (["main.js", "app"], .file "exports.a = require(\"/app/a.js\")\nexports.b = require(\"/app/b.js\")".toUTF8),
    (["a.js", "app"], .file "exports.n = require(\"./c.js\")".toUTF8),
    (["b.js", "app"], .link "a.js"),
    (["c.js", "app"], .file "exports.n = 1".toUTF8),
    (["config.json", "app"], .file "\x7b\"builtins\": [\"/app/a.js\"]\x7d".toUTF8)]⟩
  workingDirectory := ["app"]

/-- Show the modules of `disguisedFiles`. -/
def disguised : Command := ⟨⟨"main.js"⟩, false, none, some ⟨"config.json"⟩, false, false, true⟩

/-- The configuration of `disguised`. -/
def disguisedConfig : Config := { Config.default ⟨none, none⟩ with builtins := ["/app/a.js"] }

/-- The loader at the end of `disguised`. -/
def disguisedLoader : Loader :=
  ((Loader.ofConfig disguisedConfig disguisedFiles).run (disguised.loadMain "/app/main.js")).2

theorem entries_disguised :
    (disguisedLoader.graph.entry 0).key = "/app/main.js" ∧ (disguisedLoader.graph.entry 1).key = "/app/a.js" ∧
    (disguisedLoader.graph.entry 2).key = "/app/a.js" ∧ (disguisedLoader.graph.entry 1).children.entries = [] ∧
    (disguisedLoader.graph.entry 0).children.entries = [("/app/a.js", 1), ("/app/b.js", 2)] ∧
    disguisedLoader.cache.builtins.get? "/app/a.js" = some 1 ∧ disguisedLoader.cache.has .legacy "/app/a.js" = true ∧
    disguisedLoader.cache.has .legacy "/app/c.js" = true := by
  decide +kernel

theorem runs_disguised : disguised.config ⟨none, none⟩ disguisedFiles = .ok disguisedConfig ∧
    disguised.request disguisedFiles = .ok "/app/main.js" ∧
    ((Loader.ofConfig disguisedConfig disguisedFiles).run (disguised.loadMain "/app/main.js")).1 = .ok 0 ∧
    (disguised.run ⟨none, none⟩ disguisedFiles).toOption.isSome = true := by
  decide +kernel

/-- The lines that are shown: the key of the file has come up with the builtin module. -/
theorem draws_disguised : Report.Draws disguisedLoader.graph [] [⟨0, none, 0⟩]
    [⟨⟨0, none, 0⟩, true⟩, ⟨⟨1, some (0, "/app/a.js"), 1⟩, true⟩, ⟨⟨1, some (0, "/app/b.js"), 2⟩, false⟩]
    ["/app/a.js", "/app/main.js"] := by
  obtain ⟨hmain, ha, hb, hnothing, hchildren, -⟩ := entries_disguised
  have hbelow : Report.Stop.below disguisedLoader.graph ⟨0, none, 0⟩
      = [⟨1, some (0, "/app/a.js"), 1⟩, ⟨1, some (0, "/app/b.js"), 2⟩] := by
    unfold Report.Stop.below Entry.sortedChildren
    rw [hchildren, List.mergeSort_of_pairwise (by decide +kernel)]
    rfl
  have hbelow' : Report.Stop.below disguisedLoader.graph ⟨1, some (0, "/app/a.js"), 1⟩ = [] := by
    unfold Report.Stop.below Entry.sortedChildren
    rw [hnothing, List.mergeSort_nil]
    rfl
  have hnone : Report.Draws disguisedLoader.graph [(disguisedLoader.graph.entry 1).key, "/app/main.js"]
      (Report.Stop.below disguisedLoader.graph ⟨1, some (0, "/app/a.js"), 1⟩) [] ["/app/a.js", "/app/main.js"] := by
    rw [hbelow', ha]
    exact .done _
  have hfile : Report.Draws disguisedLoader.graph ["/app/a.js", "/app/main.js"] [⟨1, some (0, "/app/b.js"), 2⟩]
      [⟨⟨1, some (0, "/app/b.js"), 2⟩, false⟩] ["/app/a.js", "/app/main.js"] :=
    .again (by simp [hb]) (.done _)
  have hchild : (disguisedLoader.graph.entry 1).key ∉ ["/app/main.js"] := by simp [ha]
  have hlater : Report.Draws disguisedLoader.graph [(disguisedLoader.graph.entry 0).key]
      (Report.Stop.below disguisedLoader.graph ⟨0, none, 0⟩)
      [⟨⟨1, some (0, "/app/a.js"), 1⟩, true⟩, ⟨⟨1, some (0, "/app/b.js"), 2⟩, false⟩]
      ["/app/a.js", "/app/main.js"] := by
    rw [hbelow, hmain]
    have hdrawn := Report.Draws.anew (s := ⟨1, some (0, "/app/a.js"), 1⟩) hchild hnone hfile
    exact hdrawn
  have hdrawn := Report.Draws.anew (s := ⟨0, none, 0⟩) List.not_mem_nil hlater (.done _)
  exact hdrawn

/-- The line of the builtin module does not say that it is one, and the module that only the file asks for has no line
although it is cached. -/
theorem misdrawn_disguised : ∃ visits seen,
    disguised.config ⟨none, none⟩ disguisedFiles = .ok disguisedConfig ∧ disguisedConfig.cacheDir = none ∧
    disguisedFiles.Unmarked ∧ disguised.request disguisedFiles = .ok "/app/main.js" ∧
    ((Loader.ofConfig disguisedConfig disguisedFiles).run (disguised.loadMain "/app/main.js")).1 = .ok 0 ∧
    (disguised.run ⟨none, none⟩ disguisedFiles).toOption.isSome = true ∧
    Report.Draws disguisedLoader.graph [] [⟨0, none, 0⟩] visits seen ∧
    (∃ v ∈ visits, disguisedLoader.cache.builtins.get? "/app/a.js" = some v.id ∧
      Report.partitionName disguisedLoader.cache (disguisedLoader.graph.entry v.id).key ≠ "builtin") ∧
    "/app/c.js" ∈ disguisedLoader.cache.keys .legacy ∧ "/app/c.js" ∉ Report.newKeys disguisedLoader.graph visits := by
  obtain ⟨hmain, ha, -, -, -, hbuiltin, hcached, hchild⟩ := entries_disguised
  obtain ⟨hconfig, hrequest, hroot, hsuccess⟩ := runs_disguised
  refine ⟨_, _, hconfig, rfl, by decide, hrequest, hroot, hsuccess, draws_disguised,
    ⟨⟨⟨1, some (0, "/app/a.js"), 1⟩, true⟩, by simp, hbuiltin, fun hname => ?_⟩, Report.mem_keys.mpr hchild, ?_⟩
  · rw [ha] at hname
    cases hcached.symm.trans ((Report.partitionName_eq_builtin _ _).mp hname .legacy)
  · simp [Report.newKeys, Report.expanded, hmain, ha]

end Command
end ModGraph
