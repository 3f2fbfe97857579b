import ModGraph.Proofs.Agreement

/-!
# Search paths follow the format

A module gets its search paths before its compiler runs, for the format that it has then. The compiler may set
another format; then the paths are looked up anew at the end of the compilation. A module that is compiled a second
time keeps those that it has. So once a module is ready its search paths are those of its file, its package and its
format (`Entry.Furnished`), after any number of compilations by any compilers, with failures in between, and whatever
happened to the files (`Loader.furnished_of_occurs`).
-/

namespace ModGraph

open Relation (ReflTransGen)

/-- The folders in which the packages of a module are looked up: the `node_modules` folders above its file, and then,
for a legacy module whose package lets it search, the global ones. -/
def Entry.folders (globals : List Path) (e : Entry) : List Path :=
  e.module.filename.directory.moduleFolders
    ++ if e.package.options.cjs.paths = true ∧ e.format = .legacy then globals else []

/-- A file's entry has the search paths that belong to it. -/
structure Entry.Furnished (globals : List Path) (file : Path) (e : Entry) : Prop where
  filename : e.module.filename = file
  paths : e.module.paths = e.folders globals

namespace Entry

variable {globals : List Path} {file : Path} {e e' : Entry}

theorem Furnished.of_stays (h : e.Furnished globals file) (hs : e.Stays e') (hformat : e'.format = e.format) :
    e'.Furnished globals file where
  filename := hs.filename.trans h.filename
  paths := by rw [hs.paths, h.paths, folders, folders, hs.filename, hs.package, hformat]

end Entry

namespace Loader

variable {globals : List Path} {l l' l₂ start : Loader} {job : Job} {limit : Nat} {key : String} {p : Partition}
  {id : EntryId} {e : Entry} {file : Path} {c : Compilation}

theorem searchPaths_eq (r : Resolver) (h : e.module.filename = file) :
    searchPaths r e.package e.format file = e.folders r.globalPaths := by
  subst h
  unfold searchPaths Entry.folders Resolver.legacySearchPaths
  by_cases hsearch : e.package.options.cjs.paths = true ∧ e.format = .legacy
  · simp [hsearch]
  · rw [if_neg (by simpa using hsearch), if_neg hsearch, List.append_nil]

theorem searchPaths_congr {r r' : Resolver} (h : r.globalPaths = r'.globalPaths) (package : PackageContext)
    (format : Format) (file : Path) : searchPaths r package format file = searchPaths r' package format file := by
  simp only [searchPaths, Resolver.legacySearchPaths, h]

/-- A module that is marked as compiled has the search paths of its format, if it had those of the format with which
its compiler began. -/
theorem furnished_marked (r : Resolver) (hfile : e.module.filename = file)
    (hpaths : e.module.paths = searchPaths r e.package c.format file) :
    (e.marked r file c).Furnished r.globalPaths file := by
  have hmarked : (e.marked r file c).module.filename = file ∧ (e.marked r file c).package = e.package ∧
      (e.marked r file c).format = e.format ∧
      (e.marked r file c).module.paths = searchPaths r e.package e.format file := by
    unfold Entry.marked
    by_cases hsame : e.format = c.format
    · cases c.parsing <;> simp [Entry.setLoaded, hsame, hfile, hpaths]
    · cases c.parsing <;> simp [Entry.setLoaded, Entry.setPaths, hsame, hfile]
  obtain ⟨hfile', hpackage, hformat, hpaths'⟩ := hmarked
  refine ⟨hfile', ?_⟩
  rw [hpaths', ← searchPaths_eq r hfile', hpackage, hformat]

/-! ## Ready modules -/

/-- Every module that is ready has the search paths that belong to it. -/
structure Furnished (globals : List Path) (l : Loader) : Prop where
  global : l.resolver.globalPaths = globals
  entry : ∀ {p key id}, l.cache.get? p key = some (.ready id) →
    id < l.graph.size ∧ (l.graph.entry id).Furnished globals (keyFile key)

namespace Furnished

/-- What was ready stays as it is, as far as files, packages, formats and search paths go, and the rest is
furnished. -/
theorem of_slots (h : l.Furnished globals) (hglobals : l'.resolver.globalPaths = l.resolver.globalPaths)
    (hsize : l.graph.size ≤ l'.graph.size)
    (hslot : ∀ {p key id}, l'.cache.get? p key = some (.ready id) →
      (∃ q, l.cache.get? q key = some (.ready id) ∧ (id < l.graph.size →
        (l.graph.entry id).Stays (l'.graph.entry id) ∧ (l'.graph.entry id).format = (l.graph.entry id).format)) ∨
      id < l'.graph.size ∧ (l'.graph.entry id).Furnished globals (keyFile key)) : l'.Furnished globals where
  global := hglobals.trans h.global
  entry hk := by
    rcases hslot hk with ⟨q, hk', hstays⟩ | hnew
    · obtain ⟨hlt, he⟩ := h.entry hk'
      exact ⟨Nat.lt_of_lt_of_le hlt hsize, he.of_stays (hstays hlt).1 (hstays hlt).2⟩
    · exact hnew

theorem of_graph (h : l.Furnished globals) (hglobals : l'.resolver.globalPaths = l.resolver.globalPaths)
    (hg : l'.graph = l.graph)
    (hs : ∀ {p key id}, l'.cache.get? p key = some (.ready id) → ∃ q, l.cache.get? q key = some (.ready id)) :
    l'.Furnished globals := by
  refine h.of_slots hglobals (by rw [hg]) fun hk => .inl ?_
  obtain ⟨q, hk'⟩ := hs hk
  exact ⟨q, hk', fun _ => by rw [hg]; exact ⟨.refl _, rfl⟩⟩

/-- What is furnished stays so. -/
def Lasts (globals : List Path) (l l' : Loader) : Prop := l.Furnished globals → l'.Furnished globals

instance : IsPreorder Loader (Lasts globals) where
  refl _ h := h
  trans _ _ _ h h' := h' ∘ h

theorem added (h : l.Furnished globals) (hglobals : l'.resolver.globalPaths = l.resolver.globalPaths)
    (hc : ∀ p, l'.cache.slots p = l.cache.slots p) {e : Entry} (hg : l'.graph = (l.graph.add e).1) :
    l'.Furnished globals := by
  refine h.of_slots hglobals (by simp [hg]) fun {p key id} hk => .inl ⟨p, ?_, fun hlt => ?_⟩
  · rw [Cache.get?, ← hc]
    exact hk
  · rw [hg, Graph.entry_add_of_lt _ _ hlt]
    exact ⟨.refl _, rfl⟩

theorem seeks : Seeks (Lasts globals) where
  toIsPreorder := inferInstance
  noted _ _ _ h := h.of_graph rfl rfl fun hk => ⟨_, hk⟩
  packaged _ h := h.of_graph rfl rfl fun hk => ⟨_, hk⟩
  linked l referrer request child h := by
    cases referrer with
    | none => exact h
    | some r =>
      refine h.of_slots rfl (Nat.le_of_eq (Graph.size_update _ _ _).symm) fun {p key id} hk => .inl ⟨p, hk, fun _ => ?_⟩
      have hspared := Entry.Spared.update l.graph r.id (f := fun e => e.addChild request child)
        (fun e => ⟨rfl, rfl, rfl, rfl, rfl⟩) id
      exact ⟨hspared.stays, hspared.format⟩
  builtinOf l name h := by
    unfold Loader.builtinOf
    cases l.cache.builtins.get? name with
    | some id => exact h
    | none => exact h.added rfl (fun p => by cases p <;> rfl) rfl
  classified l key h := by
    obtain ⟨cache, events, heq, -⟩ :=
      l.classified_frame key (Format.ofPath? (keyFile key)) (l.packageOf (keyFile key)).isUnexposed
    refine h.of_graph (by rw [heq]) (by rw [heq]) fun hk => ?_
    rcases get?_classified hk with hk' | ⟨rfl, id', hid, hk', -⟩
    · exact ⟨_, hk'⟩
    · cases hid
      exact ⟨_, hk'⟩
  added l e h := h.added rfl (fun _ => rfl) rfl

theorem occupied (h : l.Furnished globals) (job : Job) : (l.occupied job).Furnished globals := by
  have hglobals : (l.occupied job).resolver.globalPaths = l.resolver.globalPaths := by
    unfold Loader.occupied
    split <;> rfl
  refine h.of_slots hglobals (Nat.le_of_eq (size_occupied l job).symm) fun {p key id} hk => .inl ?_
  obtain ⟨-, ⟨⟩⟩ | ⟨-, hk⟩ := slot_of_occupied hk
  obtain ⟨name, hname⟩ := named_occupied l job id
  exact ⟨p, hk, fun _ => by rw [hname]; exact ⟨⟨rfl, rfl, rfl⟩, rfl⟩⟩

/-! ## Compiling a module -/

/-- A compiler begins with a module that has the search paths of its format. -/
theorem begun (h : l.Furnished globals) (hd : l.Due job) :
    let e := ((l.occupied job).begun job.id job.target.filename).graph.entry job.id
    e.module.filename = job.target.filename ∧ e.module.paths = searchPaths l.resolver e.package
      ((l.occupied job).compilation job.id job.target.filename).format job.target.filename := by
  obtain ⟨name, hname⟩ := named_occupied l job job.id
  have hbegun := (l.occupied job).entry_begun_self job.target.filename ((size_occupied l job).symm ▸ hd.ready.inRange)
  have hresolver : (l.occupied job).resolver = l.resolver := by
    unfold Loader.occupied
    split <;> rfl
  have hpaths : (l.occupied job).initialPaths job.id job.target.filename = searchPaths l.resolver
      (l.graph.entry job.id).package (l.graph.entry job.id).format job.target.filename := by
    unfold initialPaths
    simp only [hname, hresolver]
    split
    · rfl
    · next hsome =>
      -- only a module that was compiled before has search paths
      rcases hd.parsed_or_new with hslot | ⟨-, -, hnew⟩
      · have hfurnished := (h.entry (Cache.get?_of_slot? hslot)).2
        rw [hfurnished.paths, ← h.global, searchPaths_eq]
        exact hfurnished.filename.trans hd.keyFile_key
      · rw [hnew] at hsome
        exact absurd rfl hsome
  dsimp only
  rw [hbegun, hpaths, compilation_occupied, hname]
  exact ⟨rfl, rfl⟩

end Furnished

/-- The task of a module that is compiled leaves the module where it is. -/
theorem Due.stays_of_prepare (hd : l.Due job) (hc : l.Consistent)
    (hrun : (l.occupied job).run (prepare (loadNested limit) job.id job.target.filename) = (.ok c, l₂)) :
    (((l.occupied job).begun job.id job.target.filename).graph.entry job.id).Stays (l₂.graph.entry job.id) := by
  let P (l : Loader) : Prop := l.Consistent ∧ l.InProgress job.target.key job.partition job.id
  have hkept : ∀ {own : EntryId → Prop} {l l' : Loader}, Spares own l l' → P l → P l' := fun h hP =>
    ⟨(h hP.1).consistent, ((h hP.1).progress _ _ _).mpr hP.2⟩
  have hspares : Compiles job.id (Spares (· = job.id)) := Spares.compiles rfl
  have hnested : ∀ request, Follows (fun l l' => P l → P l' ∧ (l.graph.entry job.id).Stays (l'.graph.entry job.id))
      (loadNested limit request job.id) := by
    intro request l hP
    have hspared := Spares.loadNested limit request job.id l
    have hholds : l.Holds job.id := ⟨(hP.1.keyed hP.2 rfl).1, .inr ⟨_, _, hP.2⟩⟩
    exact ⟨hkept hspared hP, ((hspared hP.1).entry hholds not_false).stays⟩
  exact hspares.stays_of_prepare Spares.report hkept hnested
    ⟨hd.ready.consistent_occupied hc, hd.ready.own_occupied job rfl⟩ hrun

namespace Furnished

/-- The search paths of a module that was compiled follow its format. -/
theorem concluded (h : l.Furnished globals) (hc : l.Consistent) (hd : l.Due job)
    (hrun : (l.occupied job).run (prepare (loadNested limit) job.id job.target.filename) = (.ok c, l₂))
    (h₂ : l₂.Furnished globals) : ((l₂.marked job.id job.target.filename c).concluded job).Furnished globals := by
  obtain ⟨hc₂, hin⟩ := hd.ready.inProgress_of_prepare hc hrun
  have hevolves := (evolves_marked l₂ job.id job.target.filename c).trans
    (evolves_concluded (l := l₂.marked job.id job.target.filename c) hin)
  have hspared := entry_concluded (l₂.marked job.id job.target.filename c) job
  refine h₂.of_slots (congrArg Resolver.globalPaths hevolves.resolver) hevolves.graph.size fun {p key id} hk => ?_
  obtain ⟨⟨-, rfl⟩, ⟨⟩⟩ | ⟨-, hk⟩ := slot_of_concluded (l := l₂.marked job.id job.target.filename c)
    (Cache.get?_of_slot? hin) hk
  · -- the slot of the module itself
    right
    have hlt : job.id < l₂.graph.size := (hc₂.keyed hin rfl).1
    refine ⟨Nat.lt_of_lt_of_le hlt hevolves.graph.size, ?_⟩
    have hentry := entry_marked_self l₂ job.target.filename c hlt
    obtain ⟨hfile, hpaths⟩ := h.begun hd
    have hstays := hd.stays_of_prepare hc hrun
    obtain ⟨rfl, -⟩ := compiled_of_prepare hrun
    have hmarked := furnished_marked (c := (l.occupied job).compilation job.id job.target.filename) l₂.resolver
      (hstays.filename.trans hfile) ?_
    · rw [hd.keyFile_key, ← h₂.global]
      rw [← hentry] at hmarked
      exact hmarked.of_stays (hspared job.id).stays (hspared job.id).format
    · rw [hstays.paths, hpaths, hstays.package]
      exact searchPaths_congr (h.global.trans h₂.global.symm) _ _ _
  · -- the slots of other modules
    refine .inl ⟨p, hk, fun _ => ?_⟩
    have hentry := hspared id
    rw [entry_marked _ _ _ (hc₂.ne_of_ready hin hk).symm] at hentry
    exact ⟨hentry.stays, hentry.format⟩

theorem loads : Loads (Lasts globals) (Lasts globals) where
  toOutcomes := .self
  trail h h' := h' ∘ h
  report _ _ h := h.of_graph rfl rfl fun hk => ⟨_, hk⟩
  source {l key _ _} _ _ h := by
    have hquiet := Quiet.reading.source (keyFile key) l
    exact h.of_graph (congrArg Resolver.globalPaths (Evolves.reading.source (keyFile key) l).resolver) hquiet.graph
      fun hk => ⟨_, hquiet.cache ▸ hk⟩
  program {l key _ _} _ _ h := by
    have hquiet := Quiet.reading.program (keyFile key) l
    exact h.of_graph (congrArg Resolver.globalPaths (Evolves.reading.program (keyFile key) l).resolver) hquiet.graph
      fun hk => ⟨_, hquiet.cache ▸ hk⟩
  seek hc request parent isMain := seeks.seek hc.toOrderly request parent isMain
  write {l key p id} hc hin f hf h := by
    refine h.of_slots rfl (Nat.le_of_eq (Graph.size_update _ _ _).symm) fun {q k id'} hk => .inl ⟨q, hk, fun _ => ?_⟩
    rw [Graph.entry_update_of_ne _ _ (hc.ne_of_ready hin hk)]
    exact ⟨.refl _, rfl⟩
  fails {l l₂ job limit e} hc hd hrun h hl := by
    have hsame : (l₂.vacated job e).resolver = l₂.resolver ∧ (l₂.vacated job e).graph = l₂.graph := by
      unfold Loader.vacated
      split <;> exact ⟨rfl, rfl⟩
    refine (h (hl.occupied job)).of_graph (congrArg Resolver.globalPaths hsame.1) hsame.2 fun {p key id} hk => ?_
    obtain ⟨-, ⟨⟩⟩ | ⟨-, hk⟩ := slot_of_vacated hk
    exact ⟨_, hk⟩
  succeeds hc hd hrun h hl := hl.concluded hc hd hrun (h (hl.occupied _))

/-! ## All states -/

theorem withParsing (l : Loader) (parsing : Bool) : Lasts globals l (l.withParsing parsing) := fun h =>
  h.of_slots rfl (Nat.le_refl _) fun {p key id} hk => .inl ⟨p, by cases p <;> exact hk, fun _ => ⟨.refl _, rfl⟩⟩

theorem after {op : Operation} (h : l.Furnished globals) (hc : l.Consistent) (hop : l.Regular op) :
    (l.after op).Furnished globals := by
  cases op with
  | load request parent isMain => exact loads.follows_load hc request parent isMain h
  | discover request parent => exact loads.follows_discover hc withParsing request parent h
  | resolve request parent =>
    rw [Loader.after, run_resolve]
    exact h.of_graph rfl rfl fun hk => ⟨_, hk⟩
  | invalidate key => exact h.of_graph rfl rfl fun hk => ⟨_, get?_of_invalidate hk⟩
  | clearCache => exact h.of_graph rfl rfl fun {p _ _} hk => by cases p <;> cases hk
  | registerBuiltin name exports =>
    have hglobals : (l.resolver.addBuiltin name).globalPaths = l.resolver.globalPaths := by
      unfold Resolver.addBuiltin
      split <;> rfl
    refine h.of_slots hglobals (Nat.le_of_eq (l.retains_registerBuiltin name exports).1.symm) fun {p key id} hk =>
      .inl ⟨p, hk, fun _ => ?_⟩
    simp only [Loader.after, registerBuiltin, run_modify]
    cases l.cache.builtins.get? name with
    | none => exact ⟨.refl _, rfl⟩
    | some made =>
      dsimp only
      rw [Graph.entry_update]
      split
      · exact ⟨.of_recast (.setExports _ _), rfl⟩
      · exact ⟨.refl _, rfl⟩
  | registerCompiler extension c => exact h.of_graph rfl rfl fun hk => ⟨_, hk⟩
  | replaceCached p key id => exact hop.elim
  | changeFiles fs => exact h.of_graph rfl rfl fun hk => ⟨_, hk⟩

theorem of_comesTo {op : Operation} {m : Moment} (h : l.Furnished globals) (hc : l.Consistent) (hm : l.ComesTo op m) :
    m.loader.Furnished globals := by
  obtain ⟨first, hfirst, hasks⟩ := hm
  unfold beginning? at hfirst
  split at hfirst
  · cases hfirst
    exact holds_of_asks loads (fun {_ job} _ h => h.occupied job) hc h hasks
  · cases hfirst
    exact holds_of_asks loads (fun {_ job} _ h => h.occupied job) (hc.withParsing true) (withParsing l true h) hasks
  · cases hfirst

end Furnished

theorem Starts.furnished (h : l.Starts) : l.Furnished l.resolver.globalPaths where
  global := rfl
  entry hk := by
    rw [h.fresh.cache] at hk
    rename_i p _ _
    cases p <;> cases hk

/-- In every state of a loader each module that is ready has the search paths of its file, its package and its
format. -/
theorem furnished_of_occurs (hs : start.Starts) (h : Occurs (· = start) Regular l)
    (hready : l.cache.get? p key = some (.ready id)) :
    (l.graph.entry id).Furnished start.resolver.globalPaths (keyFile key) := by
  have hbetween : ∀ {l}, Reachable (· = start) Regular l → l.Consistent ∧ l.Furnished start.resolver.globalPaths := by
    intro l h
    refine h.invariant (P := fun l => l.Consistent ∧ l.Furnished start.resolver.globalPaths) ?_
      fun _ _ hl hop => ⟨hl.1.after hop, hl.2.after hl.1 hop⟩
    rintro _ rfl
    exact ⟨hs.resting.toConsistent, hs.furnished⟩
  cases h with
  | between h => exact ((hbetween h).2.entry hready).2
  | inside h _ hm =>
    obtain ⟨hc, hl⟩ := hbetween h
    exact ((hl.of_comesTo hc hm).entry hready).2

/-- A loader with a global folder in which legacy modules may search. -/
def shelved : Loader :=
  .ofConfig { Config.default ⟨none, some "/lib"⟩ with defaultOptions := ⟨.auto, ⟨false, true⟩⟩ } mixedFiles

/-- The declarative module is parsed before the legacy module asks for it. -/
def shelvedLater : Loader := (shelved.after (.discover "./low.js" none)).after (.load "./main.js" none true)

theorem furnished_shelved :
    (shelvedLater.cache.get? .declarative "/app/low.js" = some (.ready 0) ∧
      (shelvedLater.graph.entry 0).Furnished [⟨"/lib"⟩] ⟨"/app/low.js"⟩ ∧
      (shelvedLater.graph.entry 0).module.paths = [⟨"/app/node_modules"⟩, ⟨"/node_modules"⟩]) ∧
    shelvedLater.cache.get? .legacy "/app/main.js" = some (.ready 1) ∧
      (shelvedLater.graph.entry 1).Furnished [⟨"/lib"⟩] ⟨"/app/main.js"⟩ ∧
      (shelvedLater.graph.entry 1).module.paths = [⟨"/app/node_modules"⟩, ⟨"/node_modules"⟩, ⟨"/lib"⟩] := by
  have hstarts : shelved.Starts := ⟨fresh_ofConfig _ _, ⟨by decide, fun hc => by cases hc⟩⟩
  have hoccurs : Occurs (· = shelved) Regular shelvedLater := .between (.after (.after (.start rfl) trivial) trivial)
  have hglobals : shelved.resolver.globalPaths = [⟨"/lib"⟩] := by decide +kernel
  have hlow : shelvedLater.cache.get? .declarative "/app/low.js" = some (.ready 0) := by decide +kernel
  have hmain : shelvedLater.cache.get? .legacy "/app/main.js" = some (.ready 1) := by decide +kernel
  rw [← hglobals]
  exact ⟨⟨hlow, furnished_of_occurs hstarts hoccurs hlow, by decide +kernel⟩, hmain,
    furnished_of_occurs hstarts hoccurs hmain, by rw [hglobals]; decide +kernel⟩

end Loader
end ModGraph
