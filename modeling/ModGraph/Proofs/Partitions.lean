import ModGraph.Proofs.Formats
import ModGraph.Proofs.Lasting

/-!
# Partitions fit

Which partition a module belongs to follows from its file, its format and its package (`Placed`). A loader
decides that at three moments: when it makes a slot, when the module is compiled, and when it adopts a
module of discovery. At each of them it decides as a file's format demands (`Loader.Filed`), since the format
is a matter of what is read, and that does not change. So whatever is loaded, parsed, resolved and dropped,
between calls all ready slots are where they belong (`Loader.fitting_of_reachable`).
-/

namespace ModGraph

open Json (Value)
open Loader (Compilation Job)
open Source (Program)

/-- The slot of a file may be in a partition, given whether its package keeps declarative modules to itself,
and the module's format. -/
def Placed (file : Path) (unexposed : Bool) (format : Format) : Partition → Prop
  | .declarative => file.extension = some "mjs" ∨ format = .declarative ∧ unexposed = true
  | .legacy => file.extension ≠ some "mjs" ∧ ¬(format = .declarative ∧ unexposed = true)
  | .discovery => ∃ ext, file.extension = some ext ∧ ext ≠ "mjs" ∧ ext ≠ "cjs" ∧ ext ≠ "json"

theorem ofPath?_eq_none_iff (file : Path) : Format.ofPath? file = none ↔
    ∃ ext, file.extension = some ext ∧ ext ≠ "mjs" ∧ ext ≠ "cjs" ∧ ext ≠ "json" := by
  unfold Format.ofPath?
  split <;> simp_all

/-- A module that leaves discovery gets to its place. -/
theorem placed_settledPartition {file : Path} {unexposed' : Bool} {format' : Format}
    (h : Placed file unexposed' format' .discovery) (unexposed : Bool) (format : Format) :
    Placed file unexposed format (Loader.settledPartition unexposed format) := by
  obtain ⟨ext, hext, hmjs, -⟩ := h
  have hne : file.extension ≠ some "mjs" := by
    rw [hext]
    simpa using hmjs
  unfold Loader.settledPartition
  split
  · next hd =>
    right
    simpa [and_comm] using hd
  · next hd =>
    refine ⟨hne, fun ⟨hf, hu⟩ => hd ?_⟩
    simp [hf, hu]

/-- A file whose extension fixes its format gets a slot in its place right away. -/
theorem placed_newPartition {file : Path} {mode : Mode} {program : Except LoadError Program} {format : Format}
    (h : format = .declarative ↔ IsDeclarative file mode program) (unexposed : Bool) :
    Placed file unexposed format (Loader.newPartition (Format.ofPath? file)) := by
  cases hfixed : Format.ofPath? file with
  | none => exact (ofPath?_eq_none_iff file).mp hfixed
  | some fixed =>
    cases fixed with
    | declarative => exact .inl ((Loader.declarative_iff_extension file).mp hfixed)
    | legacy =>
      -- neither is such a file declarative by its extension, nor is its extension `.js`
      have hmjs : file.extension ≠ some "mjs" := fun hext => by
        rw [(Loader.declarative_iff_extension file).mpr hext] at hfixed
        cases hfixed
      refine ⟨hmjs, fun ⟨hd, _⟩ => ?_⟩
      rcases h.mp hd with hext | ⟨hjs, -⟩
      · exact hmjs hext
      · simp [Format.ofPath?, hjs] at hfixed

namespace Loader

variable {l l' l₂ : Loader} {packages : Path → PackageContext} {programs : Path → Except LoadError Program}
  {job : Job} {limit : Nat} {key : String} {p : Partition} {id : EntryId}

/-! ## Ready slots -/

/-- A ready slot and its entry are as the file of the key demands. -/
structure Filed (packages : Path → PackageContext) (programs : Path → Except LoadError Program) (l : Loader)
    (key : String) (p : Partition) (id : EntryId) : Prop where
  inRange : id < l.graph.size
  filename : (l.graph.entry id).module.filename = keyFile key
  package : (l.graph.entry id).package = packages (keyFile key)
  format : (l.graph.entry id).format = .declarative ↔
    IsDeclarative (keyFile key) (packages (keyFile key)).options.mode (programs (keyFile key))
  placed : Placed (keyFile key) (packages (keyFile key)).isUnexposed (l.graph.entry id).format p
  parsed : p = .discovery → (l.graph.entry id).parsed = true
  /-- What was only parsed exports nothing, unless its file is its own value. -/
  blank : (l.graph.entry id).isLoaded = false →
    (l.graph.entry id).module.exports = .object [] ∨ (keyFile key).extension = some "json"

/-- A loader with the compilers that come with it, all of whose ready slots are where they belong. -/
structure Sorted (packages : Path → PackageContext) (programs : Path → Except LoadError Program) (l : Loader) :
    Prop extends Rereadable packages programs l where
  compilers : l.compilers = .standard
  filed : ∀ {key p id}, l.cache.get? p key = some (.ready id) → l.Filed packages programs key p id

/-- Only these parts of an entry matter. -/
theorem Filed.of_eq (h : l.Filed packages programs key p id) (hsize : l.graph.size ≤ l'.graph.size)
    (hfile : (l'.graph.entry id).module.filename = (l.graph.entry id).module.filename)
    (hpackage : (l'.graph.entry id).package = (l.graph.entry id).package)
    (hformat : (l'.graph.entry id).format = (l.graph.entry id).format)
    (hparsed : (l'.graph.entry id).parsed = (l.graph.entry id).parsed)
    (hloaded : (l'.graph.entry id).isLoaded = (l.graph.entry id).isLoaded)
    (hexports : (l'.graph.entry id).module.exports = (l.graph.entry id).module.exports) :
    l'.Filed packages programs key p id where
  inRange := Nat.lt_of_lt_of_le h.inRange hsize
  filename := hfile.trans h.filename
  package := hpackage.trans h.package
  format := hformat ▸ h.format
  placed := hformat ▸ h.placed
  parsed hp := hparsed.trans (h.parsed hp)
  blank hl := hexports ▸ h.blank (hloaded.symm.trans hl)

theorem Filed.of_spared (h : l.Filed packages programs key p id) (hsize : l.graph.size ≤ l'.graph.size)
    (hs : (l.graph.entry id).Spared (l'.graph.entry id)) : l'.Filed packages programs key p id :=
  h.of_eq hsize (by rw [hs.module]) hs.package hs.format hs.parsed hs.isLoaded (by rw [hs.module])

namespace Sorted

/-- Slots are the same or where they belong, and entries of slots that are the same are spared. -/
theorem of_slots (h : l.Sorted packages programs) (hr : l'.Rereadable packages programs)
    (hc : l'.compilers = l.compilers)
    (hslot : ∀ {key p id}, l'.cache.get? p key = some (.ready id) →
      l.cache.get? p key = some (.ready id) ∧ (l.Filed packages programs key p id →
        l'.Filed packages programs key p id) ∨ l'.Filed packages programs key p id) :
    l'.Sorted packages programs :=
  { hr with
    compilers := hc.trans h.compilers
    filed := fun hk => by
      rcases hslot hk with ⟨hk', hfiled⟩ | hfiled
      · exact hfiled (h.filed hk')
      · exact hfiled }

theorem of_graph (h : l.Sorted packages programs) (hr : l'.Rereadable packages programs)
    (hc : l'.compilers = l.compilers) (hs : ∀ p, l'.cache.slots p = l.cache.slots p) (hg : l'.graph = l.graph) :
    l'.Sorted packages programs := by
  refine h.of_slots hr hc fun {key p id} hk => .inl ⟨?_, fun hf => ?_⟩
  · rw [Cache.get?, ← hs]
    exact hk
  · refine hf.of_spared (by rw [hg]) ?_
    rw [hg]
    exact .refl _

/-- What is sorted stays so. -/
def Lasts (packages : Path → PackageContext) (programs : Path → Except LoadError Program) (l l' : Loader) : Prop :=
  l.Sorted packages programs → l'.Sorted packages programs

instance : IsPreorder Loader (Lasts packages programs) where
  refl _ h := h
  trans _ _ _ h h' := h' ∘ h

theorem linked (h : l.Sorted packages programs) (referrer : Option Referrer) (request : String)
    (child : EntryId) : (l.linked referrer request child).Sorted packages programs := by
  have hr := Rereadable.Lasts.seeks.linked l referrer request child h.toRereadable
  cases referrer with
  | none => exact h
  | some r =>
    refine h.of_slots hr rfl fun {key p id} hk => .inl ⟨hk, fun hf => ?_⟩
    have hspared := Entry.Spared.update l.graph r.id (f := fun e => e.addChild request child)
      (fun e => ⟨rfl, rfl, rfl, rfl, rfl⟩) id
    exact hf.of_spared (by simp [Loader.linked]) hspared

theorem added (h : l.Sorted packages programs) (hr : l'.Rereadable packages programs)
    (hc : l'.compilers = l.compilers) (hs : ∀ p, l'.cache.slots p = l.cache.slots p) {e : Entry}
    (hg : l'.graph = (l.graph.add e).1) : l'.Sorted packages programs := by
  refine h.of_slots hr hc fun {key p id} hk => .inl ⟨?_, fun hf => ?_⟩
  · rw [Cache.get?, ← hs]
    exact hk
  · refine hf.of_spared (by simp [hg]) ?_
    rw [hg, Graph.entry_add_of_lt _ _ hf.inRange]
    exact .refl _

theorem builtinOf (h : l.Sorted packages programs) (name : String) :
    (l.builtinOf name).2.Sorted packages programs := by
  have hr := Rereadable.Lasts.seeks.builtinOf l name h.toRereadable
  unfold Loader.builtinOf at hr ⊢
  cases hb : l.cache.builtins.get? name with
  | some id => exact h
  | none =>
    rw [hb] at hr
    exact h.added hr rfl (fun p => by cases p <;> rfl) rfl

/-- A module of discovery is adopted where it belongs. -/
theorem classified (h : l.Sorted packages programs) (key : String) :
    (l.classified key (Format.ofPath? (keyFile key)) (l.packageOf (keyFile key)).isUnexposed).2.Sorted
      packages programs := by
  have hr := Rereadable.Lasts.seeks.classified l key h.toRereadable
  have hslot := @get?_classified l key (Format.ofPath? (keyFile key)) (l.packageOf (keyFile key)).isUnexposed
  obtain ⟨cache, events, heq, -⟩ :=
    l.classified_frame key (Format.ofPath? (keyFile key)) (l.packageOf (keyFile key)).isUnexposed
  rw [heq] at hr hslot ⊢
  refine h.of_slots hr rfl fun {k q id} hk => ?_
  rcases hslot hk with hk' | ⟨rfl, id', hid, hk', rfl⟩
  · exact .inl ⟨hk', fun hf => hf.of_spared (Nat.le_refl _) (.refl _)⟩
  · cases hid
    right
    have hf := h.filed hk'
    rw [h.recites.packageOf (h.canonical hk')]
    exact { hf with
      placed := placed_settledPartition hf.placed _ _
      parsed := fun hd => absurd hd (settledPartition_ne _ _) }

theorem seeks : Seeks (Lasts packages programs) where
  toIsPreorder := inferInstance
  noted l _ he h := h.of_graph (Rereadable.Lasts.seeks.noted l he h.toRereadable) rfl (fun _ => rfl) rfl
  packaged hr h := h.of_graph (Rereadable.Lasts.seeks.packaged hr h.toRereadable) rfl (fun _ => rfl) rfl
  linked _ referrer request child h := h.linked referrer request child
  builtinOf _ name h := h.builtinOf name
  classified _ key h := h.classified key
  added l e h := h.added (Rereadable.Lasts.seeks.added l e h.toRereadable) rfl (fun _ => rfl) rfl

/-! ## The end of a compilation -/

theorem occupied (h : l.Sorted packages programs) (hd : l.Due job) : (l.occupied job).Sorted packages programs := by
  have hc : (l.occupied job).compilers = l.compilers := by
    unfold Loader.occupied
    split <;> rfl
  refine h.of_slots (h.toRereadable.occupied hd) hc fun {key p id} hk => .inl ?_
  obtain ⟨-, ⟨⟩⟩ | ⟨-, hk⟩ := slot_of_occupied hk
  obtain ⟨name, hname⟩ := named_occupied l job id
  refine ⟨hk, fun hf => hf.of_eq (Nat.le_of_eq (size_occupied l job).symm) ?_ ?_ ?_ ?_ ?_ ?_⟩ <;> rw [hname]
  rfl

end Sorted

/-- A module that is due has the package of its file. -/
theorem Due.package_eq (hd : l.Due job) (h : l.Sorted packages programs) :
    job.target.package = packages job.target.filename :=
  hd.package.symm.trans (h.recites.packageOf (hd.canonical h.proper))

theorem Due.package_entry (hd : l.Due job) (h : l.Sorted packages programs) :
    (l.graph.entry job.id).package = job.target.package := by
  rcases hd.parsed_or_new with hslot | ⟨-, -, hnew⟩
  · have hf := h.filed (Cache.get?_of_slot? hslot)
    rw [hf.package, hd.keyFile_key, hd.package_eq h]
  · rw [hnew]
    rfl

/-- A module that is due exports nothing yet, unless its file is its own value. -/
theorem Due.blank (hd : l.Due job) (h : l.Sorted packages programs) :
    (l.graph.entry job.id).module.exports = .object [] ∨ job.target.filename.extension = some "json" := by
  rcases hd.parsed_or_new with hslot | ⟨-, -, hnew⟩
  · rw [← hd.keyFile_key]
    exact (h.filed (Cache.get?_of_slot? hslot)).blank hd.ready.unloaded
  · rw [hnew]
    exact .inl rfl

theorem eq_of_declarative_iff {format format' : Format}
    (h : format = .declarative ↔ format' = .declarative) : format = format' := by
  cases format <;> cases format' <;> simp_all

/-- A slot is made where the module may belong, and one that was found is where the module belongs. -/
theorem Due.placed (hd : l.Due job) (h : l.Sorted packages programs) {format : Format}
    (hformat : format = .declarative ↔
      IsDeclarative job.target.filename job.target.package.options.mode (programs job.target.filename)) :
    Placed job.target.filename job.target.package.isUnexposed format job.partition := by
  rcases hd.parsed_or_new with hslot | ⟨-, hpartition, -⟩
  · have hf := h.filed (Cache.get?_of_slot? hslot)
    have hfiled := hf.format
    have hplaced := hf.placed
    rw [hd.keyFile_key, ← hd.package_eq h] at hfiled hplaced
    rwa [eq_of_declarative_iff (hformat.trans hfiled.symm)]
  · rw [hpartition, hd.fixed]
    exact placed_newPartition hformat _

/-- The marks of a compilation leave what decides on the place of a module alone. -/
theorem decisive_marked (l : Loader) {id : EntryId} (filename : Path) (c : Compilation) (h : id < l.graph.size) :
    let e := l.graph.entry id
    let e' := (l.marked id filename c).graph.entry id
    e'.module.filename = e.module.filename ∧ e'.package = e.package ∧ e'.format = e.format ∧
      (c.parsing = true → e'.parsed = true) := by
  dsimp only
  unfold marked
  dsimp only
  split
  · rw [Graph.entry_update_self _ _ (by simpa using h), Graph.entry_update_self _ _ h]
    cases c.parsing <;> simp [Entry.setPaths, Entry.setLoaded]
  · rw [Graph.entry_update_self _ _ h]
    cases c.parsing <;> simp [Entry.setLoaded]

namespace Sorted

/-- A compiled module gets to the partition that its format and its package demand. -/
theorem placed_finalPartition (hd : l.Due job) (h : l.Sorted packages programs) {format : Format}
    (hformat : format = .declarative ↔
      IsDeclarative job.target.filename job.target.package.options.mode (programs job.target.filename))
    (hentry : (l'.graph.entry job.id).format = format) :
    Placed job.target.filename job.target.package.isUnexposed format (l'.finalPartition job) := by
  have hplaced := hd.placed h hformat
  unfold finalPartition
  split
  · next hmoves =>
    have hdiscovery : job.partition = .discovery := by simp_all
    rw [hdiscovery] at hplaced
    rw [hentry]
    exact placed_settledPartition hplaced _ _
  · exact hplaced

/-- A module that was compiled is where it belongs. -/
theorem filed_concluded (hc : l.Consistent) (hd : l.Due job) (h : l.Sorted packages programs) {c : Compilation}
    (hrun : (l.occupied job).run (prepare (loadNested limit) job.id job.target.filename) = (.ok c, l₂)) :
    ((l₂.marked job.id job.target.filename c).concluded job).Filed packages programs job.target.key
      ((l₂.marked job.id job.target.filename c).finalPartition job) job.id := by
  obtain ⟨hc₂, hin⟩ := hd.ready.inProgress_of_prepare hc hrun
  obtain ⟨hparsing, hparsing₂⟩ := parsing_of_prepare hrun
  obtain ⟨format, exports, _, hw, hformat, hexports⟩ :=
    hd.writes_of_prepare hc h.toRereadable h.compilers (hd.package_entry h) hrun
  have hlt : job.id < l₂.graph.size := (hc₂.keyed hin rfl).1
  obtain ⟨hfile, hpackage, hform, hparsed⟩ := decisive_marked l₂ job.target.filename c hlt
  have hform' := hform.trans hw.format
  have hfiled : (l₂.marked job.id job.target.filename c).Filed packages programs job.target.key
      ((l₂.marked job.id job.target.filename c).finalPartition job) job.id := by
    refine ⟨?_, ?_, ?_, ?_, ?_, fun hdiscovery => hparsed ?_, fun hunloaded => ?_⟩
    · exact Nat.lt_of_lt_of_le hlt (evolves_marked l₂ job.id job.target.filename c).graph.size
    · rw [hfile, hw.filename, hd.keyFile_key]
    · rw [hpackage, hw.package, hd.keyFile_key, hd.package_eq h]
    · rw [hform', hd.keyFile_key, ← hd.package_eq h]
      exact hformat
    · rw [hform', hd.keyFile_key, ← hd.package_eq h]
      exact placed_finalPartition hd h hformat hform'
    · have hpass : l₂.cache.parsing = true :=
        finalPartition_eq_discovery (l := l₂.marked job.id job.target.filename c) hdiscovery
      exact hparsing.trans (hparsing₂.symm.trans hpass)
    · -- only a parse-only pass leaves the module unloaded
      have hpass : c.parsing = true := by
        cases hc' : c.parsing with
        | true => rfl
        | false =>
          rw [isLoaded_marked _ _ hlt hc'] at hunloaded
          cases hunloaded
      rw [exports_marked, hw.exports, hd.keyFile_key]
      rcases hexports (hparsing.symm.trans hpass) with rfl | hjson
      · exact hd.blank h
      · exact .inr hjson
  exact hfiled.of_spared (evolves_concluded (l := l₂.marked job.id job.target.filename c) hin).graph.size
    (entry_concluded (l₂.marked job.id job.target.filename c) job job.id)

theorem concluded (hc : l.Consistent) (hd : l.Due job) (h : l.Sorted packages programs) {c : Compilation}
    (hrun : (l.occupied job).run (prepare (loadNested limit) job.id job.target.filename) = (.ok c, l₂))
    (h₂ : l₂.Sorted packages programs) :
    ((l₂.marked job.id job.target.filename c).concluded job).Sorted packages programs := by
  obtain ⟨hc₂, hin⟩ := hd.ready.inProgress_of_prepare hc hrun
  have hr := Rereadable.loads.succeeds hc hd hrun (fun _ => h₂.toRereadable) h.toRereadable
  have hevolves := (evolves_marked l₂ job.id job.target.filename c).trans (evolves_concluded hin)
  have ho : (l₂.marked job.id job.target.filename c).Orderly := ⟨hc₂.exclusive, hc₂.unmarked.of_eq rfl rfl⟩
  obtain ⟨hexclusive, hslot⟩ := slot?_concluded ho hin
  refine h₂.of_slots hr hevolves.compilers fun {key p id} hk => ?_
  have hk' := hexclusive.slot?_eq_some.mpr hk
  rw [hslot] at hk'
  split at hk'
  · next hkey =>
    -- the slot of the module itself
    subst hkey
    obtain rfl : _ = p := congrArg Prod.fst (Option.some.inj hk')
    obtain rfl : job.id = id := by
      have hready : Slot.ready job.id = .ready id := congrArg Prod.snd (Option.some.inj hk')
      exact Slot.ready.inj hready
    exact .inr (filed_concluded hc hd h hrun)
  · next hkey =>
    -- the slots of other modules
    have hne : id ≠ job.id := by
      rintro rfl
      exact hkey ((hc₂.keyed hin rfl).2.symm.trans (hc₂.keyed hk' rfl).2)
    refine .inl ⟨Cache.get?_of_slot? hk', fun hf => hf.of_spared hevolves.graph.size ?_⟩
    have hentry := entry_concluded (l₂.marked job.id job.target.filename c) job id
    rwa [entry_marked _ _ _ hne] at hentry

theorem withParsing (h : l.Sorted packages programs) (parsing : Bool) :
    (l.withParsing parsing).Sorted packages programs :=
  h.of_graph (h.toRereadable.withParsing parsing) rfl (fun p => by cases p <;> rfl) rfl

/-- All along a load ready slots are where they belong. -/
theorem loads : Loads (Lasts packages programs) (Lasts packages programs) where
  toOutcomes := .self
  trail h h' := h' ∘ h
  report event := fun l h => h.of_graph (Rereadable.loads.report event l h.toRereadable) rfl (fun _ => rfl) rfl
  source {l key _ _} hc hin h := by
    have hquiet := Quiet.reading.source (keyFile key) l
    have hr := Rereadable.loads.source hc hin h.toRereadable
    have hcompilers := (Evolves.reading.source (keyFile key) l).compilers
    exact h.of_graph hr hcompilers (fun p => by rw [hquiet.cache]) hquiet.graph
  program {l key _ _} hc hin h := by
    have hquiet := Quiet.reading.program (keyFile key) l
    have hr := Rereadable.loads.program hc hin h.toRereadable
    have hcompilers := (Evolves.reading.program (keyFile key) l).compilers
    exact h.of_graph hr hcompilers (fun p => by rw [hquiet.cache]) hquiet.graph
  seek hc request parent isMain := seeks.seek hc.toOrderly request parent isMain
  write {l key p id} hc hin f hf h := by
    refine h.of_slots (Rereadable.loads.write hc hin hf h.toRereadable) rfl fun {k q id'} hk =>
      .inl ⟨hk, fun hfiled => ?_⟩
    -- the entry of a module in progress has no ready slot
    have hne : id ≠ id' := by
      rintro rfl
      have hslot := hc.exclusive.slot?_eq_some.mpr hk
      have hkey := (hc.keyed hin rfl).2.symm.trans (hc.keyed hslot rfl).2
      rw [InProgress, hkey, hslot] at hin
      cases hin
    refine hfiled.of_spared (by simp) ?_
    rw [Graph.entry_update_of_ne _ _ hne]
    exact .refl _
  fails {l l₂ job limit e} hc hd hrun h hl := by
    have h₂ := h (hl.occupied hd)
    have hr := Rereadable.loads.fails hc hd hrun (fun _ => h₂.toRereadable) hl.toRereadable
    have hgraph : (l₂.vacated job e).graph = l₂.graph ∧ (l₂.vacated job e).compilers = l₂.compilers := by
      unfold Loader.vacated
      split <;> exact ⟨rfl, rfl⟩
    refine h₂.of_slots hr hgraph.2 fun {key p id} hk => .inl ?_
    obtain ⟨-, ⟨⟩⟩ | ⟨-, hk⟩ := slot_of_vacated hk
    refine ⟨hk, fun hf => hf.of_spared (by rw [hgraph.1]) ?_⟩
    rw [hgraph.1]
    exact .refl _
  succeeds hc hd hrun h hl := hl.concluded hc hd hrun (h (hl.occupied hd))

end Sorted

/-! ## Between calls -/

/-- A loader at the start, with the compilers that come with it as they are, while nobody else changes the
files: its working directory has the names that directories can have, and should the loader itself write to
a code cache, it finds the same programs as before. -/
structure Outset (l : Loader) : Prop extends Starts l where
  compilers : l.compilers = .standard
  proper : FileSystem.Proper l.files.workingDirectory
  unchanging : l.codeCache? ≠ none → l.Unchanging

/-- What neither changes the files nor registers anything. -/
def Undisturbed (_ : Loader) : Operation → Prop
  | .load .. => True
  | .discover .. => True
  | .resolve .. => True
  | .invalidate _ => True
  | .clearCache => True
  | _ => False

theorem Undisturbed.regular {op : Operation} (h : Undisturbed l op) : l.Regular op := by
  cases op <;> trivial

theorem Outset.sorted (h : l.Outset) : ∃ packages programs, l.Sorted packages programs := by
  have hnone : ∀ p key, l.cache.get? p key = none := fun p key => by
    rw [h.fresh.cache]
    cases p <;> rfl
  obtain ⟨packages, programs, hrecites⟩ : l.Unchanging := by
    by_cases hc : l.codeCache? = none
    · exact (h.fresh.sees hc).unchanging
    · exact h.unchanging hc
  exact ⟨packages, programs, {
    recites := hrecites
    proper := h.proper
    canonical := fun hk => by rw [hnone] at hk; cases hk
    compilers := h.compilers
    filed := fun hk => by rw [hnone] at hk; cases hk }⟩

theorem Sorted.after {op : Operation} (h : l.Sorted packages programs) (hc : l.Consistent) (hop : Undisturbed l op) :
    (l.after op).Sorted packages programs := by
  -- what is dropped leaves the slots that stay as they are
  have hfewer : ∀ {l' : Loader}, Rereads l l' → l'.files = l.files → l'.compilers = l.compilers →
      l'.graph = l.graph → (∀ {q k s}, l'.cache.get? q k = some s → l.cache.get? q k = some s) →
      l'.Sorted packages programs := by
    intro l' hr hf hcomp hg hs
    have hr' : l'.Rereadable packages programs :=
      h.toRereadable.rereads hr (congrArg FileSystem.workingDirectory hf) fun hk => .inl ⟨_, _, hs hk⟩
    refine h.of_slots hr' hcomp fun hk => .inl ⟨hs hk, fun hfiled => hfiled.of_spared (by rw [hg]) ?_⟩
    rw [hg]
    exact .refl _
  cases op with
  | load request parent isMain => exact loads.follows_load hc request parent isMain h
  | discover request parent =>
    exact loads.follows_discover hc (fun l parsing h => h.withParsing parsing) request parent h
  | resolve request parent =>
    rw [Loader.after, run_resolve]
    exact h.of_graph (h.same ⟨rfl, rfl, rfl, rfl, rfl⟩ fun _ => rfl) rfl (fun _ => rfl) rfl
  | invalidate key => exact hfewer (.invalidate l key) rfl rfl rfl get?_of_invalidate
  | clearCache => exact hfewer (.clearCache l) rfl rfl rfl fun {q k s} hk => by cases q <;> cases hk
  | _ => exact hop.elim

/-- A ready slot and its entry are as the files demand, as the loader finds them now. -/
structure Belongs (l : Loader) (key : String) (p : Partition) (id : EntryId) : Prop where
  filename : (l.graph.entry id).module.filename = keyFile key
  package : (l.graph.entry id).package = l.packageOf (keyFile key)
  declarative : (l.graph.entry id).format = .declarative ↔ IsDeclarative (l.graph.entry id).module.filename
    (l.graph.entry id).package.options.mode (l.run (programOf (l.graph.entry id).module.filename)).1
  placed : Placed (l.graph.entry id).module.filename (l.graph.entry id).package.isUnexposed
    (l.graph.entry id).format p
  discovered : p = .discovery → (l.graph.entry id).parsed = true ∧ (l.graph.entry id).isLoaded = false

theorem Sorted.belongs (h : l.Sorted packages programs) (hr : l.Resting)
    (hk : l.cache.get? p key = some (.ready id)) : l.Belongs key p id := by
  have hf := h.filed hk
  have hcanonical := h.canonical hk
  have hpackage := h.recites.packageOf hcanonical
  refine ⟨hf.filename, hf.package.trans hpackage.symm, ?_, ?_, fun hp => ⟨hf.parsed hp, ?_⟩⟩
  · rw [hf.filename, hf.package, h.recites.programOf hcanonical]
    exact hf.format
  · rw [hf.filename, hf.package]
    exact hf.placed
  · -- a loaded module leaves discovery
    subst hp
    obtain ⟨id', hid, -, hloaded⟩ := hr.provisional _ _ (hr.exclusive.slot?_eq_some.mpr hk)
    cases hid
    exact hloaded

/-- A directory with a legacy module that asks for a declarative one. -/
def mixedFiles : FileSystem where
  nodes := ⟨[
    (["app"], .directory),
    (["low.js", "app"], .file "export const n = 1".toUTF8),
    (["main.js", "app"], .file "exports.low = require(\"./low.js\").n".toUTF8)]⟩
  workingDirectory := ["app"]

/-- A loader with nothing set, before the modules of `mixedFiles` are asked for. -/
def mixed : Loader := .ofConfig (.default ⟨none, none⟩) mixedFiles

theorem outset_mixed : mixed.Outset where
  fresh := fresh_ofConfig _ _
  unmarked := ⟨by decide, fun hc => by cases hc⟩
  compilers := rfl
  proper := fun name hname => by
    obtain rfl := List.mem_singleton.mp hname
    exact Path.isStep_name.mpr (by decide)
  unchanging := fun hc => absurd rfl hc

end Loader
end ModGraph
