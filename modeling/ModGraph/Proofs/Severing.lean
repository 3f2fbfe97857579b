import ModGraph.Proofs.Partitions
import ModGraph.Proofs.Drafts

/-!
# Severed parents

A legacy module that a declarative module of a package that keeps to itself imports loses its parent when it
is evaluated. The loader looks at who asks then, not at the parent; the parent is whoever asked first. The two
are the same unless the module was parsed before, so every loaded legacy module that still has such a parent
went through a parse-only pass (`Loader.parsed_of_unsevered`), and there are such modules
(`Loader.unsevered`).

That needs to know that who asks for modules does not become declarative afterwards. A module in progress has
its final format when it asks (`CompilerTable.heeds_standard`). A module that was loaded or parsed has it too;
and one that failed is never compiled again, as no slot leads to it (`Loader.Shields`).
-/

namespace ModGraph

open Relation (ReflTransGen)
open Source (Statement Program)
open Loader (Job Compilation)

/-- The file of an entry is a declarative module, given the programs of files. -/
def Entry.Declares (programs : Path → Except LoadError Program) (e : Entry) : Prop :=
  IsDeclarative (keyFile e.key) e.package.options.mode (programs (keyFile e.key))

theorem Entry.Develops.declares {programs : Path → Except LoadError Program} {e e' : Entry} (h : e.Develops e') :
    e'.Declares programs ↔ e.Declares programs := by
  rw [Entry.Declares, h.key, h.package, Entry.Declares]

/-- What decides whether an entry should keep its parent is as it was. -/
def Entry.Bears (e e' : Entry) : Prop :=
  e'.format = e.format ∧ e'.isLoaded = e.isLoaded ∧ e'.parsed = e.parsed

theorem Entry.Spared.bears {e e' : Entry} (h : e.Spared e') : e.Bears e' := ⟨h.format, h.isLoaded, h.parsed⟩

/-! ## Formats in time -/

namespace Task

variable {program : Except LoadError Program} {declares : Prop} {format : Format} {next : Task}

/-- A task that begins with a format makes no module declarative whose file is not, and asks for modules only
once the module has the format of its file. -/
def Heeds (program : Except LoadError Program) (declares : Prop) (format : Format) : Task → Prop
  | .done => True
  | .fail _ => True
  | .setFormat format' next => (format' = .declarative → declares) ∧ next.Heeds program declares format'
  | .report _ next => next.Heeds program declares format
  | .readSource next => ∀ source, (next source).Heeds program declares format
  | .readProgram next => ∀ p, program = .ok p → (next p).Heeds program declares format
  | .require _ next => (format = .legacy → ¬ declares) ∧ ∀ d, (next d).Heeds program declares format
  | .setExports _ next => next.Heeds program declares format
  | .setExport _ _ next => next.Heeds program declares format

theorem heeds_requireAll (h : format = .legacy → ¬ declares) (requests : List String)
    (hnext : next.Heeds program declares format) : (requireAll requests next).Heeds program declares format := by
  induction requests with
  | nil => exact hnext
  | cons request rest ih => exact ⟨h, fun _ => ih⟩

theorem heeds_assign (name : Option String) (v : Json.Value) (h : next.Heeds program declares format) :
    (assign name v next).Heeds program declares format := by
  cases name <;> exact h

variable (cx : CompileContext)

theorem heeds_evaluateLegacy (h : format = .legacy → ¬ declares) (statements : List Statement) :
    (evaluateLegacy cx statements).Heeds program declares format := by
  induction statements with
  | nil => trivial
  | cons first rest ih =>
    unfold evaluateLegacy
    split
    · trivial
    · next heq =>
      cases heq
      exact heeds_assign _ _ ih
    · next heq =>
      cases heq
      exact ⟨h, fun _ => heeds_assign _ _ ih⟩
    · next heq =>
      cases heq
      exact ⟨h, fun _ => ih⟩
    · trivial
    · next heq =>
      cases heq
      exact ih

theorem heeds_evaluateDeclarative (statements : List Statement) :
    (evaluateDeclarative cx statements).Heeds program declares format := by
  induction statements with
  | nil => trivial
  | cons first rest ih =>
    unfold evaluateDeclarative
    split
    · trivial
    · next heq =>
      cases heq
      exact ih
    · trivial
    · next heq =>
      cases heq
      exact ih

theorem heeds_runLegacy (h : ¬ declares) (p : Program) : (runLegacy cx p).Heeds program declares format := by
  refine ⟨nofun, ?_⟩
  split
  · trivial
  · split
    · exact heeds_requireAll (fun _ => h) _ trivial
    · exact heeds_evaluateLegacy cx (fun _ => h) _

theorem heeds_runDeclarative (h : declares) (p : Program) :
    (runDeclarative cx p).Heeds program declares format := by
  refine ⟨fun _ => h, ?_⟩
  split
  · trivial
  · apply heeds_requireAll nofun
    split
    · trivial
    · exact heeds_evaluateDeclarative cx _

end Task

/-- The compilers that come with the loader set the format of a module before it asks for anything. -/
theorem CompilerTable.heeds_standard (cx : CompileContext) (program : Except LoadError Program) (format : Format) :
    ((standard.forPath cx.filename).task cx).Heeds program (IsDeclarative cx.filename cx.mode program) format := by
  refine task_standard cx program (fun _ _ h => h) (fun _ _ h => h) (fun _ h p _ => Task.heeds_runDeclarative cx h p)
    (fun _ h p _ => Task.heeds_runLegacy cx h p) (fun _ => ⟨nofun, fun source => ?_⟩) fun _ => trivial
  dsimp only
  cases Json.Value.read source.toList with
  | ok v => trivial
  | error fault => trivial

namespace Loader

variable {l l' l₂ : Loader} {packages : Path → PackageContext} {programs : Path → Except LoadError Program}
  {job : Job} {limit : Nat} {key request : String} {q : Partition} {id p : EntryId}
  {parent : Option EntryId} {isMain : Bool}

/-! ## Entries that do not become declarative -/

/-- No slot leads to an entry. -/
def Retired (l : Loader) (id : EntryId) : Prop :=
  ∀ q key s, l.cache.get? q key = some s → s.entry? ≠ some id

/-- An entry is not declarative and does not become so: its file is not, or no slot leads to it any more. -/
def Undeclared (programs : Path → Except LoadError Program) (l : Loader) (id : EntryId) : Prop :=
  ¬ (l.graph.entry id).Declares programs ∨ (l.graph.entry id).format = .legacy ∧ l.Retired id

/-- The same slots are there, and the entry keeps its format. -/
theorem Undeclared.of_slots (h : l.Undeclared programs id) (hentry : (l.graph.entry id).Develops (l'.graph.entry id))
    (hs : ∀ p, l'.cache.slots p = l.cache.slots p) (hformat : (l'.graph.entry id).format = (l.graph.entry id).format) :
    l'.Undeclared programs id := by
  refine h.imp (fun hdeclares hd => hdeclares (hentry.declares.mp hd)) fun ⟨hlegacy, hretired⟩ => ?_
  refine ⟨hformat.trans hlegacy, fun q k s hk => hretired q k s ?_⟩
  rw [Cache.get?, ← hs]
  exact hk

/-- A graph develops, entries get no other parents, and older entries than the latest one that do not become
declarative are not made so. -/
structure Shields (programs : Path → Except LoadError Program) (l l' : Loader) : Prop where
  graph : l.graph.Develops l'.graph
  parent : ∀ {id p}, id < l.graph.size → (l'.graph.entry id).parent = some p → (l.graph.entry id).parent = some p
  undeclared : ∀ {id}, id + 1 < l.graph.size → l.Undeclared programs id → l'.Undeclared programs id

/-- A module that is due has a slot already, or its entry is the latest one. -/
theorem Due.ready_or_latest (h : l.Due job) :
    l.cache.slot? job.target.key = some (job.partition, .ready job.id) ∨ l.graph.size = job.id + 1 := by
  obtain ⟨l₀, request, parent, isMain, hc, hseek⟩ := h
  obtain ⟨file, -, -, -, -, -, hclass⟩ := needs_of_seek hc.toOrderly hseek
  dsimp only at hclass
  rcases hclass with ⟨hclass, rfl⟩ | ⟨-, hid, rfl⟩
  · obtain ⟨-, -, -, -, -, hslot⟩ := slot_of_classified (hc.classifying request parent isMain file) hclass
    exact .inl hslot
  · exact .inr (by simp [hid])

/-- No older entry without a slot is that of a module that is due. -/
theorem Due.ne_of_retired (hd : l.Due job) (hid : id + 1 < l.graph.size) (hr : l.Retired id) : id ≠ job.id := by
  rintro rfl
  rcases hd.ready_or_latest with hslot | hlatest
  · exact hr _ _ _ (Cache.get?_of_slot? hslot) rfl
  · exact absurd hid (hlatest ▸ Nat.lt_irrefl _)

/-- What writes to one entry without moving it leaves all parents. -/
theorem parent_update (g : Graph) (id : EntryId) {f : Entry → Entry} (hf : ∀ e : Entry, (f e).parent = e.parent)
    (id' : EntryId) : ((g.update id f).entry id').parent = (g.entry id').parent := by
  rw [Graph.entry_update]
  split
  · exact hf _
  · rfl

theorem parent_linked (l : Loader) (referrer : Option Referrer) (request : String) (child id : EntryId) :
    ((l.linked referrer request child).graph.entry id).parent = (l.graph.entry id).parent := by
  cases referrer with
  | none => rfl
  | some r => exact parent_update l.graph r.id (f := fun e => e.addChild request child) (fun _ => rfl) id

theorem parent_marked (l : Loader) (id : EntryId) (filename : Path) (c : Compilation) (id' : EntryId) :
    ((l.marked id filename c).graph.entry id').parent = (l.graph.entry id').parent := by
  unfold marked
  dsimp only
  refine (parent_update _ id (fun e => ?_) id').trans ?_
  · cases c.parsing <;> rfl
  · split
    · exact parent_update l.graph id
        (f := fun e => e.setPaths (searchPaths l.resolver e.package e.format filename)) (fun _ => rfl) id'
    · rfl

/-- A module that takes its place keeps its parent, unless that is severed. -/
theorem parent_concluded (h : ((l.concluded job).graph.entry id).parent = some p) :
    (l.graph.entry id).parent = some p := by
  have hlinked := parent_linked l job.referrer job.request job.id id
  rw [graph_concluded] at h
  dsimp only at h
  split at h
  · rw [Graph.entry_update] at h
    split at h
    · cases h
    · exact hlinked.symm.trans h
  · exact hlinked.symm.trans h

/-- Outside of a parse-only pass a module does not keep a parent that should be severed. -/
theorem severs_of_parent (h : ((l.concluded job).graph.entry job.id).parent = some p) (hid : job.id < l.graph.size)
    (hparsing : l.cache.parsing = false) : severs job.referrer (l.graph.entry job.id).format = false := by
  rw [graph_concluded] at h
  dsimp only at h
  rw [hparsing] at h
  split at h
  · have hlt : job.id < (l.linked job.referrer job.request job.id).graph.size := by
      cases job.referrer <;> simpa [Loader.linked] using hid
    rw [Graph.entry_update_self _ _ hlt] at h
    cases h
  · next hkeeps => simpa using hkeeps

namespace Shields

theorem trans {l l' l'' : Loader} (h : Shields programs l l') (h' : Shields programs l' l'') : Shields programs l l'' where
  graph := h.graph.trans h'.graph
  parent hid hp := h.parent hid (h'.parent (Nat.lt_of_lt_of_le hid h.graph.size) hp)
  undeclared hid hu := h'.undeclared (Nat.lt_of_lt_of_le hid h.graph.size) (h.undeclared hid hu)

/-- What has no slot stays so and keeps its format. -/
theorem of_retired (hg : l.graph.Develops l'.graph)
    (hparent : ∀ {id p}, id < l.graph.size → (l'.graph.entry id).parent = some p →
      (l.graph.entry id).parent = some p)
    (h : ∀ {id}, id + 1 < l.graph.size → l.Retired id →
      (l'.graph.entry id).format = (l.graph.entry id).format ∧ l'.Retired id) : Shields programs l l' where
  graph := hg
  parent := hparent
  undeclared {id} hid hu := by
    have hentry := hg.entry (Nat.lt_of_succ_lt hid)
    rcases hu with hdeclares | ⟨hlegacy, hretired⟩
    · exact .inl fun hd => hdeclares (hentry.declares.mp hd)
    · obtain ⟨hformat, hretired'⟩ := h hid hretired
      exact .inr ⟨hformat.trans hlegacy, hretired'⟩

/-- The same slots lead to the same entries, and formats and parents stay. -/
theorem of_slots (hg : l.graph.Develops l'.graph) (hs : ∀ p, l'.cache.slots p = l.cache.slots p)
    (hentry : ∀ {id}, id < l.graph.size → (l'.graph.entry id).format = (l.graph.entry id).format ∧
      (l'.graph.entry id).parent = (l.graph.entry id).parent) : Shields programs l l' where
  graph := hg
  parent hid hp := (hentry hid).2.symm.trans hp
  undeclared hid hu :=
    have hlt := Nat.lt_of_succ_lt hid
    hu.of_slots (hg.entry hlt) hs (hentry hlt).1

theorem of_cache (hg : l'.graph = l.graph) (hc : l'.cache = l.cache) : Shields programs l l' :=
  of_slots (hg ▸ .refl _) (fun _ => by rw [hc]) fun _ => by rw [hg]; exact ⟨rfl, rfl⟩

instance : IsPreorder Loader (Shields programs) where
  refl _ := of_cache rfl rfl
  trans _ _ _ := trans

theorem linked (l : Loader) (referrer : Option Referrer) (request : String) (child : EntryId) :
    Shields programs l (l.linked referrer request child) := by
  cases referrer with
  | none => exact of_cache rfl rfl
  | some r =>
    refine of_slots (.update l.graph r.id fun e => ⟨rfl, rfl, fun h => h⟩) (fun _ => rfl) fun {id} _ =>
      ⟨?_, parent_linked l (some r) request child id⟩
    exact (Entry.Spared.update l.graph r.id (f := fun e => e.addChild request child)
      (fun e => ⟨rfl, rfl, rfl, rfl, rfl⟩) id).format

theorem added (hs : ∀ p, l'.cache.slots p = l.cache.slots p) {e : Entry} (hg : l'.graph = (l.graph.add e).1) :
    Shields programs l l' :=
  of_slots (hg ▸ .add l.graph e) hs fun hid => by
    rw [hg, Graph.entry_add_of_lt _ _ hid]
    exact ⟨rfl, rfl⟩

theorem seeks : Seeks (Shields programs) where
  toIsPreorder := inferInstance
  noted _ _ _ := of_cache rfl rfl
  packaged _ := of_cache rfl rfl
  linked := linked
  builtinOf l name := by
    unfold Loader.builtinOf
    cases l.cache.builtins.get? name with
    | some id => exact of_cache rfl rfl
    | none => exact added (fun p => by cases p <;> rfl) rfl
  classified l key := by
    -- slots move, but no entry gets one
    obtain ⟨cache, events, heq, -⟩ :=
      l.classified_frame key (Format.ofPath? (keyFile key)) (l.packageOf (keyFile key)).isUnexposed
    have hslot := @get?_classified l key (Format.ofPath? (keyFile key)) (l.packageOf (keyFile key)).isUnexposed
    rw [heq] at hslot ⊢
    refine of_retired (.refl _) (fun _ hp => hp) fun _ hr => ⟨rfl, fun q k s hk hs => ?_⟩
    rcases hslot hk with hk | ⟨rfl, id', rfl, hk, -⟩
    · exact hr q k s hk hs
    · exact hr _ _ _ hk hs
  added _ _ := added (fun _ => rfl) rfl

theorem occupied (hd : l.Due job) : Shields programs l (l.occupied job) := by
  have hg : l.graph.Develops (l.occupied job).graph := by
    have h := Evolves.respects.occupy job l
    rw [run_occupy] at h
    exact h.graph
  refine of_retired hg (fun {id p} _ hp => ?_) fun {id} hid hr => ⟨?_, fun q k s hk hs => ?_⟩
  · obtain ⟨name, hname⟩ := named_occupied l job id
    rwa [hname] at hp
  · rw [(entry_occupied l job id).2.2 (hd.ne_of_retired hid hr)]
  · obtain ⟨-, rfl⟩ | ⟨-, hk⟩ := slot_of_occupied hk
    · cases hs
      exact hd.ne_of_retired hid hr rfl
    · exact hr q k s hk hs

theorem vacated (l : Loader) (job : Job) (e : LoadError) : Shields programs l (l.vacated job e) := by
  have hgraph := graph_vacated l job e
  refine of_retired (hgraph ▸ .refl _) (fun _ hp => hgraph ▸ hp) fun _ hr =>
    ⟨by rw [hgraph], fun q k s hk hs => ?_⟩
  obtain ⟨-, rfl⟩ | ⟨-, hk⟩ := slot_of_vacated hk
  · cases hs
  · exact hr q k s hk hs

theorem ended (c : Compilation) (h : l.InProgress job.target.key job.partition job.id) :
    Shields programs l ((l.marked job.id job.target.filename c).concluded job) := by
  have hin : (l.marked job.id job.target.filename c).Loading job.partition job.target.key job.id :=
    Cache.get?_of_slot? h
  have hg := ((evolves_marked l job.id job.target.filename c).trans (evolves_concluded h)).graph
  refine of_retired hg (fun {id p} _ hp => (parent_marked l _ _ _ id).symm.trans (parent_concluded hp)) fun {id} _ hr => ?_
  have hne : id ≠ job.id := fun heq => hr _ _ _ (Cache.get?_of_slot? h) (congrArg some heq.symm)
  refine ⟨?_, fun q k s hk hs => ?_⟩
  · rw [(entry_concluded _ job id).format, entry_marked l _ _ hne]
  · obtain ⟨-, rfl⟩ | ⟨-, hk⟩ := slot_of_concluded hin hk
    · cases hs
      exact hne rfl
    · exact hr q k s hk hs

/-- A load does not make anything declarative that does not become so. -/
theorem loads : Loads (Shields programs) (Shields programs) where
  toOutcomes := .self
  trail h h' := h.trans h'
  report _ := fun _ => of_cache rfl rfl
  source {l key _ _} _ _ := of_cache (Quiet.reading.source (keyFile key) l).graph (Quiet.reading.source _ l).cache
  program {l key _ _} _ _ := of_cache (Quiet.reading.program (keyFile key) l).graph (Quiet.reading.program _ l).cache
  seek hc request parent isMain := seeks.seek hc.toOrderly request parent isMain
  write {l key q id} hc hin f hf := by
    refine of_retired (.update l.graph id fun e => .of_retains (hf e)) (fun {id' p} _ hp => ?_)
      fun {id'} _ hr => ⟨?_, hr⟩
    · change ((l.graph.update id f).entry id').parent = some p at hp
      rw [Graph.entry_update] at hp
      split at hp
      · exact (hf _).parent.symm.trans hp
      · exact hp
    · -- the entry of a module in progress has a slot
      have hne : id ≠ id' := fun heq => hr _ _ _ (Cache.get?_of_slot? hin) (congrArg some heq)
      rw [Graph.entry_update_of_ne _ _ hne]
  fails hc hd _ h := (occupied hd).trans (h.trans (vacated _ _ _))
  succeeds hc hd hrun h := (occupied hd).trans (h.trans (ended _ (hd.ready.inProgress_of_prepare hc hrun).2))

end Shields

/-- Slots stay where they belong, and who asks does not become declarative. -/
def Guards (packages : Path → PackageContext) (programs : Path → Except LoadError Program) (l l' : Loader) : Prop :=
  Sorted.Lasts packages programs l l' ∧ Shields programs l l'

theorem guards : Loads (Guards packages programs) (Guards packages programs) := Sorted.loads.and Shields.loads

/-! ## Entries with the parents that they keep -/

/-- An entry is declarative only if its file is, its parent is older, and if it was evaluated without being parsed
before, it has no parent that it should have lost. -/
structure Cut (programs : Path → Except LoadError Program) (l : Loader) (id : EntryId) : Prop where
  declares : (l.graph.entry id).format = .declarative → (l.graph.entry id).Declares programs
  older : ∀ {p}, (l.graph.entry id).parent = some p → p < id
  severed : ∀ {p}, (l.graph.entry id).parent = some p → (l.graph.entry id).isLoaded = true →
    (l.graph.entry id).format = .legacy → (l.graph.entry id).parsed = false →
      (l.graph.entry p).package.isUnexposed = true → l.Undeclared programs p

/-- All entries are cut from the parents that they should have lost, and what has a slot was evaluated or parsed. -/
structure Severed (programs : Path → Except LoadError Program) (l : Loader) : Prop where
  cut : ∀ {id}, id < l.graph.size → l.Cut programs id
  ready : ∀ {q key id}, l.cache.get? q key = some (.ready id) → id < l.graph.size ∧
    ((l.graph.entry id).isLoaded = true ∨ (l.graph.entry id).parsed = true)

theorem Cut.mono (h : l.Cut programs id) (hid : id < l.graph.size) (hs : Shields programs l l')
    (hb : (l.graph.entry id).Bears (l'.graph.entry id)) : l'.Cut programs id := by
  obtain ⟨hformat, hloaded, hparsed⟩ := hb
  refine ⟨fun hd => ?_, fun hp => h.older (hs.parent hid hp), fun {p} hp hl hf hnot hu => ?_⟩
  · exact (hs.graph.entry hid).declares.mpr (h.declares (hformat.symm.trans hd))
  · have hp' := hs.parent hid hp
    have hlt : p + 1 < l.graph.size := Nat.lt_of_le_of_lt (h.older hp') hid
    rw [(hs.graph.entry (Nat.lt_of_succ_lt hlt)).package] at hu
    exact hs.undeclared hlt (h.severed hp' (hloaded.symm.trans hl) (hformat.symm.trans hf) (hparsed.symm.trans hnot) hu)

/-- A module that is not evaluated yet may keep every parent. -/
theorem Cut.of_unloaded (h : l.Cut programs id) (hid : id < l.graph.size) (hs : Shields programs l l')
    (hunloaded : (l'.graph.entry id).isLoaded = false)
    (hdeclares : (l'.graph.entry id).format = .declarative → (l.graph.entry id).Declares programs) :
    l'.Cut programs id where
  declares hd := (hs.graph.entry hid).declares.mpr (hdeclares hd)
  older hp := h.older (hs.parent hid hp)
  severed _ hl := by
    rw [hunloaded] at hl
    cases hl

namespace Severed

/-- Entries bear what they did, new ones are cut, and slots are ready that were so. -/
theorem of_entries (h : l.Severed programs) (hs : Shields programs l l')
    (hentry : ∀ {id}, id < l.graph.size → (l.graph.entry id).Bears (l'.graph.entry id))
    (hnew : ∀ {id}, l.graph.size ≤ id → id < l'.graph.size → l'.Cut programs id)
    (hready : ∀ {q key id}, l'.cache.get? q key = some (.ready id) →
      ∃ q', l.cache.get? q' key = some (.ready id)) : l'.Severed programs where
  cut {id} hid := by
    rcases Nat.lt_or_ge id l.graph.size with hlt | hge
    · exact (h.cut hlt).mono hlt hs (hentry hlt)
    · exact hnew hge hid
  ready hk := by
    obtain ⟨q', hk'⟩ := hready hk
    obtain ⟨hlt, hor⟩ := h.ready hk'
    obtain ⟨-, hloaded, hparsed⟩ := hentry hlt
    exact ⟨Nat.lt_of_lt_of_le hlt hs.graph.size, by rwa [hloaded, hparsed]⟩

/-- No entry is made. -/
theorem of_bears (h : l.Severed programs) (hs : Shields programs l l') (hsize : l'.graph.size = l.graph.size)
    (hentry : ∀ id, (l.graph.entry id).Bears (l'.graph.entry id))
    (hready : ∀ {q key id}, l'.cache.get? q key = some (.ready id) →
      ∃ q', l.cache.get? q' key = some (.ready id)) : l'.Severed programs :=
  h.of_entries hs (fun _ => hentry _) (fun hge hlt => absurd hlt (by rw [hsize]; exact Nat.not_lt.mpr hge)) hready

theorem of_cache (h : l.Severed programs) (hg : l'.graph = l.graph) (hc : l'.cache = l.cache) :
    l'.Severed programs :=
  h.of_bears (.of_cache hg hc) (by rw [hg]) (fun _ => hg ▸ (Entry.Spared.refl _).bears) fun hk => ⟨_, hc ▸ hk⟩

theorem linked (h : l.Severed programs) (referrer : Option Referrer) (request : String) (child : EntryId) :
    (l.linked referrer request child).Severed programs := by
  have hs : Shields programs l _ := .linked l referrer request child
  cases referrer with
  | none => exact h
  | some r =>
    have hspared := Entry.Spared.update l.graph r.id (f := fun e => e.addChild request child)
      (fun e => ⟨rfl, rfl, rfl, rfl, rfl⟩)
    exact h.of_bears hs (Graph.size_update _ _ _) (fun id => (hspared id).bears) fun hk => ⟨_, hk⟩

/-- The entry that is made is cut. -/
theorem added (h : l.Severed programs) (hslots : ∀ p, l'.cache.slots p = l.cache.slots p) {e : Entry}
    (hg : l'.graph = (l.graph.add e).1) (hdeclares : e.format = .declarative → e.Declares programs)
    (hparent : ∀ p, e.parent = some p → p < l.graph.size) (hunloaded : e.parent = none ∨ e.isLoaded = false) :
    l'.Severed programs := by
  refine h.of_entries (.added hslots hg) (fun hid => ?_) (fun {id} hge hlt => ?_) fun {q _ _} hk => ⟨q, ?_⟩
  · rw [hg, Graph.entry_add_of_lt _ _ hid]
    exact (Entry.Spared.refl _).bears
  · rw [hg, Graph.size_add] at hlt
    obtain rfl : id = l.graph.size := Nat.le_antisymm (Nat.le_of_lt_succ hlt) hge
    have hentry : l'.graph.entry l.graph.size = e := by
      rw [hg]
      exact Graph.entry_add_self _ _
    refine ⟨fun hd => ?_, fun hp => ?_, fun hp hl => ?_⟩ <;> rw [hentry] at *
    · exact hdeclares hd
    · exact hparent _ hp
    · rcases hunloaded with hnone | hunloaded
      · rw [hnone] at hp
        cases hp
      · rw [hunloaded] at hl
        cases hl
  · rw [Cache.get?, ← hslots]
    exact hk

theorem builtinOf (h : l.Severed programs) (name : String) : (l.builtinOf name).2.Severed programs := by
  unfold Loader.builtinOf
  cases l.cache.builtins.get? name with
  | some id => exact h
  | none => exact h.added (fun p => by cases p <;> rfl) rfl nofun nofun (.inl rfl)

theorem classified (h : l.Severed programs) (key : String) :
    (l.classified key (Format.ofPath? (keyFile key)) (l.packageOf (keyFile key)).isUnexposed).2.Severed programs := by
  have hs : Shields programs l _ := Shields.seeks.classified l key
  have hslot := @get?_classified l key (Format.ofPath? (keyFile key)) (l.packageOf (keyFile key)).isUnexposed
  obtain ⟨cache, events, heq, -⟩ :=
    l.classified_frame key (Format.ofPath? (keyFile key)) (l.packageOf (keyFile key)).isUnexposed
  rw [heq] at hs hslot ⊢
  refine h.of_bears hs rfl (fun _ => (Entry.Spared.refl _).bears) fun hk => ?_
  rcases hslot hk with hk' | ⟨rfl, id', hid, hk', -⟩
  · exact ⟨_, hk'⟩
  · cases hid
    exact ⟨_, hk'⟩

theorem met (h : l.Severed programs) (referrer : Option Referrer) (isMain : Bool) {target : Target}
    (hkey : keyFile target.key = target.filename) (hfixed : target.fixed = Format.ofPath? target.filename)
    (hpackage : target.package = l.packageOf target.filename)
    (hreferrer : ∀ r ∈ referrer, r.id < l.graph.size) : (l.met request referrer isMain target).2.Severed programs := by
  have hnoted : (l.noted [.enters target.key .classifying]).Severed programs := h.of_cache rfl rfl
  have hclassified := hnoted.classified target.key
  have hpackage' : (l.noted [.enters target.key .classifying]).packageOf target.filename = target.package :=
    hpackage.symm
  rw [hkey, ← hfixed, hpackage'] at hclassified
  obtain ⟨cache, events, hframe, -⟩ := (l.noted [.enters target.key .classifying]).classified_frame target.key
    target.fixed target.package.isUnexposed
  unfold Loader.met
  generalize (l.noted [.enters target.key .classifying]).classified target.key target.fixed
    target.package.isUnexposed = r at hclassified hframe
  obtain ⟨e | c, l₁⟩ := r
  · exact hclassified
  · cases c with
    | hit id =>
      have hhit : (l₁.noted [.enters target.key .cacheHit]).Severed programs := hclassified.of_cache rfl rfl
      exact hhit.linked referrer request id
    | evaluate q id => exact hclassified
    | miss q =>
      obtain rfl : l₁ = _ := hframe
      refine hclassified.added (fun _ => rfl) rfl (fun hd => .inl ?_) (fun p hp => ?_) (.inr rfl)
      · -- only the extension makes a new entry declarative
        have hext : Format.ofPath? target.filename = some .declarative := by
          rw [← hfixed]
          change target.fixed.getD .legacy = .declarative at hd
          cases hf : target.fixed with
          | none => rw [hf] at hd; cases hd
          | some format => rw [hf] at hd; exact congrArg some hd
        show (keyFile target.key).extension = _
        rw [hkey]
        exact (declarative_iff_extension _).mp hext
      · obtain ⟨r, hr, rfl⟩ := Option.map_eq_some_iff.mp hp
        exact hreferrer r hr

/-- Looking for a module makes at most one entry, whose parent is who asks. -/
theorem seek (hc : l.Consistent) (h : l.Severed programs) (request : String) (isMain : Bool)
    (hparent : ∀ p ∈ parent, p < l.graph.size) : (l.run (seek request parent isMain)).2.Severed programs := by
  have hretried : (l.retried request parent isMain).Severed programs := h.of_cache rfl rfl
  rw [hc.toOrderly.run_seek]
  dsimp only
  split
  · exact hretried
  · exact (hretried.builtinOf _).linked _ _ _
  · next file hfile =>
    obtain ⟨q, hq⟩ := resolve_of_resolution hfile
    have hpackaged : ((l.retried request parent isMain).packaged file).Severed programs := hretried.of_cache rfl rfl
    refine hpackaged.met _ _ ?_ rfl (packageOf_packaged l file).symm fun r hr => ?_
    · exact keyFile_cacheKey (Resolver.unmarked_of_resolve hq hc.unmarked.names) request
    · obtain ⟨p, rfl, rfl⟩ := Option.map_eq_some_iff.mp hr
      exact hparent p rfl

/-! ## Compiling -/

theorem occupied (h : l.Severed programs) (hd : l.Due job) : (l.occupied job).Severed programs := by
  refine h.of_bears (.occupied hd) (size_occupied l job) (fun id => ?_) fun {q _ _} hk => ⟨q, ?_⟩
  · obtain ⟨name, hname⟩ := named_occupied l job id
    rw [hname]
    exact ⟨rfl, rfl, rfl⟩
  · obtain ⟨-, ⟨⟩⟩ | ⟨-, hk⟩ := slot_of_occupied hk
    exact hk

theorem vacated (h : l.Severed programs) (job : Job) (e : LoadError) : (l.vacated job e).Severed programs := by
  have hgraph := graph_vacated l job e
  refine h.of_bears (.vacated l job e) (by rw [hgraph]) (fun _ => hgraph ▸ (Entry.Spared.refl _).bears)
    fun {q _ _} hk => ⟨q, ?_⟩
  obtain ⟨-, ⟨⟩⟩ | ⟨-, hk⟩ := slot_of_vacated hk
  exact hk

end Severed

/-- The module of a job is being compiled, and its entry has a format so far. -/
structure Running (packages : Path → PackageContext) (programs : Path → Except LoadError Program) (job : Job)
    (declares : Prop) (parsed : Bool) (format : Format) (l : Loader) : Prop
    extends Consistent l, Sorted packages programs l, Severed programs l where
  running : l.InProgress job.target.key job.partition job.id
  declares : (l.graph.entry job.id).Declares programs ↔ declares
  parsed : (l.graph.entry job.id).parsed = parsed
  format : (l.graph.entry job.id).format = format

namespace Running

variable {declares : Prop} {parsed : Bool} {format format' : Format}

theorem of_declarative (h : l.Running packages programs job declares parsed format) (hd : format = .declarative) :
    declares :=
  h.declares.mp ((h.cut (h.keyed h.running rfl).1).declares (h.format.trans hd))

/-- What the compilation consists of, it does to a module in progress. -/
theorem of_safely (h : l.Running packages programs job declares parsed format)
    (hsafe : Safely (some job) (Guards packages programs) l l')
    (hsevered : Shields programs l l' → l'.Consistent → l'.Severed programs)
    (hparsed : (l'.graph.entry job.id).parsed = (l.graph.entry job.id).parsed)
    (hformat : (l'.graph.entry job.id).format = format') :
    l'.Running packages programs job declares parsed format' := by
  obtain ⟨hspared, hsorted, hshields⟩ := hsafe h.toConsistent (by rintro _ ⟨⟩; exact h.running)
  have hentry := hshields.graph.entry (h.keyed h.running rfl).1
  exact { hspared.consistent, hsorted h.toSorted, hsevered hshields hspared.consistent with
    running := (hspared.progress _ _ _).mpr h.running
    declares := hentry.declares.trans h.declares
    parsed := hparsed.trans h.parsed
    format := hformat }

theorem of_cache (h : l.Running packages programs job declares parsed format)
    (hsafe : Safely (some job) (Guards packages programs) l l')
    (hg : l'.graph = l.graph) (hc : l'.cache = l.cache) : l'.Running packages programs job declares parsed format :=
  h.of_safely hsafe (fun _ _ => h.toSevered.of_cache hg hc) (by rw [hg]) (by rw [hg]; exact h.format)

/-- The compiler writes to the entry, and gives it at most a format that its file has. -/
theorem update (h : l.Running packages programs job declares parsed format) {f : Entry → Entry}
    (hf : ∀ e : Entry, e.Retains (f e)) (hparsed : ∀ e : Entry, (f e).parsed = e.parsed)
    (hformat : (f (l.graph.entry job.id)).format = format') (hdeclares : format' = .declarative → declares) :
    ({ l with graph := l.graph.update job.id f } : Loader).Running packages programs job declares parsed format' := by
  obtain ⟨hlt, -⟩ := h.keyed h.running rfl
  have hself := Graph.entry_update_self l.graph f hlt
  have hspares : Compiles job.id (Spares fun id => ∃ j ∈ some job, j.id = id) := Spares.compiles ⟨job, rfl, rfl⟩
  refine h.of_safely (fun hc hown => ⟨hspares.updateEntry hf l hc, guards.write hc (hown job rfl) hf⟩)
    (fun hs hc => ⟨fun {id} hid => ?_, fun {q key id} hk => ?_⟩)
    ((congrArg Entry.parsed hself).trans (hparsed _)) ((congrArg Entry.format hself).trans hformat)
  · replace hid : id < l.graph.size := by simpa using hid
    by_cases heq : id = job.id
    · subst heq
      refine (h.cut hid).of_unloaded hid hs ?_ fun hd => h.declares.mpr (hdeclares ?_)
      · exact (congrArg Entry.isLoaded hself).trans ((hf _).loaded.trans (h.unfinished h.running))
      · exact hformat.symm.trans ((congrArg Entry.format hself).symm.trans hd)
    · exact (h.cut hid).mono hid hs (Entry.Spared.update_of_ne _ _ heq).bears
  · -- a module in progress is not ready
    obtain ⟨hid, hor⟩ := h.ready hk
    have hne : id ≠ job.id := by
      rintro rfl
      have hslot := h.exclusive.slot?_eq_some.mpr hk
      have hrunning := h.running
      rw [InProgress, (h.keyed hrunning rfl).2.symm.trans (h.keyed hslot rfl).2, hslot] at hrunning
      cases hrunning
    refine ⟨by simpa using hid, ?_⟩
    show ((l.graph.update job.id f).entry id).isLoaded = true ∨ ((l.graph.update job.id f).entry id).parsed = true
    rwa [Graph.entry_update_of_ne _ _ hne.symm]

/-- A nested load leaves the entry of a module in progress as it is. -/
theorem of_spared (h : l.Running packages programs job declares parsed format)
    (hsafe : Safely none (Guards packages programs) l l')
    (hsevered : l'.Severed programs) : l'.Running packages programs job declares parsed format := by
  have hholds : l.Holds job.id := ⟨(h.keyed h.running rfl).1, .inr ⟨_, _, h.running⟩⟩
  have hentry := (hsafe.spared h.toConsistent).entry hholds not_false
  exact h.of_safely hsafe.mono (fun _ _ => hsevered) hentry.parsed (hentry.format.trans h.format)

end Running

/-- Loads nested to some depth leave entries cut, if who asks does not become declarative. -/
def Severs (packages : Path → PackageContext) (programs : Path → Except LoadError Program) (limit : Nat) : Prop :=
  ∀ {l : Loader} {request : String} {id : EntryId}, l.Consistent → l.Sorted packages programs → l.Severed programs → id < l.graph.size →
    ((l.graph.entry id).format = .legacy → l.Undeclared programs id) →
      (l.run (loadNested limit request id)).2.Severed programs

namespace Running

variable {declares : Prop} {parsed : Bool} {format : Format}

/-- A task that asks for modules only once its format is right leaves entries cut. -/
theorem runTask {t : Task} (h : l.Running packages programs job declares parsed format)
    (hkey : keyFile job.target.key = job.target.filename) (hn : Severs packages programs limit)
    (ht : t.Heeds (programs job.target.filename) declares format) :
    let l' := (l.run (Loader.runTask (loadNested limit) job.id job.target.filename t)).2
    l'.Severed programs ∧ (l'.graph.entry job.id).parsed = parsed := by
  have hcanonical : job.target.filename.Canonical := hkey ▸ h.canonical (Cache.get?_of_slot? h.running)
  have hcompiles := (@guards packages programs).compiles hkey
  induction t generalizing l format with
  | done => exact ⟨h.toSevered, h.parsed⟩
  | fail e => exact ⟨h.toSevered, h.parsed⟩
  | setFormat format' next ih =>
    rw [Loader.runTask, run_bind, run_setFormat, andThen_ok, h.unfinished h.running]
    refine ih (h.update (fun e => .setFormat e format') (fun e => ?_) ?_ ht.1) ht.2
    · unfold Entry.setFormat
      split <;> rfl
    · simp [Entry.setFormat, h.unfinished h.running]
  | report event next ih => exact ih (h.of_cache (guards.noted l event) rfl rfl) ht
  | readSource next ih =>
    have hl := hcompiles.source l
    have hquiet := Quiet.reading.source job.target.filename l
    rw [Loader.runTask, run_bind]
    generalize l.run (sourceOf job.target.filename) = r at hl hquiet
    obtain ⟨e | source, l₁⟩ := r
    · exact have h₁ := h.of_cache hl hquiet.graph hquiet.cache
        ⟨h₁.toSevered, h₁.parsed⟩
    · exact ih source (h.of_cache hl hquiet.graph hquiet.cache) (ht source)
  | readProgram next ih =>
    have hl := hcompiles.program l
    have hquiet := Quiet.reading.program job.target.filename l
    have hprogram := h.recites.programOf hcanonical
    rw [Loader.runTask, run_bind]
    generalize l.run (programOf job.target.filename) = r at hl hquiet hprogram
    obtain ⟨e | p, l₁⟩ := r
    · exact have h₁ := h.of_cache hl hquiet.graph hquiet.cache
        ⟨h₁.toSevered, h₁.parsed⟩
    · exact ih p (h.of_cache hl hquiet.graph hquiet.cache) (ht p hprogram.symm)
  | require request next ih =>
    have hl := ends_self.mp ((@guards packages programs).loadNested limit request job.id) l
    have hsevered : (l.run (loadNested limit request job.id)).2.Severed programs :=
      hn h.toConsistent h.toSorted h.toSevered (h.keyed h.running rfl).1
      fun hlegacy => .inl fun hd => ht.1 (h.format.symm.trans hlegacy) (h.declares.mp hd)
    rw [Loader.runTask, run_bind]
    generalize l.run (loadNested limit request job.id) = r at hl hsevered
    obtain ⟨e | child, l₁⟩ := r
    · exact ⟨hsevered, (h.of_spared hl hsevered).parsed⟩
    · exact ih _ (h.of_spared hl hsevered) (ht.2 _)
  | setExports v next ih =>
    exact ih (h.update (f := (Entry.setExports · v)) (fun e => ⟨rfl, rfl, rfl, rfl, rfl, rfl⟩) (fun _ => rfl)
      h.format h.of_declarative) ht
  | setExport name v next ih =>
    exact ih (h.update (f := (Entry.setExport · name v)) (fun e => ⟨rfl, rfl, rfl, rfl, rfl, rfl⟩) (fun _ => rfl)
      h.format h.of_declarative) ht

end Running

/-! ## The end of a compilation -/

/-- What was parsed stays so. -/
theorem parsed_marked (l : Loader) {id : EntryId} (filename : Path) (c : Compilation) (h : id < l.graph.size) :
    ((l.marked id filename c).graph.entry id).parsed = (c.parsing || (l.graph.entry id).parsed) := by
  unfold marked
  dsimp only
  split
  · rw [Graph.entry_update_self _ _ (by simpa using h), Graph.entry_update_self _ _ h]
    cases c.parsing <;> simp [Entry.setPaths, Entry.setLoaded]
  · rw [Graph.entry_update_self _ _ h]
    cases c.parsing <;> simp [Entry.setLoaded]

theorem size_ended (l : Loader) (job : Job) (c : Compilation) :
    ((l.marked job.id job.target.filename c).concluded job).graph.size = l.graph.size := by
  have hlinked : ∀ l' : Loader, (l'.linked job.referrer job.request job.id).graph.size = l'.graph.size := fun l' => by
    cases job.referrer <;> simp [linked]
  have hmarked : (l.marked job.id job.target.filename c).graph.size = l.graph.size := by
    unfold marked
    dsimp only
    split <;> simp
  rw [graph_concluded]
  dsimp only
  split <;> simp [hlinked, hmarked]

/-- Who asked first for a module that was not parsed before is who asks now, and if it is not declarative it does not
become so. -/
def Owed (programs : Path → Except LoadError Program) (l : Loader) (job : Job) : Prop :=
  (l.graph.entry job.id).parsed = true ∨ ∀ {p}, (l.graph.entry job.id).parent = some p →
    ∃ r ∈ job.referrer, (l.graph.entry p).package = r.package ∧ (r.format = .legacy → l.Undeclared programs p)

/-- What still has a parent that it should have lost was parsed before, or is being parsed. -/
theorem Owed.undeclared (h : l.Owed programs job) (hcut : l.Cut programs job.id) (hid : job.id < l.graph.size)
    (hs : Shields programs l l')
    (hparsed : (l.graph.entry job.id).parsed = true → (l'.graph.entry job.id).parsed = true)
    (hsevers : (l'.graph.entry job.id).parsed = false → (l'.graph.entry job.id).parent = some p →
      severs job.referrer (l'.graph.entry job.id).format = false)
    (hp : (l'.graph.entry job.id).parent = some p) (hlegacy : (l'.graph.entry job.id).format = .legacy)
    (hnot : (l'.graph.entry job.id).parsed = false) (hu : (l'.graph.entry p).package.isUnexposed = true) :
    l'.Undeclared programs p := by
  rcases h with hbefore | hreferrer
  · rw [hparsed hbefore] at hnot
    cases hnot
  · have hp' := hs.parent hid hp
    have hlt : p + 1 < l.graph.size := Nat.lt_of_le_of_lt (hcut.older hp') hid
    obtain ⟨r, hr, hpackage, hundeclared⟩ := hreferrer hp'
    refine hs.undeclared hlt (hundeclared ?_)
    -- who asks is not declarative, as the parent was not severed
    have hsevered := hsevers hnot hp
    rw [(hs.graph.entry (Nat.lt_of_succ_lt hlt)).package, hpackage] at hu
    rw [hlegacy, Option.mem_def.mp hr] at hsevered
    cases hformat : r.format with
    | legacy => rfl
    | declarative => simp [severs, hformat, hu] at hsevered

namespace Severed

/-- A module that was compiled loses the parent that it should lose. -/
theorem concluded (hc : l.Consistent) (hd : l.Due job) (h : l.Severed programs) (howed : l.Owed programs job)
    {c : Compilation}
    (hrun : (l.occupied job).run (prepare (loadNested limit) job.id job.target.filename) = (.ok c, l₂))
    (hs : Shields programs (l.occupied job) l₂) (h₂ : l₂.Severed programs)
    (hparsed : (l₂.graph.entry job.id).parsed = (l.graph.entry job.id).parsed) :
    ((l₂.marked job.id job.target.filename c).concluded job).Severed programs := by
  obtain ⟨hc₂, hin⟩ := hd.ready.inProgress_of_prepare hc hrun
  obtain ⟨hparsing, hparsing₂⟩ := parsing_of_prepare hrun
  have hlt : job.id < l₂.graph.size := (hc₂.keyed hin rfl).1
  have hended : Shields programs l₂ _ := .ended c hin
  have hsucceeds : Shields programs l _ := Shields.loads.succeeds hc hd hrun hs
  have hspared := entry_concluded (l₂.marked job.id job.target.filename c) job
  have hother : ∀ {id}, id ≠ job.id → (l₂.graph.entry id).Bears
      (((l₂.marked job.id job.target.filename c).concluded job).graph.entry id) := fun {id} hne => by
    have hentry := hspared id
    rw [entry_marked _ _ _ hne] at hentry
    exact hentry.bears
  have hown : (((l₂.marked job.id job.target.filename c).concluded job).graph.entry job.id).parsed
      = (c.parsing || (l.graph.entry job.id).parsed) := by
    rw [(hspared job.id).parsed, parsed_marked _ _ _ hlt, hparsed]
  have hformat : (((l₂.marked job.id job.target.filename c).concluded job).graph.entry job.id).format
      = (l₂.graph.entry job.id).format :=
    (hspared job.id).format.trans (decisive_marked l₂ job.target.filename c hlt).2.2.1
  refine ⟨fun {id} hid => ?_, fun {q key id} hk => ?_⟩
  · rw [size_ended] at hid
    by_cases heq : id = job.id
    · subst heq
      have hcut := h₂.cut hid
      refine ⟨fun hdecl => ?_, fun hp => hcut.older (hended.parent hid hp), fun {p} hp _ hlegacy hnot hu => ?_⟩
      · exact (hended.graph.entry hid).declares.mpr (hcut.declares (hformat.symm.trans hdecl))
      · refine howed.undeclared (h.cut hd.ready.inRange) hd.ready.inRange hsucceeds (fun hbefore => ?_)
          (fun hnot hp => ?_) hp hlegacy hnot hu
        · rw [hown, hbefore, Bool.or_true]
        · -- a parse-only pass severs nothing, but then the module is parsed
          have hpass : c.parsing = false := by
            rw [hown, Bool.or_eq_false_iff] at hnot
            exact hnot.1
          have hsevers := severs_of_parent hp ((evolves_marked l₂ _ _ c).graph.size.trans_lt' hlt)
            (hparsing₂.trans (hparsing.symm.trans hpass))
          rwa [← (hspared job.id).format] at hsevers
    · exact (h₂.cut hid).mono hid hended (hother heq)
  · rw [size_ended]
    by_cases heq : id = job.id
    · subst heq
      refine ⟨hlt, ?_⟩
      cases hpass : c.parsing with
      | true =>
        right
        rw [hown, hpass, Bool.true_or]
      | false =>
        left
        exact (hspared job.id).isLoaded.trans (isLoaded_marked l₂ _ hlt hpass)
    · obtain ⟨-, ⟨⟩⟩ | ⟨-, hk⟩ := slot_of_concluded (l := l₂.marked job.id job.target.filename c)
        (Cache.get?_of_slot? hin) hk
      · exact absurd rfl heq
      · obtain ⟨hid, hor⟩ := h₂.ready hk
        obtain ⟨-, hloaded, hparsed'⟩ := hother heq
        exact ⟨hid, by rwa [hloaded, hparsed']⟩

end Severed

/-- A module that is to be compiled was parsed, or its parent is who asks. -/
theorem owed_of_seek (hc : l.Consistent) (h : l.Severed programs) (hparent : ∀ x ∈ parent, x < l.graph.size)
    (hundeclared : ∀ x ∈ parent, (l.graph.entry x).format = .legacy → l.Undeclared programs x)
    (hseek : l.run (seek request parent isMain) = (.ok (.needs job), l')) : l'.Owed programs job := by
  have hd : l'.Due job := ⟨l, request, parent, isMain, hc, hseek⟩
  have h' := h.seek hc request isMain hparent
  rw [hseek] at h'
  obtain ⟨file, -, -, -, hreferrer, -, hclass⟩ := needs_of_seek hc.toOrderly hseek
  dsimp only at hclass
  rcases hclass with ⟨hclass, rfl⟩ | ⟨hclass, hid, rfl⟩
  · obtain ⟨-, -, -, -, -, hslot⟩ := slot_of_classified (hc.classifying request parent isMain file) hclass
    left
    refine (h'.ready (Cache.get?_of_slot? hslot)).2.resolve_left fun hl => ?_
    rw [hd.ready.unloaded] at hl
    cases hl
  · right
    obtain ⟨heq, -, -⟩ := slot_of_missed hclass
    rw [heq] at hid ⊢
    intro x hx
    rw [hid] at hx
    have hentry := Graph.entry_add_self (l.classifying request parent isMain file).graph
      (newEntry (l.referrer? parent) job.target)
    have hx' : (l.referrer? parent).map Referrer.id = some x := (congrArg Entry.parent hentry).symm.trans hx
    obtain ⟨r, hr, rfl⟩ := Option.map_eq_some_iff.mp hx'
    obtain ⟨x, hxparent, rfl⟩ := Option.map_eq_some_iff.mp hr
    have hold := Graph.entry_add_of_lt l.graph (newEntry (l.referrer? parent) job.target) (hparent x hxparent)
    refine ⟨_, hreferrer.trans hr, congrArg Entry.package hold, fun hlegacy => ?_⟩
    exact (hundeclared x hxparent hlegacy).of_slots ((Graph.Develops.add _ _).entry (hparent x hxparent)) (fun _ => rfl)
      (congrArg Entry.format hold)

/-! ## Loads -/

variable {parsed : Bool}

/-- The compiler of a module that is due begins with the entry as it was. -/
theorem Due.running_begun (hc : l.Consistent) (hd : l.Due job) (hs : l.Sorted packages programs)
    (h : l.Severed programs) : ((l.occupied job).begun job.id job.target.filename).Running packages programs job
      ((l.graph.entry job.id).Declares programs) (l.graph.entry job.id).parsed (l.graph.entry job.id).format := by
  obtain ⟨name, hname⟩ := named_occupied l job job.id
  have hlt : job.id < (l.occupied job).graph.size := (size_occupied l job).symm ▸ hd.ready.inRange
  have hoccupied : (l.occupied job).Running packages programs job ((l.graph.entry job.id).Declares programs)
      (l.graph.entry job.id).parsed (l.graph.entry job.id).format :=
    { hd.ready.consistent_occupied hc, hs.occupied hd, h.occupied hd with
      running := (hd.ready.slot?_occupied _).trans (if_pos rfl)
      declares := by rw [hname]; exact Iff.rfl
      parsed := by rw [hname]
      format := by rw [hname] }
  have hsafe := ((@guards packages programs).compiles hd.keyFile_key).beginCompile (l.occupied job)
  rw [run_beginCompile] at hsafe
  have hentry := (l.occupied job).entry_begun_self job.target.filename hlt
  refine hoccupied.of_safely hsafe (fun hshields _ => ?_) (by rw [hentry]) (by rw [hentry]; exact hoccupied.format)
  have hsize : ((l.occupied job).begun job.id job.target.filename).graph.size = (l.occupied job).graph.size := by
    unfold begun
    dsimp only
    split <;> simp
  refine hoccupied.toSevered.of_bears hshields hsize (fun id => ?_) fun {q _ _} hk => ⟨q, hk⟩
  by_cases heq : id = job.id
  · rw [heq, hentry]
    exact ⟨rfl, rfl, rfl⟩
  · have hother : ((l.occupied job).begun job.id job.target.filename).graph.entry id
        = (l.occupied job).graph.entry id := by
      unfold begun
      dsimp only
      split
      · rw [Graph.entry_update_of_ne _ _ (Ne.symm heq), Graph.entry_update_of_ne _ _ (Ne.symm heq)]
      · rw [Graph.entry_update_of_ne _ _ (Ne.symm heq)]
    rw [hother]
    exact (Entry.Spared.refl _).bears

/-- The compilers that come with the loader leave entries cut. -/
theorem Due.severed_of_prepare (hc : l.Consistent) (hd : l.Due job) (hs : l.Sorted packages programs)
    (h : l.Severed programs) (hn : Severs packages programs limit) :
    let l₂ := ((l.occupied job).run (prepare (loadNested limit) job.id job.target.filename)).2
    l₂.Severed programs ∧ (l₂.graph.entry job.id).parsed = (l.graph.entry job.id).parsed := by
  have hheeds := CompilerTable.heeds_standard ⟨job.target.filename, (l.graph.entry job.id).package.options.mode,
    l.cache.parsing⟩ (programs job.target.filename) (l.graph.entry job.id).format
  have hrunning := hd.running_begun hc hs h
  rw [Entry.Declares, hd.ready.key, hd.keyFile_key] at hrunning
  rw [← hs.compilers] at hheeds
  have hran := hrunning.runTask hd.keyFile_key hn hheeds
  rw [run_prepare, compilation_occupied]
  generalize ((l.occupied job).begun job.id job.target.filename).run _ = r at hran
  obtain ⟨e | _, l₂⟩ := r
  · exact hran
  · exact hran

theorem Severed.perform (hc : l.Consistent) (hd : l.Due job) (hs : l.Sorted packages programs)
    (h : l.Severed programs) (howed : l.Owed programs job) (hn : Severs packages programs limit) :
    (l.run (Loader.perform (loadNested limit) job)).2.Severed programs := by
  have hprepared := hd.severed_of_prepare hc hs h hn
  have hguards := ends_self.mp ((@guards packages programs).prepare (guards.loadNested limit) hd.keyFile_key)
    (l.occupied job)
  obtain ⟨-, -, hshields⟩ := hguards (hd.ready.consistent_occupied hc) hd.ready.own_occupied
  rw [Spares.run_perform (Spares.loadNested limit) hc hd.ready]
  generalize hrun : (l.occupied job).run (prepare (loadNested limit) job.id job.target.filename) = r
    at hprepared hshields
  obtain ⟨e | c, l₂⟩ := r
  · exact hprepared.1.vacated job e
  · exact h.concluded hc hd howed hrun hshields hprepared.1 hprepared.2

/-- An answered request leaves entries cut, if who asks does not become declarative. -/
theorem Severed.answer (hc : l.Consistent) (hs : l.Sorted packages programs) (h : l.Severed programs)
    (hparent : ∀ x ∈ parent, x < l.graph.size)
    (hundeclared : ∀ x ∈ parent, (l.graph.entry x).format = .legacy → l.Undeclared programs x)
    (hn : Severs packages programs limit) (request : String) (isMain : Bool) :
    (l.run (Loader.answer (loadNested limit) request parent isMain)).2.Severed programs := by
  have hsought := h.seek hc request isMain hparent
  have hsorted := (@Sorted.seeks packages programs).seek hc.toOrderly request parent isMain hs
  have hconsistent := hc.sought request parent isMain
  unfold Loader.answer
  rw [run_bind]
  generalize hseek : l.run (Loader.seek request parent isMain) = r at hsought hsorted hconsistent
  obtain ⟨e | found, l₁⟩ := r
  · exact hsought
  · cases found with
    | found id => exact hsought
    | needs job =>
      exact hsought.perform hconsistent ⟨l, request, parent, isMain, hc, hseek⟩ hsorted
        (owed_of_seek hc h hparent hundeclared hseek) hn

theorem Severed.reported {action : LoadM EntryId}
    (ha : ((l.noted [.enters request .resolving]).run action).2.Severed programs) :
    (l.run (Loader.reported request action)).2.Severed programs := by
  rw [run_reported]
  generalize (l.noted [.enters request .resolving]).run action = r at ha
  obtain ⟨e | id, l₁⟩ := r
  · exact ha.of_cache rfl rfl
  · exact ha.of_cache rfl rfl

theorem severs_loadNested (packages : Path → PackageContext) (programs : Path → Except LoadError Program)
    (limit : Nat) : Severs packages programs limit := by
  induction limit with
  | zero => exact fun _ _ h _ _ => h
  | succ limit ih =>
    intro l request id hc hs h hid hundeclared
    have hsorted := (@Sorted.loads packages programs).report (.enters request .resolving) l hs
    refine Severed.reported (.answer (hc.noted _) hsorted (h.of_cache rfl rfl) ?_ ?_ ih request false)
    · rintro _ ⟨⟩
      exact hid
    · rintro _ ⟨⟩
      exact hundeclared

/-! ## Between calls -/

/-- Who asks from outside is an entry that there is. -/
def Attended (l : Loader) (op : Operation) : Prop :=
  Undisturbed l op ∧ match op with
    | .load _ parent _ => ∀ p ∈ parent, p < l.graph.size
    | .discover _ parent => ∀ p ∈ parent, p < l.graph.size
    | _ => True

/-- Between calls an entry that is not declarative stays so: its format is that of its file, or it has no slot. -/
theorem Resting.undeclared (h : l.Resting) (hs : l.Sorted packages programs)
    (hlegacy : (l.graph.entry id).format = .legacy) : l.Undeclared programs id := by
  by_cases hready : ∃ q key, l.cache.get? q key = some (.ready id)
  · obtain ⟨q, key, hk⟩ := hready
    have hf := hs.filed hk
    left
    rw [Entry.Declares, (h.keyed (h.exclusive.slot?_eq_some.mpr hk) rfl).2, hf.package, ← hf.format, hlegacy]
    nofun
  · refine .inr ⟨hlegacy, fun q key s hk hid => ?_⟩
    cases s with
    | poisoned e => cases hid
    | loading id' => exact h.idle.unmarked _ _ _ hk
    | ready id' =>
      cases hid
      exact hready ⟨q, key, hk⟩

theorem Severed.load (hc : l.Consistent) (hs : l.Sorted packages programs) (h : l.Severed programs)
    (hparent : ∀ x ∈ parent, x < l.graph.size)
    (hundeclared : ∀ x ∈ parent, (l.graph.entry x).format = .legacy → l.Undeclared programs x) (request : String)
    (isMain : Bool) : (l.run (Loader.load request parent isMain)).2.Severed programs := by
  have hsorted := (@Sorted.loads packages programs).report (.enters request .resolving) l hs
  unfold Loader.load
  rw [run_bind, run_get, andThen_ok]
  exact .reported (.answer (hc.noted _) hsorted (h.of_cache rfl rfl) hparent hundeclared
    (severs_loadNested packages programs _) request isMain)

theorem Severed.withParsing (h : l.Severed programs) (parsing : Bool) : (l.withParsing parsing).Severed programs := by
  have hslots : ∀ p, (l.withParsing parsing).cache.slots p = l.cache.slots p := fun p => by cases p <;> rfl
  refine h.of_bears (.of_slots (.refl _) hslots fun _ => ⟨rfl, rfl⟩) rfl (fun _ => (Entry.Spared.refl _).bears)
    fun {q _ _} hk => ⟨q, ?_⟩
  rw [Cache.get?, ← hslots]
  exact hk

/-- Slots are dropped. -/
theorem Severed.of_fewer (h : l.Severed programs) (hg : l'.graph = l.graph)
    (hs : ∀ {q k s}, l'.cache.get? q k = some s → l.cache.get? q k = some s) : l'.Severed programs := by
  refine h.of_bears (.of_retired (hg ▸ .refl _) (fun _ hp => hg ▸ hp) fun _ hr => ⟨by rw [hg], ?_⟩) (by rw [hg])
    (fun _ => hg ▸ (Entry.Spared.refl _).bears) fun hk => ⟨_, hs hk⟩
  exact fun q k s hk => hr q k s (hs hk)

theorem Severed.after {op : Operation} (hr : l.Resting) (hs : l.Sorted packages programs) (h : l.Severed programs)
    (hop : l.Attended op) : (l.after op).Severed programs := by
  obtain ⟨hundisturbed, hattended⟩ := hop
  have hundeclared : ∀ x, (l.graph.entry x).format = .legacy → l.Undeclared programs x := fun x => hr.undeclared hs
  cases op with
  | load request parent isMain =>
    exact h.load hr.toConsistent hs hattended (fun x _ => hundeclared x) request isMain
  | discover request parent =>
    have hslots : ∀ p, (l.withParsing true).cache.slots p = l.cache.slots p := fun p => by cases p <;> rfl
    rw [Loader.after, run_discover]
    refine Severed.withParsing (.load (hr.toConsistent.withParsing true) (hs.withParsing true) (h.withParsing true)
      hattended (fun x hx hlegacy => ?_) request false) _
    exact (hundeclared x hlegacy).of_slots ⟨rfl, rfl, id⟩ hslots rfl
  | resolve request parent =>
    rw [Loader.after, run_resolve]
    exact h.of_cache rfl rfl
  | invalidate key => exact h.of_fewer rfl get?_of_invalidate
  | clearCache => exact h.of_fewer rfl fun {q k s} hk => by cases q <;> cases hk
  | _ => exact hundisturbed.elim

theorem Outset.severed (h : l.Outset) (programs : Path → Except LoadError Program) : l.Severed programs where
  cut hid := by
    rw [h.fresh.graph] at hid
    cases hid
  ready {q _ _} hk := by
    rw [h.fresh.cache] at hk
    cases q <;> cases hk

/-- While the files stay as they are, a legacy module that was evaluated and has a parent that is a declarative module
of a package that keeps to itself was parsed before it was evaluated. -/
theorem parsed_of_unsevered (h : Reachable Outset Attended l) {held : List EntryId}
    (hloaded : (l.graph.entry id).isLoaded = true) (hlegacy : (l.graph.entry id).format = .legacy)
    (hp : l.parent? held id = some p) (hdeclarative : (l.graph.entry p).format = .declarative)
    (hunexposed : (l.graph.entry p).package.isUnexposed = true) : (l.graph.entry id).parsed = true := by
  obtain ⟨-, packages, programs, -, hs⟩ : l.Resting ∧ ∃ packages programs, l.Sorted packages programs ∧
      l.Severed programs := by
    refine h.invariant (P := fun l => l.Resting ∧ ∃ packages programs, l.Sorted packages programs ∧ l.Severed programs)
      (fun l hl => ?_) fun l op ⟨hr, packages, programs, hs, hsevered⟩ hop => ?_
    · obtain ⟨packages, programs, hs⟩ := hl.sorted
      exact ⟨hl.toStarts.resting, packages, programs, hs, hl.severed programs⟩
    · exact ⟨hr.after hop.1.regular, packages, programs, hs.after hr.toConsistent hop.1, hsevered.after hr hs hop⟩
  have hparent : (l.graph.entry id).parent = some p := (Option.filter_eq_some_iff.mp hp).1
  cases hparsed : (l.graph.entry id).parsed with
  | true => rfl
  | false =>
    have hid := lt_size_of_isLoaded hloaded
    have hlt := Nat.lt_trans ((hs.cut hid).older hparent) hid
    -- then the parent would never become declarative, but it is so
    rcases (hs.cut hid).severed hparent hloaded hlegacy hparsed hunexposed with hdeclares | ⟨hformat, -⟩
    · exact absurd ((hs.cut hlt).declares hdeclarative) hdeclares
    · rw [hdeclarative] at hformat
      cases hformat

/-- A directory with a declarative module that asks for a legacy one. -/
def adoptedFiles : FileSystem where
  nodes := ⟨[
    (["app"], .directory),
    (["child.js", "app"], .file "exports.v = 1".toUTF8),
    (["main.mjs", "app"], .file "import \"./child.js\"".toUTF8)]⟩
  workingDirectory := ["app"]

/-- A loader with nothing set, before the modules of `adoptedFiles` are asked for. -/
def adopting : Loader := .ofConfig (.default ⟨none, none⟩) adoptedFiles

theorem outset_adopting : adopting.Outset where
  fresh := fresh_ofConfig _ _
  unmarked := ⟨by decide, fun hc => by cases hc⟩
  compilers := rfl
  proper := fun name hname => by
    obtain rfl := List.mem_singleton.mp hname
    exact Path.isStep_name.mpr (by decide)
  unchanging := fun hc => absurd rfl hc

/-- The legacy module is parsed with the declarative one, and evaluated on its own. -/
def adoptedLater : Loader := (adopting.after (.discover "./main.mjs" none)).after (.load "./child.js" none false)

/-- A legacy module that was parsed first keeps a parent that it should lose. -/
theorem unsevered : adoptedLater.cache.get? .legacy "/app/child.js" = some (.ready 1) ∧
    (adoptedLater.graph.entry 1).isLoaded = true ∧
    (adoptedLater.graph.entry 1).format = .legacy ∧ adoptedLater.parent? [] 1 = some 0 ∧
    (adoptedLater.graph.entry 0).format = .declarative ∧
    (adoptedLater.graph.entry 0).package.isUnexposed = true := by
  decide +kernel

theorem parsed_adoptedLater : adoptedLater.parent? [] 1 = some 0 ∧ (adoptedLater.graph.entry 1).parsed = true := by
  have hreach : Reachable Outset Attended adoptedLater :=
    .after (.after (.start outset_adopting) ⟨trivial, nofun⟩) ⟨trivial, nofun⟩
  obtain ⟨hloaded, hlegacy, hparent, hdeclarative, hunexposed⟩ : (adoptedLater.graph.entry 1).isLoaded = true ∧
      (adoptedLater.graph.entry 1).format = .legacy ∧ adoptedLater.parent? [] 1 = some 0 ∧
      (adoptedLater.graph.entry 0).format = .declarative ∧
      (adoptedLater.graph.entry 0).package.isUnexposed = true := by
    decide +kernel
  exact ⟨hparent, parsed_of_unsevered hreach hloaded hlegacy hparent hdeclarative hunexposed⟩

end Loader
end ModGraph
