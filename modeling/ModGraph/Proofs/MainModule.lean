import ModGraph.Proofs.Durability

/-!
# The main module

Who the main module is, and who legacy modules take for it (`Loader.markers`). A load of the main module
writes both markers before the compiler runs, and takes the second one back at the end if legacy modules are
not to see the module. Nothing in between touches them, as nested loads are not loads of the main module
(`Loader.KeepsMain.loadNested`).

So it matters where a load leaves (`Loader.marksMain_of_load`). One that compiles its module to the end has
written the markers for that module. One that is answered from the cache has not written them, and one that
fails in the compiler leaves them as they were written first: legacy modules see a main module that keeps to
itself (`Loader.markers_failing`).
-/

namespace ModGraph

/-- The main module, and the main module as far as legacy modules see it. -/
def Cache.markers (c : Cache) : Option EntryId × Option EntryId := (c.main?, c.legacyMain?)

namespace Cache

/-! ## Slots and markers -/

@[simp] theorem markers_withSlots (c : Cache) (p : Partition) (slots : Table String Slot) :
    (c.withSlots p slots).markers = c.markers := by
  cases p <;> rfl

@[simp] theorem markers_set (c : Cache) (p : Partition) (key : String) (slot : Slot) :
    (c.set p key slot).markers = c.markers := markers_withSlots c p _

@[simp] theorem markers_delete (c : Cache) (p : Partition) (key : String) :
    (c.delete p key).markers = c.markers := markers_withSlots c p _

@[simp] theorem markers_commit (c : Cache) (key : String) (p : Partition) :
    (c.commit key p).1.markers = c.markers := by
  unfold commit
  split
  · rfl
  · dsimp only
    split
    · exact markers_delete c _ key
    · exact (markers_set _ p key _).trans (markers_delete c _ key)

end Cache

namespace Loader

variable {l l' : Loader} {job : Job} {key request : String} {id : EntryId} {parent : Option EntryId}
  {isMain : Bool} {target : Target} {referrer : Option Referrer}

/-- The main module, and the main module as far as legacy modules see it. -/
def markers (l : Loader) : Option EntryId × Option EntryId := l.cache.markers

/-- Both markers are as they were. -/
def SameMain (l l' : Loader) : Prop := l'.markers = l.markers

/-! ## Loads of other modules -/

namespace SameMain

instance : IsPreorder Loader SameMain where
  refl _ := rfl
  trans _ _ _ h h' := h'.trans h

theorem of_cache (hc : l'.cache = l.cache) : SameMain l l' := congrArg Cache.markers hc

theorem report (event : Event) : Follows SameMain (Loader.report event) := fun _ => rfl

theorem updateEntry (id : EntryId) (f : Entry → Entry) : Follows SameMain (Loader.updateEntry id f) :=
  fun _ => rfl

theorem compiles (id : EntryId) : Compiles id SameMain where
  toIsPreorder := inferInstance
  report event _ := report event
  updateEntry _ := updateEntry id _
  source file l := of_cache (Quiet.reading.source file l).cache
  program file l := of_cache (Quiet.reading.program file l).cache

theorem of_classification {r : Except LoadError CacheLookup} (h : Classification l key r l') :
    SameMain l l' := by
  cases h with
  | adopted => exact Cache.markers_commit _ _ _
  | _ => rfl

theorem linked (l : Loader) (referrer : Option Referrer) (request : String) (child : EntryId) :
    SameMain l (l.linked referrer request child) := of_cache (cache_linked l referrer request child)

theorem seekTarget (request : String) (referrer : Option Referrer) (isMain : Bool) (target : Target) :
    Follows SameMain (Loader.seekTarget request referrer isMain target) := by
  refine (report _).bind fun _ => .bind (fun l => of_classification (classification l _ _ _)) fun found => ?_
  cases found with
  | hit id =>
    refine (report _).bind fun _ => .bind (fun l => ?_) fun _ => .pure _
    rw [run_link]
    exact linked l referrer request id
  | evaluate p id => exact .pure _
  | miss p => exact .bind (fun _ => rfl) fun _ => .pure _

theorem builtinOf (l : Loader) (name : String) : SameMain l (l.builtinOf name).2 := by
  unfold Loader.builtinOf
  split <;> rfl

theorem seek (request : String) (parent : Option EntryId) (isMain : Bool) :
    Follows SameMain (Loader.seek request parent isMain) := by
  intro l
  rw [run_seek_eq]
  dsimp only
  split
  · rfl
  · next name _ => exact (linked _ _ _ _).trans (builtinOf _ name)
  · next file _ => exact seekTarget _ _ _ _ ((l.retried request parent isMain).packaged file)

theorem vacated (l : Loader) (job : Job) (e : LoadError) : SameMain l (l.vacated job e) := by
  unfold Loader.vacated
  split
  · exact Cache.markers_set _ _ _ _
  · exact Cache.markers_delete _ _ _

/-- A module that takes its place leaves the markers alone until something of it is hidden. -/
theorem settled (l : Loader) (job : Job) : SameMain l (l.settled job) := by
  unfold Loader.settled
  dsimp only
  refine (Cache.markers_set _ _ _ _).trans ?_
  split
  · exact Cache.markers_commit _ _ _
  · rfl

end SameMain

theorem cache_concealed (l : Loader) (job : Job) (format : Format) : (l.concealed job format).cache =
    if !l.cache.parsing && (job.isMain && job.target.package.isUnexposed && format == .declarative) then
      { l.cache with legacyMain? := none }
    else l.cache := by
  unfold concealed
  dsimp only
  cases hparsing : l.cache.parsing with
  | true => rfl
  | false =>
    cases hhides : (job.isMain && job.target.package.isUnexposed && format == .declarative) <;>
      cases severs job.referrer format <;> simp

/-- When a module takes its place, legacy modules no longer see a main module that keeps to itself. -/
theorem markers_concluded (l : Loader) (job : Job) : (l.concluded job).markers =
    if !l.cache.parsing && (job.isMain && job.target.package.isUnexposed
        && (l.graph.entry job.id).format == .declarative) then (l.markers.1, none)
    else l.markers := by
  have hsettled : (l.settled job).cache.markers = l.markers := SameMain.settled l job
  have hparsing : (l.settled job).cache.parsing = l.cache.parsing := by
    unfold settled
    dsimp only
    rw [Cache.parsing_set]
    split
    · exact (Cache.Develops.commit l.cache _ _).parsing
    · rfl
  have hcache : (l.concluded job).cache = _ := cache_concealed _ job (l.graph.entry job.id).format
  rw [cache_linked, show ((l.settled job).noted [.enters job.target.key .linking]).cache
    = (l.settled job).cache from rfl, hparsing] at hcache
  rw [markers, hcache]
  split
  · exact congrArg (fun m => (m.1, none)) hsettled
  · exact hsettled

theorem markers_occupied (l : Loader) (job : Job) :
    (l.occupied job).markers = if job.isMain then (some job.id, some job.id) else l.markers := by
  unfold occupied
  split
  · rfl
  · exact Cache.markers_set _ _ _ _

/-! ## Nested loads -/

/-- In a grounded loader both markers stay, and slots are marked as they were. -/
def KeepsMain (l l' : Loader) : Prop := Balanced l l' ∧ (l.Grounded → SameMain l l')

namespace KeepsMain

instance : IsPreorder Loader KeepsMain where
  refl l := ⟨.refl l, fun _ => rfl⟩
  trans _ _ _ h h' := ⟨h.1.trans h'.1, fun hg => IsTrans.trans _ _ _ (h.2 hg) (h'.2 (h.1 hg).1)⟩

theorem of_follows {α : Type} {action : LoadM α} (hb : Follows Balanced action) (hm : Follows SameMain action) :
    Follows KeepsMain action := fun l => ⟨hb l, fun _ => hm l⟩

theorem report (event : Event) : Follows KeepsMain (Loader.report event) :=
  of_follows (.report event) (.report event)

theorem prepare {nested : NestedLoad} (hn : ∀ request id, Follows KeepsMain (nested request id)) (id : EntryId)
    (filename : Path) : Follows KeepsMain (Loader.prepare nested id filename) := by
  have hcompiles : Compiles id KeepsMain :=
    { toIsPreorder := inferInstance
      report := fun event _ => report event
      updateEntry := fun hf => of_follows ((Balanced.compiles id).updateEntry hf) (.updateEntry id _)
      source := fun file => of_follows ((Balanced.compiles id).source file) ((SameMain.compiles id).source file)
      program := fun file => of_follows ((Balanced.compiles id).program file) ((SameMain.compiles id).program file) }
  refine (hcompiles.beginCompile filename).bind fun c => Follows.bind ?_ fun _ => .pure c
  refine ends_self.mp (hcompiles.runTask .self (fun request => ends_self.mpr (hn request id)) filename ?_)
  exact Task.within_of_all report (fun _ => trivial) (fun _ => trivial) c.task

end KeepsMain

/-- What a compilation leaves in the markers. Those of the main module are set before the compiler runs, and
the one that legacy modules see is taken back only after it. -/
theorem markers_of_perform {limit : Nat} (hn : ∀ request id, Follows KeepsMain (loadNested limit request id))
    (hg : l.Grounded) (hv : l.Vacant job) :
    let marked := if job.isMain then (some job.id, some job.id) else l.markers
    match l.run (perform (loadNested limit) job) with
    | (.error _, l') => l'.markers = marked
    | (.ok id, l') => id = job.id ∧ l'.markers =
        if !l.cache.parsing && (job.isMain && job.target.package.isUnexposed
            && (l'.graph.entry id).format == .declarative) then (marked.1, none)
        else marked := by
  intro marked
  have hprepared := KeepsMain.prepare hn job.id job.target.filename (l.occupied job)
  rw [Balanced.run_perform (Balanced.loadNested limit) hg hv]
  generalize hr : (l.occupied job).run (prepare (loadNested limit) job.id job.target.filename) = r at hprepared ⊢
  have hmarked : r.2.markers = marked := (hprepared.2 (hg.occupied hv)).trans (markers_occupied l job)
  obtain ⟨e | c, l₂⟩ := r
  · exact (SameMain.vacated l₂ job e).trans hmarked
  · have hformat := (entry_concluded (l₂.marked job.id job.target.filename c) job job.id).format
    have hparsing : (l₂.marked job.id job.target.filename c).cache.parsing = l.cache.parsing :=
      (parsing_of_prepare hr).2
    change (l₂.marked job.id job.target.filename c).markers = marked at hmarked
    refine ⟨rfl, ?_⟩
    rw [markers_concluded, hparsing, hmarked, hformat]

/-! ## What a request comes to -/

theorem isMain_of_seek (h : l.run (seek request parent isMain) = (.ok (.needs job), l')) :
    job.isMain = isMain := by
  rw [run_seek_eq] at h
  dsimp only at h
  split at h
  · cases h
  · cases h
  · obtain ⟨-, -, hmain, -⟩ := needs_of_seekTarget h
    exact hmain

/-- A request for a key has the module of an entry evaluated: a new one, or one that was only parsed. -/
structure Awaits (l : Loader) (key : String) (id : EntryId) : Prop where
  unloaded : (l.graph.entry id).isLoaded = false
  place : l.graph.size ≤ id ∨ ∃ p, l.cache.get? p key = some (.ready id)

/-- What the classification of a key shows about its slots and entries, where no slot is marked and no
parse-only pass runs. -/
def Reveals (l : Loader) (key : String) : Except LoadError CacheLookup → Prop
  | .error e => ∃ p, l.cache.get? p key = some (.poisoned e)
  | .ok (.hit id) => (l.graph.entry id).isLoaded = true
  | .ok (.evaluate _ id) => l.Awaits key id
  | .ok (.miss _) => True

/-- No slot is marked, and no parse-only pass runs. -/
structure Quiescent (l : Loader) : Prop where
  unmarked : ∀ p key id, ¬ l.Loading p key id
  parsing : l.cache.parsing = false

theorem reveals_of_classify (hq : l.Quiescent) (key : String) (fixed : Option Format) (unexposed : Bool) :
    l.Reveals key (l.run (classify key fixed unexposed)).1 := by
  cases hrun : l.run (classify key fixed unexposed) with
  | mk r l' =>
    have hclass := classification_of_run hrun
    cases r with
    | error e => exact hclass.error
    | ok found =>
      cases found with
      | hit id =>
        obtain ⟨p, hloading⟩ | hloaded | hparsing := hclass.hit
        · exact absurd hloading (hq.unmarked p key id)
        · exact hloaded
        · rw [hq.parsing] at hparsing
          cases hparsing
      | evaluate p id =>
        obtain ⟨-, -, hslot⟩ := hclass.evaluate
        exact ⟨unloaded_of_classify (congrArg Prod.fst hrun), .inr hslot⟩
      | miss p => trivial

/-- What a request for a file comes to: its slot is poisoned, or holds a loaded module, or a module is to be
compiled that is not loaded. -/
def Foretells (l : Loader) (key : String) : Except LoadError Finding → Prop
  | .error e => ∃ p, l.cache.get? p key = some (.poisoned e)
  | .ok (.found id) => (l.graph.entry id).isLoaded = true
  | .ok (.needs job) => l.Awaits key job.id

theorem foretells_of_seekTarget (hq : l.Quiescent) :
    l.Foretells target.key (l.run (seekTarget request referrer isMain target)).1 := by
  have hreveals := reveals_of_classify (l := l.noted [.enters target.key .classifying]) ⟨hq.unmarked, hq.parsing⟩
    target.key target.fixed target.package.isUnexposed
  have hgraph : ((l.noted [.enters target.key .classifying]).run (classify target.key target.fixed
      target.package.isUnexposed)).2.graph = (l.noted [.enters target.key .classifying]).graph :=
    (classification _ _ _ _).graph_eq
  rw [run_seekTarget_eq]
  generalize (l.noted [.enters target.key .classifying]).run (classify target.key target.fixed
    target.package.isUnexposed) = r at hreveals hgraph ⊢
  obtain ⟨e | found, l₁⟩ := r
  · exact hreveals
  · cases found with
    | hit id => exact hreveals
    | evaluate p id => exact ⟨hreveals.unloaded, hreveals.place⟩
    | miss p =>
      -- the module that is to be compiled is a new one
      have hsize : l₁.graph.size = l.graph.size := congrArg Graph.size hgraph
      refine ⟨?_, .inl (Nat.le_of_eq hsize.symm)⟩
      change (l.graph.entry l₁.graph.size).isLoaded = false
      rw [hsize, Graph.entry, Graph.size, Array.getElem?_eq_none (Nat.le_refl _)]
      rfl

/-- A request that stands for a file looks for that file. -/
theorem run_seek_file {file : Path} (hfile : l.resolved request parent isMain = .ok (.file file)) :
    l.run (seek request parent isMain) = ((l.retried request parent isMain).packaged file).run
      (seekTarget request (l.referrer? parent) isMain (l.target request file)) := by
  rw [run_seek_eq, hfile]

theorem foretells_of_seek (hq : l.Quiescent) {file : Path}
    (hfile : l.resolved request parent isMain = .ok (.file file)) :
    l.Foretells (cacheKey file (splitQuery request).2) (l.run (seek request parent isMain)).1 := by
  have hforetells : ((l.retried request parent isMain).packaged file).Foretells (cacheKey file (splitQuery request).2)
      (((l.retried request parent isMain).packaged file).run
        (seekTarget request (l.referrer? parent) isMain (l.target request file))).1 :=
    foretells_of_seekTarget ⟨hq.unmarked, hq.parsing⟩
  rw [run_seek_file hfile]
  generalize Loader.run _ (seekTarget _ _ _ _) = r at hforetells ⊢
  obtain ⟨e | found, l₁⟩ := r
  · exact hforetells
  · cases found with
    | found id => exact hforetells
    | needs job => exact ⟨hforetells.unloaded, hforetells.place⟩

/-! ## Loads of the main module -/

namespace KeepsMain

theorem answer {limit : Nat} (hn : ∀ request id, Follows KeepsMain (loadNested limit request id))
    (request : String) (parent : Option EntryId) :
    Follows KeepsMain (Loader.answer (loadNested limit) request parent false) := by
  intro l
  refine ⟨Balanced.answer (Balanced.loadNested limit) request parent false l, fun hg => ?_⟩
  refine Follows.rel_answer (R := SameMain) (SameMain.seek request parent false l) fun {l₁ job} hr => ?_
  have hbalanced := Balanced.seek request parent false l hg
  rw [hr] at hbalanced
  have hperform := markers_of_perform hn hbalanced.1 (vacant_of_seek hg hr)
  simp only [isMain_of_seek hr, Bool.false_and, Bool.and_false, Bool.false_eq_true, if_false] at hperform
  generalize l₁.run (perform (loadNested limit) job) = r at hperform ⊢
  obtain ⟨e | id, l₂⟩ := r
  · exact hperform
  · exact hperform.2

/-- Nested loads leave both markers alone, however deep they go. -/
theorem loadNested (limit : Nat) (request : String) (id : EntryId) :
    Follows KeepsMain (Loader.loadNested limit request id) :=
  .loadNested (fun _ => report) (fun _ ih request id => answer ih request (some id)) limit request id

end KeepsMain

/-- What a request for a file leaves in the markers, where the main module is asked for. -/
structure MarksMain (l : Loader) (file : Path) (key : String) (r : Except LoadError EntryId × Loader) : Prop where
  /-- A module that was loaded before stays what it was. -/
  again : ∀ id, r.1 = .ok id → (l.graph.entry id).isLoaded = true → r.2.markers = l.markers
  /-- A module that is compiled to its end is the main module, and legacy modules see it unless it is
  declarative and keeps to itself. -/
  evaluated : ∀ id, r.1 = .ok id → (l.graph.entry id).isLoaded = false → r.2.markers = (some id,
    if (l.packageOf file).isUnexposed && (r.2.graph.entry id).format == .declarative then none else some id)
  /-- A poisoned slot leaves the markers alone. Where the compiler fails they stay at the module that was to be
  compiled, also if legacy modules were not to see that. -/
  failed : ∀ e, r.1 = .error e →
    ((∃ p, l.cache.get? p key = some (.poisoned e)) ∧ r.2.markers = l.markers) ∨
      ∃ id, l.Awaits key id ∧ id < r.2.graph.size ∧ r.2.markers = (some id, some id)

theorem marksMain_of_answer (h : l.Idle) {file : Path}
    (hfile : l.resolved request parent true = .ok (.file file)) (limit : Nat) :
    l.MarksMain file (cacheKey file (splitQuery request).2)
      (l.run (answer (loadNested limit) request parent true)) := by
  have hforetells := foretells_of_seek ⟨h.unmarked, h.parsing⟩ hfile
  have hbalanced := Balanced.seek request parent true l h.toGrounded
  have hsought := SameMain.seek request parent true l
  have hevolves := Evolves.respects.seek request parent true l
  unfold answer
  rw [run_bind]
  generalize hr : l.run (seek request parent true) = r at hbalanced hsought hforetells hevolves ⊢
  obtain ⟨e | found, l₁⟩ := r
  · refine ⟨nofun, nofun, ?_⟩
    rintro _ ⟨⟩
    exact .inl ⟨hforetells, hsought⟩
  · cases found with
    | found id =>
      have hloaded : (l.graph.entry id).isLoaded = true := hforetells
      refine ⟨fun _ _ _ => hsought, ?_, nofun⟩
      rintro _ ⟨⟩ hunloaded
      simp [hloaded] at hunloaded
    | needs job =>
      have hv := vacant_of_seek h.toGrounded hr
      have hperform := markers_of_perform (KeepsMain.loadNested limit) hbalanced.1 hv
      have hgrows := Evolves.respects.perform (Evolves.respects.loadNested limit) job l₁
      obtain ⟨-, -, hmain, htarget, -⟩ := needs_of_seekTarget ((run_seek_file hfile).symm.trans hr)
      rw [hmain, htarget] at hperform
      rw [andThen_ok]
      generalize l₁.run (perform (loadNested limit) job) = r at hperform hgrows ⊢
      obtain ⟨e | id, l₂⟩ := r
      · refine ⟨nofun, nofun, ?_⟩
        rintro _ ⟨⟩
        exact .inr ⟨job.id, hforetells, Nat.lt_of_lt_of_le hv.inRange hgrows.graph.size, hperform⟩
      · obtain ⟨rfl, hmarkers⟩ := hperform
        have hparsing : l₁.cache.parsing = false := hevolves.cache.parsing.trans h.parsing
        simp only [hparsing, Bool.not_false, Bool.true_and, if_true] at hmarkers
        refine ⟨?_, ?_, nofun⟩
        · rintro _ ⟨⟩ hloaded
          simp [hforetells.unloaded] at hloaded
        · rintro _ ⟨⟩ -
          refine hmarkers.trans ?_
          show (if (l.packageOf file).isUnexposed && _ then _ else _) = _
          split
          · rfl
          · rfl

/-- What a load of the main module leaves in the markers, for a request that stands for a file. -/
theorem marksMain_of_load (h : Reachable (fun l => l.cache = .empty) Sensible l) {file : Path}
    (hfile : l.resolved request parent true = .ok (.file file)) :
    l.MarksMain file (cacheKey file (splitQuery request).2) (l.run (load request parent true)) := by
  have hidle : l.Idle := h.invariant (fun _ => idle_of_empty) fun _ _ hl hop => hl.after hop
  have hnoted : (l.noted [.enters request .resolving]).Idle := hidle.of_balanced (.of_cache (.refl _) rfl) rfl
  have hanswer := marksMain_of_answer hnoted hfile (l.nestingBound request)
  unfold load
  rw [run_bind, run_get, andThen_ok, run_reported]
  generalize (l.noted [.enters request .resolving]).run _ = r at hanswer ⊢
  obtain ⟨e | id, l'⟩ := r
  · refine ⟨nofun, nofun, ?_⟩
    rintro _ ⟨⟩
    obtain hpoisoned | ⟨id, hawaits, hmarked⟩ := hanswer.failed e rfl
    · exact .inl hpoisoned
    · exact .inr ⟨id, ⟨hawaits.unloaded, hawaits.place⟩, hmarked⟩
  · refine ⟨?_, ?_, nofun⟩
    · rintro _ ⟨⟩ hloaded
      exact hanswer.again id rfl hloaded
    · rintro _ ⟨⟩ hunloaded
      exact hanswer.evaluated id rfl hunloaded

/-- A directory with a declarative module that throws, and one that does not. -/
def failingFiles : FileSystem where
  nodes := ⟨[
    (["app"], .directory),
    (["main.mjs", "app"], .file "throw new Error(\"stop\")".toUTF8),
    (["tool.mjs", "app"], .file "export const v = 1".toUTF8)]⟩
  workingDirectory := ["app"]

/-- A loader with nothing set, before the modules of `failingFiles` are asked for. -/
def failing : Loader := .ofConfig (.default ⟨none, none⟩) failingFiles

theorem marksMain_failing :
    failing.resolved "./main.mjs" none true = .ok (.file ⟨"/app/main.mjs"⟩) ∧
    failing.MarksMain ⟨"/app/main.mjs"⟩ (cacheKey ⟨"/app/main.mjs"⟩ (splitQuery "./main.mjs").2)
      (failing.run (load "./main.mjs" none true)) := by
  have hfile : failing.resolved "./main.mjs" none true = .ok (.file ⟨"/app/main.mjs"⟩) := by decide +kernel
  exact ⟨hfile, marksMain_of_load (.start rfl) hfile⟩

/-- Where the main module fails, legacy modules see it although it keeps to itself; and where it was loaded
before, a load of it as the main module succeeds without there being one. -/
theorem markers_failing :
    let failed := failing.after (.load "./main.mjs" none true)
    let loaded := failing.after (.load "./tool.mjs" none false)
    failing.Fails (.load "./main.mjs" none true) (.compile ⟨"/app/main.mjs"⟩ (.thrown "stop")) ∧
      failing.markers = (none, none) ∧ failed.markers = (some 0, some 0) ∧
      (failed.graph.entry 0).format = .declarative ∧ (failed.graph.entry 0).package.isUnexposed = true ∧
      (loaded.run (load "./tool.mjs" none true)).1 = .ok 0 ∧
      (loaded.after (.load "./tool.mjs" none true)).markers = (none, none) :=
  ⟨.load (by decide +kernel), by decide +kernel⟩

end Loader
end ModGraph
