import ModGraph.Proofs.Exclusivity

/-!
# Modules in progress

While a module is in progress, the modules that it asks for are compiled one after the other, and each
compiler only writes to the entry that it was started for. As every slot leads to an entry with its own
key (`Loader.Consistent`), that is never the entry of another module in progress, nor one that is loaded
(`Loader.Spares`). So a module finds its entry as it left it when a nested load comes back.
-/

namespace ModGraph

open Relation (ReflTransGen)

/-- An entry keeps everything but its place in the graph. -/
structure Entry.Spared (e e' : Entry) : Prop where
  key : e'.key = e.key
  format : e'.format = e.format
  parsed : e'.parsed = e.parsed
  module : e'.module = e.module
  package : e'.package = e.package

namespace Entry.Spared

theorem refl (e : Entry) : e.Spared e := ⟨rfl, rfl, rfl, rfl, rfl⟩

theorem stays {e e' : Entry} (h : e.Spared e') : e.Stays e' := ⟨by rw [h.module], h.package, by rw [h.module]⟩

theorem trans {e e' e'' : Entry} (h : e.Spared e') (h' : e'.Spared e'') : e.Spared e'' :=
  ⟨h'.key.trans h.key, h'.format.trans h.format, h'.parsed.trans h.parsed, h'.module.trans h.module,
    h'.package.trans h.package⟩

theorem isLoaded {e e' : Entry} (h : e.Spared e') : e'.isLoaded = e.isLoaded := by
  rw [Entry.isLoaded, h.module, Entry.isLoaded]

theorem update (g : Graph) (id : EntryId) {f : Entry → Entry} (hf : ∀ e : Entry, e.Spared (f e))
    (id' : EntryId) : (g.entry id').Spared ((g.update id f).entry id') := by
  rw [Graph.entry_update]
  split
  · exact hf _
  · exact refl _

theorem update_of_ne (g : Graph) {id id' : EntryId} (f : Entry → Entry) (h : id' ≠ id) :
    (g.entry id').Spared ((g.update id f).entry id') := by
  rw [Graph.entry_update_of_ne g f h.symm]
  exact refl _

end Entry.Spared

namespace Loader

variable {l l' : Loader} {job : Job} {own : EntryId → Prop}

/-! ## Consistent loaders -/

/-- Slots lead to entries with their keys, and modules in progress are not loaded. -/
structure Consistent (l : Loader) : Prop extends Orderly l where
  keyed : ∀ {key p s id}, l.cache.slot? key = some (p, s) → s.entry? = some id →
    id < l.graph.size ∧ (l.graph.entry id).key = key
  unfinished : ∀ {key p id}, l.InProgress key p id → (l.graph.entry id).isLoaded = false

/-- An entry is loaded, or its module is in progress. -/
structure Holds (l : Loader) (id : EntryId) : Prop where
  inRange : id < l.graph.size
  held : (l.graph.entry id).isLoaded = true ∨ ∃ key p, l.InProgress key p id

/-- A loader is still consistent, the same modules are in progress, and apart from some entries of its
own no entry that was loaded or in progress was written to. -/
structure Spared (own : EntryId → Prop) (l l' : Loader) : Prop where
  consistent : l'.Consistent
  progress : ∀ key p id, l'.InProgress key p id ↔ l.InProgress key p id
  size : l.graph.size ≤ l'.graph.size
  entry : ∀ {id}, l.Holds id → ¬ own id → (l.graph.entry id).Spared (l'.graph.entry id)

theorem Spared.holds (h : Spared own l l') {id : EntryId} (hh : l.Holds id) (ho : ¬ own id) :
    l'.Holds id := by
  refine ⟨Nat.lt_of_lt_of_le hh.inRange h.size, ?_⟩
  rcases hh.held with hl | ⟨key, p, hp⟩
  · exact .inl ((h.entry hh ho).isLoaded.trans hl)
  · exact .inr ⟨key, p, (h.progress key p id).mpr hp⟩

/-- What is consistent stays so, and entries are spared. -/
def Spares (own : EntryId → Prop) (l l' : Loader) : Prop := l.Consistent → Spared own l l'

namespace Spares

theorem refl (l : Loader) : Spares own l l := fun hc =>
  ⟨hc, fun _ _ _ => Iff.rfl, Nat.le_refl _, fun _ _ => .refl _⟩

theorem trans {l l' l'' : Loader} (h : Spares own l l') (h' : Spares own l' l'') : Spares own l l'' := by
  intro hc
  have hl := h hc
  have hl' := h' hl.consistent
  refine ⟨hl'.consistent, fun key p id => (hl'.progress key p id).trans (hl.progress key p id),
    Nat.le_trans hl.size hl'.size, fun hh ho => ?_⟩
  exact (hl.entry hh ho).trans (hl'.entry (hl.holds hh ho) ho)

instance : IsPreorder Loader (Spares own) where
  refl := refl
  trans _ _ _ := trans

theorem mono {own' : EntryId → Prop} (hown : ∀ id, own id → own' id) (h : Spares own l l') :
    Spares own' l l' := fun hc =>
  have hl := h hc
  ⟨hl.consistent, hl.progress, hl.size, fun hh ho => hl.entry hh fun hid => ho (hown _ hid)⟩

/-- Where slots stay as they are, it is enough to look at the entries. -/
theorem of_slots (ht : Tidy l l') (hs : ∀ key, l'.cache.slot? key = l.cache.slot? key)
    (hsize : l.graph.size ≤ l'.graph.size)
    (hkey : ∀ {id}, id < l.graph.size → (l'.graph.entry id).key = (l.graph.entry id).key)
    (hloaded : ∀ {id}, id < l.graph.size → (l'.graph.entry id).isLoaded = (l.graph.entry id).isLoaded)
    (hentry : ∀ {id}, id < l.graph.size → ¬ own id → (l.graph.entry id).Spared (l'.graph.entry id)) :
    Spares own l l' := by
  intro hc
  obtain ⟨ho, hp⟩ := ht hc.toOrderly
  refine ⟨⟨ho, fun hslot hid => ?_, fun hprog => ?_⟩, hp, hsize, fun hh => hentry hh.inRange⟩
  · rw [hs] at hslot
    obtain ⟨hlt, hk⟩ := hc.keyed hslot hid
    exact ⟨Nat.lt_of_lt_of_le hlt hsize, (hkey hlt).trans hk⟩
  · have hprog' := (hp _ _ _).mp hprog
    exact (hloaded (hc.keyed hprog' rfl).1).trans (hc.unfinished hprog')

theorem of_quiet (ht : Tidy l l') (h : Quiet l l') : Spares own l l' :=
  of_slots ht (fun key => by rw [h.cache]) (by rw [h.graph]) (fun _ => by rw [h.graph])
    (fun _ => by rw [h.graph]) fun _ _ => by rw [h.graph]; exact .refl _

theorem of_graph (ht : Tidy l l') (hs : l'.cache = l.cache) (hg : l'.graph = l.graph) :
    Spares own l l' :=
  of_slots ht (fun key => by rw [hs]) (by rw [hg]) (fun _ => by rw [hg]) (fun _ => by rw [hg])
    fun _ _ => by rw [hg]; exact .refl _

theorem report (event : Event) : Follows (Spares own) (Loader.report event) := fun l =>
  of_graph (Tidy.report event l) rfl rfl

/-- A compiler may write to its own entry. -/
theorem updateEntry {id : EntryId} (hown : own id) {f : Entry → Entry}
    (hf : ∀ e : Entry, e.Retains (f e)) : Follows (Spares own) (Loader.updateEntry id f) := by
  intro l
  have hcases : ∀ id', (l.graph.update id f).entry id' = l.graph.entry id' ∨
      id' = id ∧ (l.graph.update id f).entry id' = f (l.graph.entry id') := by
    intro id'
    rw [Graph.entry_update]
    split
    · next h => exact .inr ⟨h.1.symm, rfl⟩
    · exact .inl rfl
  refine of_slots (Tidy.updateEntry id f l) (fun _ => rfl) (by simp) ?_ ?_ ?_
  · intro id' _
    rcases hcases id' with h | ⟨_, h⟩
    · exact congrArg Entry.key h
    · exact (congrArg Entry.key h).trans (hf _).key
  · intro id' _
    rcases hcases id' with h | ⟨_, h⟩
    · exact congrArg Entry.isLoaded h
    · exact (congrArg Entry.isLoaded h).trans (hf _).loaded
  · intro id' _ hid'
    exact .update_of_ne _ f fun heq => hid' (heq ▸ hown)

theorem compiles {id : EntryId} (hown : own id) : Compiles id (Spares own) where
  toIsPreorder := inferInstance
  report event _ := report event
  updateEntry hf := updateEntry hown hf
  source file := fun l => of_quiet ((Tidy.compiles id).source file l) (Quiet.reading.source file l)
  program file := fun l => of_quiet ((Tidy.compiles id).program file l) (Quiet.reading.program file l)

end Spares

/-! ## Seeking a module -/

/-- A module can be compiled into its entry, which was not loaded yet. -/
structure Ready (l : Loader) (job : Job) : Prop extends Fits l job where
  inRange : job.id < l.graph.size
  key : (l.graph.entry job.id).key = job.target.key
  unloaded : (l.graph.entry job.id).isLoaded = false
  slot : l.cache.slot? job.target.key = none ∨
    l.cache.slot? job.target.key = some (job.partition, .ready job.id) ∧ l.cache.parsing = false

/-- The entry of a module that is to be compiled is not held. -/
theorem Ready.ne_of_holds (hr : l.Ready job) (hc : l.Consistent) {id : EntryId} (hh : l.Holds id) :
    id ≠ job.id := by
  rintro rfl
  rcases hh.held with hl | ⟨key, p, hp⟩
  · rw [hr.unloaded] at hl
    cases hl
  · obtain rfl : job.target.key = key := hr.key.symm.trans (hc.keyed hp rfl).2
    exact hr.idle _ _ hp

theorem Spares.linked (l : Loader) (referrer : Option Referrer) (request : String) (child : EntryId) :
    Spares own l (l.linked referrer request child) := by
  have ht := Tidy.linked l referrer request child
  cases referrer with
  | none => exact refl l
  | some r =>
    have hspared := Entry.Spared.update l.graph r.id (f := fun e => e.addChild request child)
      fun e => ⟨rfl, rfl, rfl, rfl, rfl⟩
    exact of_slots ht (fun _ => rfl) (by simp [Loader.linked]) (fun _ => (hspared _).key)
      (fun _ => (hspared _).isLoaded) fun _ _ => hspared _

/-- A new entry is not held. -/
theorem Spares.added (ht : Tidy l l') (hs : ∀ p, l'.cache.slots p = l.cache.slots p) {e : Entry}
    (hg : l'.graph = (l.graph.add e).1) : Spares own l l' := by
  have hold : ∀ {id}, id < l.graph.size → l'.graph.entry id = l.graph.entry id := fun h => by
    rw [hg, Graph.entry_add_of_lt _ _ h]
  exact of_slots ht (fun _ => Cache.slot?_congr hs) (by simp [hg]) (fun h => by rw [hold h])
    (fun h => by rw [hold h]) fun h _ => by rw [hold h]; exact .refl _

theorem Spares.builtinOf (l : Loader) (name : String) : Spares own l (l.builtinOf name).2 := by
  have ht := Tidy.builtinOf l name
  unfold Loader.builtinOf at ht ⊢
  split
  · exact refl l
  · next hb =>
    rw [hb] at ht
    exact added ht (fun p => by cases p <;> rfl) rfl

/-- A slot that moves keeps its entry. -/
theorem Spares.classified (key : String) (fixed : Option Format) (unexposed : Bool) :
    Spares own l (l.classified key fixed unexposed).2 := by
  have ht := Tidy.classified (l := l) key fixed unexposed
  obtain ⟨events, -, heq⟩ | ⟨id, hslot, -, heq⟩ := l.loader_classified key fixed unexposed
  · rw [heq]
    exact of_graph (Tidy.noted _ _) rfl rfl
  · rw [heq] at ht ⊢
    intro hc
    obtain ⟨ho, hprog⟩ := ht hc.toOrderly
    have hcommit := fun k => hc.exclusive.slot?_commit (k := k) hslot rfl
      (p := settledPartition unexposed (l.graph.entry id).format)
    refine ⟨⟨ho, fun {k q s id'} hs hid' => ?_, fun hp => hc.unfinished ((hprog _ _ _).mp hp)⟩, hprog,
      Nat.le_refl _, fun _ _ => .refl _⟩
    have hs' := (hcommit k).symm.trans hs
    split at hs'
    · next hk =>
      cases hs'
      exact hc.keyed (hk ▸ hslot) hid'
    · exact hc.keyed hs' hid'

/-- Classification may move a slot to another partition, but what the slots of keys hold stays. -/
theorem slot?_classified (hc : l.cache.Exclusive) (key : String) (fixed : Option Format) (unexposed : Bool)
    (k : String) : ((l.classified key fixed unexposed).2.cache.slot? k).map (·.2)
      = (l.cache.slot? k).map (·.2) := by
  obtain ⟨events, -, heq⟩ | ⟨id, hslot, -, heq⟩ := l.loader_classified key fixed unexposed
  · rw [heq]
    rfl
  · have hcommit := hc.slot?_commit (k := k) hslot rfl
      (p := settledPartition unexposed (l.graph.entry id).format)
    rw [heq]
    refine (congrArg (Option.map Prod.snd) hcommit).trans ?_
    split
    · next hk => rw [← hk, hslot, Option.map_some, Option.map_some]
    · rfl

theorem Spares.seeks : Seeks (Spares own) where
  toIsPreorder := inferInstance
  noted _ _ _ := of_graph (Tidy.noted _ _) rfl rfl
  packaged _ := of_graph (Tidy.packaged _ _) rfl rfl
  linked := linked
  builtinOf := builtinOf
  classified _ key := classified key _ _
  added _ _ := added (Tidy.of_cache rfl (KeepsUnmarked.of_eq rfl rfl)) (fun _ => rfl) rfl

theorem Spares.seek (request : String) (parent : Option EntryId) (isMain : Bool) :
    Follows (Spares own) (Loader.seek request parent isMain) :=
  fun _ hc => seeks.seek hc.toOrderly request parent isMain hc

/-- A module that is to be evaluated was parsed only. -/
theorem slot_of_classified {key : String} {fixed : Option Format} {unexposed : Bool} {p : Partition}
    {id : EntryId} (hc : l.Consistent)
    (h : (l.classified key fixed unexposed).1 = .ok (.evaluate p id)) :
    id < l.graph.size ∧ (l.graph.entry id).key = key ∧ (l.graph.entry id).isLoaded = false ∧
      (l.classified key fixed unexposed).2.graph = l.graph ∧
      (l.classified key fixed unexposed).2.cache.parsing = false ∧
      (l.classified key fixed unexposed).2.cache.slot? key = some (p, .ready id) := by
  obtain ⟨-, hparsing, hloaded, ⟨hslot, heq⟩ | ⟨hslot, heq⟩⟩ := parsed_of_classified h
  · obtain ⟨hlt, hkey⟩ := hc.keyed hslot rfl
    rw [heq]
    exact ⟨hlt, hkey, hloaded, rfl, hparsing, hslot⟩
  · obtain ⟨hlt, hkey⟩ := hc.keyed hslot rfl
    rw [heq]
    refine ⟨hlt, hkey, hloaded, rfl, ?_, (hc.exclusive.slot?_commit (k := key) hslot rfl).trans (if_pos rfl)⟩
    simp only [committed, noted, Cache.commit_eq hslot rfl, Cache.parsing_set, Cache.parsing_delete, hparsing]

theorem Consistent.classifying (hc : l.Consistent) (request : String) (parent : Option EntryId) (isMain : Bool)
    (file : Path) : (l.classifying request parent isMain file).Consistent := by
  have hspares : Spares (fun _ => False) l (l.classifying request parent isMain file) :=
    have hretried : Spares _ l (l.retried request parent isMain) := Spares.of_graph (Tidy.noted _ _) rfl rfl
    have hpackaged : Spares _ _ ((l.retried request parent isMain).packaged file) :=
      Spares.of_graph (Tidy.packaged _ _) rfl rfl
    hretried.trans (hpackaged.trans (Spares.of_graph (Tidy.noted _ _) rfl rfl))
  exact (hspares hc).consistent

/-- What a request needs compiled can be. -/
theorem ready_of_seek {request : String} {parent : Option EntryId} {isMain : Bool} (hc : l.Consistent)
    (h : l.run (Loader.seek request parent isMain) = (.ok (.needs job), l')) : l'.Ready job := by
  have hfits := fits_of_seek hc.toOrderly h
  obtain ⟨file, hfile, htarget, -, -, -, hclass⟩ := needs_of_seek hc.toOrderly h
  have hconsistent := hc.classifying request parent isMain file
  dsimp only at hclass
  rcases hclass with ⟨hclass, rfl⟩ | ⟨hclass, hid, rfl⟩
  · obtain ⟨hlt, hkey, hloaded, hgraph, hparsing, hslot⟩ := slot_of_classified hconsistent hclass
    exact { hfits with
      inRange := by rw [hgraph]; exact hlt
      key := by rw [hgraph]; exact hkey
      unloaded := by rw [hgraph]; exact hloaded
      slot := .inr ⟨hslot, hparsing⟩ }
  · obtain ⟨heq, hslot, -⟩ := slot_of_missed hclass
    rw [heq] at hid hfits ⊢
    have hentry := Graph.entry_add_self (l.classifying request parent isMain file).graph
      (newEntry (l.referrer? parent) job.target)
    rw [show ((l.classifying request parent isMain file).graph.add _).2 = job.id from hid.symm] at hentry
    exact { hfits with
      inRange := by simp [hid]
      key := by rw [hentry]; rfl
      unloaded := by rw [hentry]; rfl
      slot := .inl hslot }

/-! ## Compiling a module -/

theorem size_occupied (l : Loader) (job : Job) : (l.occupied job).graph.size = l.graph.size := by
  unfold Loader.occupied
  split <;> simp

/-- At most the name of the module is changed. -/
theorem named_occupied (l : Loader) (job : Job) (id : EntryId) : ∃ name,
    (l.occupied job).graph.entry id =
      { l.graph.entry id with module := { (l.graph.entry id).module with id := name } } := by
  unfold Loader.occupied
  split
  · show ∃ name, (l.graph.update job.id _).entry id = _
    rw [Graph.entry_update]
    split
    · exact ⟨".", rfl⟩
    · exact ⟨_, rfl⟩
  · exact ⟨_, rfl⟩

theorem entry_occupied (l : Loader) (job : Job) (id : EntryId) :
    ((l.occupied job).graph.entry id).key = (l.graph.entry id).key ∧
      ((l.occupied job).graph.entry id).isLoaded = (l.graph.entry id).isLoaded ∧
      (id ≠ job.id → (l.occupied job).graph.entry id = l.graph.entry id) := by
  unfold Loader.occupied
  split
  · refine ⟨?_, ?_, fun hne => Graph.entry_update_of_ne _ _ hne.symm⟩ <;>
      simp only [Graph.entry_update] <;> split <;> rfl
  · exact ⟨rfl, rfl, fun _ => rfl⟩

theorem Ready.consistent_occupied (hc : l.Consistent) (hr : l.Ready job) :
    (l.occupied job).Consistent := by
  refine { hr.orderly_occupied hc.toOrderly with keyed := ?_, unfinished := ?_ }
  · intro key p s id hslot hid
    rw [hr.slot?_occupied] at hslot
    rw [size_occupied, (entry_occupied l job id).1]
    split at hslot
    · next hk =>
      cases hslot
      cases hid
      exact ⟨hr.inRange, hr.key.trans hk⟩
    · exact hc.keyed hslot hid
  · intro key p id hprog
    rw [InProgress, hr.slot?_occupied] at hprog
    rw [(entry_occupied l job id).2.1]
    split at hprog
    · cases hprog
      exact hr.unloaded
    · exact hc.unfinished hprog

/-- The first part of a compilation: everything up to the marks at the end. -/
def prepare (nested : NestedLoad) (id : EntryId) (filename : Path) : LoadM Compilation := do
  let c ← beginCompile id filename
  runTask nested id filename c.task
  return c

theorem compile_eq (nested : NestedLoad) (id : EntryId) (filename : Path) :
    compile nested id filename = prepare nested id filename >>= endCompile id filename := by
  simp [compile, prepare]

/-- The compiler begins, and its task is run. -/
theorem run_prepare (l : Loader) (nested : NestedLoad) (id : EntryId) (filename : Path) :
    l.run (prepare nested id filename) =
      andThen ((l.begun id filename).run (runTask nested id filename (l.compilation id filename).task))
        fun _ => pure (l.compilation id filename) := by
  unfold prepare
  rw [run_bind, run_beginCompile, andThen_ok, run_bind]

theorem compiled_of_prepare {nested : NestedLoad} {id : EntryId} {filename : Path} {c : Compilation}
    (h : l.run (prepare nested id filename) = (.ok c, l')) : c = l.compilation id filename ∧
      (l.begun id filename).run (runTask nested id filename c.task) = (.ok (), l') := by
  rw [run_prepare] at h
  generalize hrun : (l.begun id filename).run _ = r at h
  obtain ⟨_ | _, l₁⟩ := r
  · cases h
  · cases h
    exact ⟨rfl, hrun⟩

/-- A compilation leaves its entry where its compiler began with it, as long as nested loads do; these may rely on
what holds before every instruction. -/
theorem Compiles.stays_of_prepare {R : Loader → Loader → Prop} {P : Loader → Prop} {id : EntryId} {file : Path}
    {nested : NestedLoad} {c : Compilation} (h : Compiles id R) (hreport : ∀ event, Follows R (Loader.report event))
    (hkept : ∀ {l l'}, R l l' → P l → P l')
    (hn : ∀ request, Follows (fun l l' => P l → P l' ∧ (l.graph.entry id).Stays (l'.graph.entry id))
      (nested request id))
    (hP : P l) (hrun : l.run (prepare nested id file) = (.ok c, l')) :
    ((l.begun id file).graph.entry id).Stays (l'.graph.entry id) := by
  have hcompiles : CompilesFile id file fun l l' => P l → P l' :=
    { refl := fun _ hl => hl
      trans := fun _ _ _ hl hl' => hl' ∘ hl
      report := fun event he l => hkept (h.report event he l)
      updateEntry := fun hf l => hkept (h.updateEntry hf l)
      source := fun l => hkept (h.source file l)
      program := fun l => hkept (h.program file l) }
  have hbegun := hcompiles.beginCompile l hP
  rw [run_beginCompile] at hbegun
  obtain ⟨-, htask⟩ := compiled_of_prepare hrun
  have := hcompiles.stays.toIsPreorder
  have hran := ends_self.mp (hcompiles.stays.runTask .self (fun request => ends_self.mpr (hn request))
    (Task.within_of_all (fun event l hl => ⟨hkept (hreport event l) hl, .refl _⟩) (fun _ => trivial)
      (fun _ => trivial) c.task)) (l.begun id file) hbegun
  rw [htask] at hran
  exact hran.2

/-- A module that was evaluated is loaded, and in a parse-only pass nothing is. -/
theorem isLoaded_marked (l : Loader) {id : EntryId} (filename : Path) {c : Compilation}
    (hid : id < l.graph.size) (hc : c.parsing = false) :
    ((l.marked id filename c).graph.entry id).isLoaded = true := by
  unfold marked
  simp only [hc, Bool.false_eq_true, if_false]
  rw [Graph.entry_update_self]
  · rfl
  · split
    · simpa using hid
    · exact hid

theorem evolves_marked (l : Loader) (id : EntryId) (filename : Path) (c : Compilation) :
    l.Evolves (l.marked id filename c) := by
  have := (Evolves.respects.compiles id).endCompile
    (Evolves.respects.updateEntry id fun e => ⟨rfl, rfl, fun _ => rfl⟩) filename c l
  rwa [run_endCompile] at this

theorem evolves_concluded (h : l.InProgress job.target.key job.partition job.id) :
    l.Evolves (l.concluded job) := by
  have := Evolves.respects.conclude job l
  rwa [run_conclude h] at this

theorem entry_marked (l : Loader) {id : EntryId} (filename : Path) (c : Compilation) {id' : EntryId}
    (h : id' ≠ id) : (l.marked id filename c).graph.entry id' = l.graph.entry id' := by
  unfold marked
  dsimp only
  rw [Graph.entry_update_of_ne _ _ h.symm]
  split
  · rw [Graph.entry_update_of_ne _ _ h.symm]
  · rfl

/-- Taking its place does not touch the module. -/
theorem entry_concluded (l : Loader) (job : Job) (id : EntryId) :
    (l.graph.entry id).Spared ((l.concluded job).graph.entry id) := by
  have hlinked : ∀ l₁ : Loader, (l₁.graph.entry id).Spared
      ((l₁.linked job.referrer job.request job.id).graph.entry id) := by
    intro l₁
    cases job.referrer with
    | none => exact .refl _
    | some r =>
      exact .update l₁.graph r.id (f := fun e => e.addChild job.request job.id)
        (fun e => ⟨rfl, rfl, rfl, rfl, rfl⟩) id
  have hconcealed : ∀ (l₁ : Loader) format, (l₁.graph.entry id).Spared
      ((l₁.concealed job format).graph.entry id) := by
    intro l₁ format
    have hsevered : (l₁.graph.entry id).Spared
        ((l₁.graph.update job.id fun e => { e with parent := none }).entry id) :=
      .update l₁.graph job.id (f := fun e => { e with parent := none }) (fun e => ⟨rfl, rfl, rfl, rfl, rfl⟩) id
    unfold concealed
    dsimp only
    split
    · exact .refl _
    · split <;> split <;> first | exact hsevered | exact .refl _
  exact (hlinked ((l.settled job).noted [.enters job.target.key .linking])).trans (hconcealed _ _)

theorem builtins_concluded (l : Loader) (job : Job) :
    (l.concluded job).cache.builtins = l.cache.builtins := by
  have hsettled : (l.settled job).cache.builtins = l.cache.builtins := by
    unfold settled
    dsimp only
    rw [Cache.builtins_set]
    split <;> simp
  rw [← hsettled]
  unfold concluded concealed
  dsimp only
  rw [cache_linked]
  split
  · rw [cache_linked]
    rfl
  · split <;> split <;> simp only [cache_linked] <;> rfl

/-- The marks of a compilation leave the exports of all modules alone. -/
theorem exports_marked (l : Loader) (id : EntryId) (filename : Path) (c : Compilation) (id' : EntryId) :
    ((l.marked id filename c).graph.entry id').module.exports = (l.graph.entry id').module.exports := by
  have hupdate : ∀ (g : Graph) {f : Entry → Entry}, (∀ e : Entry, (f e).module.exports = e.module.exports) →
      ((g.update id f).entry id').module.exports = (g.entry id').module.exports := fun g f hf => by
    rw [Graph.entry_update]
    split
    · exact hf _
    · rfl
  unfold marked
  dsimp only
  rw [hupdate _ fun e => by split <;> rfl]
  split
  · exact hupdate _ fun e => rfl
  · rfl

namespace Spares

theorem prepare {nested : NestedLoad}
    (hn : ∀ request id, Follows (Spares fun _ => False) (nested request id)) (id : EntryId)
    (filename : Path) : Follows (Spares (· = id)) (Loader.prepare nested id filename) := by
  have hcompiles : Compiles id (Spares (· = id)) := compiles rfl
  refine (hcompiles.beginCompile filename).bind fun c => ?_
  refine Follows.bind (ends_self.mp (hcompiles.runTask .self (fun request => ends_self.mpr ?_) filename
    (Task.within_of_all report (fun _ => trivial) (fun _ => trivial) c.task))) fun _ => .pure _
  exact fun l => (hn request id l).mono fun _ h => h.elim

/-- A compilation is a preparation in a slot that is marked, and leaves the slot to the module or to the
error. -/
theorem run_perform {nested : NestedLoad}
    (hn : ∀ request id, Follows (Spares fun _ => False) (nested request id)) (hc : l.Consistent)
    (hr : l.Ready job) :
    l.run (Loader.perform nested job) =
      match (l.occupied job).run (Loader.prepare nested job.id job.target.filename) with
      | (.error e, l₂) => (.error e, l₂.vacated job e)
      | (.ok c, l₂) => (.ok job.id, (l₂.marked job.id job.target.filename c).concluded job) := by
  have h₂ := prepare hn job.id job.target.filename (l.occupied job) (hr.consistent_occupied hc)
  unfold Loader.perform
  rw [run_bind, run_occupy, andThen_ok, run_bind, run_onError, compile_eq, run_bind]
  generalize (l.occupied job).run (Loader.prepare nested job.id job.target.filename) = r at h₂ ⊢
  obtain ⟨e | c, l₂⟩ := r
  all_goals have hin : l₂.InProgress job.target.key job.partition job.id :=
    (h₂.progress _ _ _).mpr ((hr.slot?_occupied _).trans (if_pos rfl))
  · dsimp only [andThen_error]
    rw [run_vacate hin]
    rfl
  · dsimp only [andThen_ok]
    rw [run_endCompile]
    dsimp only [andThen_ok]
    rw [run_bind, run_conclude (l := l₂.marked job.id job.target.filename c) hin]
    rfl

/-- What a module in progress leaves behind, wherever its compilation ends. -/
theorem of_bracket {l₂ l₃ : Loader} {slot : Option (Partition × Slot)} (hc : l.Consistent)
    (hr : l.Ready job) (htidy : Tidy l l₃) (h₂ : Spared (· = job.id) (l.occupied job) l₂)
    (hdev : l₂.graph.Develops l₃.graph)
    (hslot₃ : ∀ key, l₃.cache.slot? key = if job.target.key = key then slot else l₂.cache.slot? key)
    (hslot : ∀ p s id, slot = some (p, s) → s.entry? = some id → id = job.id)
    (hentry₃ : ∀ id, id ≠ job.id → (l₂.graph.entry id).Spared (l₃.graph.entry id)) :
    Spared (fun _ => False) l l₃ := by
  obtain ⟨ho, hprog⟩ := htidy hc.toOrderly
  have hsize := size_occupied l job
  have hsize₂ : l.graph.size ≤ l₃.graph.size := hsize ▸ Nat.le_trans h₂.size hdev.size
  -- an entry that was held is none of the compiler's, so that it is spared all the way
  have hspared : ∀ {id}, l.Holds id → (l.graph.entry id).Spared (l₃.graph.entry id) := by
    intro id hh
    have hne := hr.ne_of_holds hc hh
    have hocc := (entry_occupied l job id).2.2 hne
    have hholds : (l.occupied job).Holds id := by
      refine ⟨hsize ▸ hh.inRange, hh.held.imp (fun hl => by rw [hocc]; exact hl) ?_⟩
      rintro ⟨key, p, hp⟩
      refine ⟨key, p, ?_⟩
      rw [InProgress, hr.slot?_occupied]
      split
      · next heq => exact absurd (heq ▸ hp) (hr.idle p id)
      · exact hp
    have hs₂ := h₂.entry hholds hne
    rw [hocc] at hs₂
    exact hs₂.trans (hentry₃ id hne)
  have hown : job.id < l₂.graph.size ∧ (l₂.graph.entry job.id).key = job.target.key := by
    have hin : l₂.InProgress job.target.key job.partition job.id :=
      (h₂.progress _ _ _).mpr ((hr.slot?_occupied _).trans (if_pos rfl))
    exact h₂.consistent.keyed hin rfl
  refine ⟨{ ho with keyed := ?_, unfinished := ?_ }, hprog, hsize₂, fun hh _ => hspared hh⟩
  · intro key p s id hs hid
    rw [hslot₃] at hs
    split at hs
    · next hk =>
      obtain rfl := hslot p s id hs hid
      exact ⟨Nat.lt_of_lt_of_le hown.1 hdev.size, (hdev.entry hown.1).key.trans (hown.2.trans hk)⟩
    · obtain ⟨hlt, hkey⟩ := h₂.consistent.keyed hs hid
      exact ⟨Nat.lt_of_lt_of_le hlt hdev.size, (hdev.entry hlt).key.trans hkey⟩
  · intro key p id hp
    have hp' := (hprog _ _ _).mp hp
    have hh : l.Holds id := ⟨(hc.keyed hp' rfl).1, .inr ⟨key, p, hp'⟩⟩
    exact (hspared hh).isLoaded.trans (hc.unfinished hp')

theorem perform {nested : NestedLoad} (hnt : ∀ request id, Follows Tidy (nested request id))
    (hn : ∀ request id, Follows (Spares fun _ => False) (nested request id)) (hc : l.Consistent)
    (hr : l.Ready job) : Spared (fun _ => False) l (l.run (Loader.perform nested job)).2 := by
  have htidy := Tidy.perform hnt hr.toFits
  have h₂ := prepare hn job.id job.target.filename (l.occupied job) (hr.consistent_occupied hc)
  unfold Loader.perform at htidy ⊢
  rw [run_bind, run_occupy, andThen_ok, run_bind, run_onError, compile_eq, run_bind] at htidy ⊢
  generalize (l.occupied job).run (Loader.prepare nested job.id job.target.filename) = r at htidy h₂ ⊢
  obtain ⟨result, l₂⟩ := r
  have hin : l₂.InProgress job.target.key job.partition job.id :=
    (h₂.progress _ _ _).mpr ((hr.slot?_occupied _).trans (if_pos rfl))
  cases result with
  | error e =>
    dsimp only [andThen_error] at htidy ⊢
    rw [run_vacate hin] at htidy ⊢
    have hgraph := graph_vacated l₂ job e
    refine of_bracket hc hr htidy h₂ (hgraph ▸ .refl _) (slot?_vacated h₂.consistent.toOrderly hin e).2 ?_ ?_
    · intro p s id hslot hid
      split at hslot <;> cases hslot
      cases hid
    · intro id _
      change (l₂.graph.entry id).Spared ((l₂.vacated job e).graph.entry id)
      rw [hgraph]
      exact .refl _
  | ok c =>
    dsimp only [andThen_ok] at htidy ⊢
    rw [run_endCompile] at htidy ⊢
    dsimp only [andThen_ok] at htidy ⊢
    have ho : (l₂.marked job.id job.target.filename c).Orderly :=
      ⟨h₂.consistent.exclusive, h₂.consistent.unmarked.of_eq rfl rfl⟩
    have hevolves := (evolves_marked l₂ job.id job.target.filename c).trans (evolves_concluded hin)
    rw [run_bind, run_conclude (l := l₂.marked job.id job.target.filename c) hin] at htidy ⊢
    refine of_bracket hc hr htidy h₂ hevolves.graph (slot?_concluded ho hin).2 ?_ ?_
    · intro p s id hslot hid
      cases hslot
      exact (Option.some.inj hid).symm
    · intro id hne
      have hentry := entry_concluded (l₂.marked job.id job.target.filename c) job id
      rwa [entry_marked l₂ job.target.filename c hne] at hentry

theorem answer {nested : NestedLoad} (hnt : ∀ request id, Follows Tidy (nested request id))
    (hn : ∀ request id, Follows (Spares fun _ => False) (nested request id)) (request : String)
    (parent : Option EntryId) (isMain : Bool) :
    Follows (Spares fun _ => False) (Loader.answer nested request parent isMain) := fun l hc =>
  Follows.rel_answer (R := Spares fun _ => False) (seek request parent isMain l)
    (fun hr hc' => perform hnt hn hc' (ready_of_seek hc hr)) hc

/-- Nested loads spare the entries of all modules in progress. -/
theorem loadNested (limit : Nat) (request : String) (id : EntryId) :
    Follows (Spares fun _ => False) (Loader.loadNested limit request id) :=
  .loadNested (fun _ => report) (fun limit ih request id => answer (Tidy.loadNested limit) ih request (some id) false)
    limit request id

theorem load (request : String) (parent : Option EntryId) (isMain : Bool) :
    Follows (Spares fun _ => False) (Loader.load request parent isMain) :=
  Follows.get.bind fun _ =>
    .reported report (answer (Tidy.loadNested _) (loadNested _) request parent isMain) request

theorem setParsing (parsing : Bool) : Follows (Spares own) (Loader.setParsing parsing) := fun l =>
  of_slots (Tidy.setParsing parsing l) (fun _ => Cache.slot?_congr fun p => by cases p <;> rfl)
    (Nat.le_refl _) (fun _ => rfl) (fun _ => rfl) fun _ _ => .refl _

theorem discover (request : String) (parent : Option EntryId) :
    Follows (Spares fun _ => False) (Loader.discover request parent) := by
  refine Follows.get.bind fun _ => (setParsing true).bind fun _ => ?_
  exact .bind (.onError (load _ _ _) fun _ => setParsing _) fun _ => (setParsing _).bind fun _ => .pure _

end Spares

theorem Consistent.noted (h : l.Consistent) (events : List Event) : (l.noted events).Consistent :=
  have hspared : Spared (fun _ => False) l (l.noted events) := Spares.of_graph (Tidy.noted l events) rfl rfl h
  hspared.consistent

theorem Consistent.sought (h : l.Consistent) (request : String) (parent : Option EntryId) (isMain : Bool) :
    (l.run (Loader.seek request parent isMain)).2.Consistent :=
  have hspared : Spared (fun _ => False) _ _ := Spares.seek request parent isMain l h
  hspared.consistent

theorem Consistent.withParsing (h : l.Consistent) (parsing : Bool) : (l.withParsing parsing).Consistent :=
  have hspared : Spared (fun _ => False) _ _ := Spares.setParsing parsing l h
  hspared.consistent

/-! ## Between calls -/

/-- Slots are left to the loader. -/
def Regular (l : Loader) : Operation → Prop
  | .replaceCached _ _ _ => False
  | .changeFiles fs => Unmarked { l with files := fs }
  | _ => True

theorem Regular.careful {op : Operation} (h : l.Regular op) : l.Careful op := by
  cases op <;> first | exact h.elim | exact h

/-- Registering a builtin module writes to its entry, if there is one. -/
theorem retains_registerBuiltin (l : Loader) (name : String) (exports : Json.Value) :
    (l.after (.registerBuiltin name exports)).graph.size = l.graph.size ∧
      ∀ id, (l.graph.entry id).Retains ((l.after (.registerBuiltin name exports)).graph.entry id) := by
  simp only [after, registerBuiltin, run_modify]
  cases l.cache.builtins.get? name with
  | none => exact ⟨rfl, fun _ => ⟨rfl, rfl, rfl, rfl, rfl, rfl⟩⟩
  | some made =>
    refine ⟨Graph.size_update _ _ _, fun id => ?_⟩
    dsimp only
    rw [Graph.entry_update]
    split <;> exact ⟨rfl, rfl, rfl, rfl, rfl, rfl⟩

/-- Fewer slots for the same entries. -/
theorem Consistent.of_fewer (h : l.Consistent) (ho : l'.Orderly) (hg : l'.graph = l.graph)
    (hs : ∀ {key p s}, l'.cache.get? p key = some s → l.cache.get? p key = some s) : l'.Consistent := by
  have hslot : ∀ {key p s}, l'.cache.slot? key = some (p, s) → l.cache.slot? key = some (p, s) :=
    fun hk => h.exclusive.slot?_eq_some.mpr (hs (Cache.get?_of_slot? hk))
  refine { ho with keyed := fun hk hid => ?_, unfinished := fun hp => ?_ }
  · rw [hg]
    exact h.keyed (hslot hk) hid
  · rw [hg]
    exact h.unfinished (hslot hp)

theorem get?_of_invalidate {c : Cache} {key k : String} {p : Partition} {s : Slot}
    (h : (c.invalidate key).get? p k = some s) : c.get? p k = some s := by
  have hdelete : ∀ (q) {c : Cache}, (c.delete q key).get? p k = some s → c.get? p k = some s := by
    intro q c h
    rw [Cache.get?_delete] at h
    split at h
    · cases h
    · exact h
  exact hdelete .legacy (hdelete .declarative (hdelete .discovery h))

theorem Consistent.after {op : Operation} (h : l.Consistent) (hop : l.Regular op) :
    (l.after op).Consistent := by
  have ho := h.toOrderly.after hop.careful
  cases op with
  | load request parent isMain => exact (Spares.load request parent isMain l h).consistent
  | discover request parent => exact (Spares.discover request parent l h).consistent
  | resolve request parent =>
    have hafter : l.after (.resolve request parent) = l.retried request parent false := by
      rw [Loader.after, run_resolve]
    rw [hafter] at ho ⊢
    exact h.of_fewer ho rfl fun hs => hs
  | invalidate key => exact h.of_fewer ho rfl get?_of_invalidate
  | clearCache => exact h.of_fewer ho rfl fun {key p s} hs => by cases p <;> cases hs
  | registerBuiltin name exports =>
    obtain ⟨hsize, hretains⟩ := l.retains_registerBuiltin name exports
    refine { ho with keyed := fun {key p s id} hs hid => ?_, unfinished := fun {key p id} hp => ?_ }
    · obtain ⟨hlt, hkey⟩ := h.keyed (show l.cache.slot? key = some (p, s) from hs) hid
      exact ⟨hsize ▸ hlt, (hretains id).key.trans hkey⟩
    · exact (hretains id).loaded.trans (h.unfinished (show l.InProgress key p id from hp))
  | registerCompiler extension c => exact { ho with keyed := h.keyed, unfinished := h.unfinished }
  | replaceCached p key id => exact hop.elim
  | changeFiles fs => exact { ho with keyed := h.keyed, unfinished := h.unfinished }

end Loader
end ModGraph
