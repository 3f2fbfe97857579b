import ModGraph.Proofs.Operations
import ModGraph.Proofs.StoredNames
import ModGraph.Proofs.World

/-!
# Partitions stay exclusive

A nested load leaves the slots of modules in progress alone, as it finds them and uses them as they are
(`Tidy`). So a module that is compiled still has its slot when its compiler is done, whatever the
modules that it asked for did, and moving the slot leaves the cache exclusive.
-/

namespace ModGraph

open Relation (ReflTransGen)

/-- The file of a key. -/
def keyFile (key : String) : Path := ⟨(splitQuery key).1⟩

theorem keyFile_cacheKey {file : Path} (h : Unmarked file.text) (request : String) :
    keyFile (cacheKey file (splitQuery request).2) = file := by
  unfold keyFile
  rw [splitQuery_cacheKey h (isQuery_splitQuery request)]

namespace Loader

variable {l l' : Loader} {request : String} {parent : Option EntryId} {isMain : Bool} {job : Job}

/-! ## Orderly loaders -/

/-- A loader whose cache is exclusive, and stays so as no file has a query mark in its name. -/
structure Orderly (l : Loader) : Prop where
  exclusive : l.cache.Exclusive
  unmarked : l.Unmarked

/-- A module is in progress under a key. -/
def InProgress (l : Loader) (key : String) (p : Partition) (id : EntryId) : Prop :=
  l.cache.slot? key = some (p, .loading id)

/-- An orderly loader stays orderly, and the same modules are in progress. -/
def Tidy (l l' : Loader) : Prop :=
  l.Orderly → l'.Orderly ∧ ∀ key p id, l'.InProgress key p id ↔ l.InProgress key p id

namespace Tidy

theorem refl (l : Loader) : Tidy l l := fun h => ⟨h, fun _ _ _ => Iff.rfl⟩

theorem trans {l l' l'' : Loader} (h : Tidy l l') (h' : Tidy l' l'') : Tidy l l'' := by
  intro ho
  obtain ⟨ho', hs⟩ := h ho
  obtain ⟨ho'', hs'⟩ := h' ho'
  exact ⟨ho'', fun key p id => (hs' key p id).trans (hs key p id)⟩

instance : IsPreorder Loader Tidy where
  refl := refl
  trans _ _ _ := trans

/-- Only slots and names matter. -/
theorem of_slots (h : ∀ p, l'.cache.slots p = l.cache.slots p) (hu : KeepsUnmarked l l') :
    Tidy l l' := by
  refine fun ho => ⟨⟨ho.exclusive.congr h, hu ho.unmarked⟩, fun key p id => ?_⟩
  rw [InProgress, InProgress, Cache.slot?_congr h]

theorem of_cache (h : l'.cache = l.cache) (hu : KeepsUnmarked l l') : Tidy l l' :=
  of_slots (fun p => by rw [h]) hu

theorem of_quiet {α : Type} {action : LoadM α} (hc : Follows Quiet action)
    (hu : Follows KeepsUnmarked action) : Follows Tidy action := fun l => of_cache (hc l).cache (hu l)

theorem report (event : Event) : Follows Tidy (Loader.report event) :=
  fun _ => of_cache rfl (KeepsUnmarked.of_eq rfl rfl)

theorem updateEntry (id : EntryId) (f : Entry → Entry) : Follows Tidy (Loader.updateEntry id f) :=
  fun _ => of_cache rfl (KeepsUnmarked.of_eq rfl rfl)

theorem compiles (id : EntryId) : Compiles id Tidy where
  toIsPreorder := inferInstance
  report event _ := report event
  updateEntry _ := updateEntry id _
  source file := of_quiet (Quiet.reading.source file) (KeepsUnmarked.reading.source file)
  program file := of_quiet (Quiet.reading.program file) (KeepsUnmarked.reading.program file)

end Tidy

/-! ## Seeking a module -/

/-- A module can be compiled: nothing speaks against its slot, and it is not in progress. -/
structure Fits (l : Loader) (job : Job) : Prop where
  admits : l.cache.Admits job.partition job.target.key
  idle : ∀ p id, ¬ l.InProgress job.target.key p id

/-- The file of a key that is made for a resolved request. -/
theorem isDeclarativeKey_iff {file : Path} (hr : l.resolved request parent isMain = .ok (.file file))
    (hu : l.files.Unmarked) :
    IsDeclarativeKey (cacheKey file (splitQuery request).2) ↔ file.extension = some "mjs" := by
  obtain ⟨q, hq⟩ := resolve_of_resolution hr
  have hfile : ModGraph.Unmarked file.text := Resolver.unmarked_of_resolve hq hu
  rw [IsDeclarativeKey, splitQuery_cacheKey hfile (isQuery_splitQuery request)]

theorem declarative_iff_extension (file : Path) :
    Format.ofPath? file = some .declarative ↔ file.extension = some "mjs" := by
  unfold Format.ofPath?
  split <;> simp_all

theorem Orderly.run_seek (h : l.Orderly) :
    l.run (seek request parent isMain) =
      let l' := l.retried request parent isMain
      match l.resolved request parent isMain with
      | .error e => (.error e, l')
      | .ok (.builtin name) =>
        (.ok (.found (l'.builtinOf name).1),
          (l'.builtinOf name).2.linked (l.referrer? parent) request (l'.builtinOf name).1)
      | .ok (.file file) =>
        (l'.packaged file).met request (l.referrer? parent) isMain (l.target request file) :=
  Loader.run_seek h.exclusive fun file hr hf =>
    (isDeclarativeKey_iff hr h.unmarked.names).mpr ((declarative_iff_extension file).mp hf)

/-- A slot that is not in progress is replaced by another. -/
theorem Tidy.of_replaced {key : String} {p : Partition} {slot : Slot} (hu : KeepsUnmarked l l')
    (hidle : ∀ q id, ¬ l.InProgress key q id) (hslot : ∀ id, slot ≠ .loading id)
    (hc : l.cache.Exclusive → l'.cache.Exclusive)
    (h : l.cache.Exclusive → ∀ k, l'.cache.slot? k = if key = k then some (p, slot) else l.cache.slot? k) :
    Tidy l l' := by
  intro ho
  refine ⟨⟨hc ho.exclusive, hu ho.unmarked⟩, fun k q id => ?_⟩
  rw [InProgress, h ho.exclusive]
  split
  · next hk =>
    subst hk
    refine ⟨fun heq => ?_, fun heq => absurd heq (hidle q id)⟩
    cases heq
    exact absurd rfl (hslot id)
  · exact Iff.rfl

theorem Tidy.classified (key : String) (fixed : Option Format) (unexposed : Bool) :
    Tidy l (l.classified key fixed unexposed).2 := by
  obtain ⟨events, -, heq⟩ | ⟨id, hslot, -, heq⟩ := l.loader_classified key fixed unexposed
  · rw [heq]
    exact of_cache rfl (KeepsUnmarked.of_eq rfl rfl)
  · have hidle : ∀ q id, ¬ l.InProgress key q id := fun q id h => by
      rw [InProgress, hslot] at h
      cases h
    rw [heq]
    exact of_replaced (KeepsUnmarked.of_eq rfl rfl) hidle (by simp)
      (fun hc => hc.commit hslot rfl) fun hc k => hc.slot?_commit hslot rfl

theorem admits_of_classified {key : String} {fixed : Option Format} (unexposed : Bool) {p : Partition}
    (hc : l.cache.Exclusive) (hkey : IsDeclarativeKey key → fixed = some .declarative)
    (h : (l.classified key fixed unexposed).1 = .ok (.miss p)
      ∨ ∃ id, (l.classified key fixed unexposed).1 = .ok (.evaluate p id)) :
    (l.classified key fixed unexposed).2.cache.Admits p key ∧
      ∀ q id, ¬ (l.classified key fixed unexposed).2.InProgress key q id := by
  -- a slot that holds a finished module is not marked
  have hidle : ∀ {m : Loader} {q' id'}, m.cache.slot? key = some (q', .ready id') →
      ∀ q id, ¬ m.InProgress key q id := fun hs q id hq => by
    rw [InProgress, hs] at hq
    cases hq
  rcases h with hmiss | ⟨id, hevaluate⟩
  · obtain ⟨heq, hslot, rfl⟩ := slot_of_missed hmiss
    rw [heq]
    refine ⟨Cache.admits_of_absent hslot fun hd => ?_, fun q id hq => ?_⟩
    · rw [hkey hd]
      rfl
    · rw [InProgress, hslot] at hq
      cases hq
  · obtain ⟨-, -, -, ⟨hslot, heq⟩ | ⟨hslot, heq⟩⟩ := parsed_of_classified hevaluate
    · rw [heq]
      exact ⟨hc.admits hslot, hidle hslot⟩
    · have hcommit := (hc.slot?_commit (k := key) (p := p) hslot rfl).trans (if_pos rfl)
      rw [heq]
      exact ⟨(hc.commit hslot rfl).admits hcommit, hidle hcommit⟩

theorem Tidy.noted (l : Loader) (events : List Event) : Tidy l (l.noted events) :=
  of_cache rfl (KeepsUnmarked.of_eq rfl rfl)

theorem Tidy.packaged (l : Loader) (file : Path) : Tidy l (l.packaged file) :=
  of_cache rfl (KeepsUnmarked.of_eq rfl rfl)

theorem Tidy.linked (l : Loader) (referrer : Option Referrer) (request : String) (child : EntryId) :
    Tidy l (l.linked referrer request child) := by
  cases referrer <;> exact of_cache rfl (KeepsUnmarked.of_eq rfl rfl)

theorem Tidy.builtinOf (l : Loader) (name : String) : Tidy l (l.builtinOf name).2 := by
  unfold Loader.builtinOf
  split
  · exact .refl l
  · exact of_slots (fun p => by cases p <;> rfl) (KeepsUnmarked.of_eq rfl rfl)

/-- The small changes on the way to a module go along a relation. A key is classified for its own file. -/
structure Seeks (R : Loader → Loader → Prop) : Prop extends IsPreorder Loader R where
  noted : ∀ l {events}, events.filterMap Event.compiledKey? = [] → R l (l.noted events)
  packaged : ∀ {l request parent isMain file}, l.resolved request parent isMain = .ok (.file file) →
    R l (l.packaged file)
  linked : ∀ l referrer request child, R l (l.linked referrer request child)
  builtinOf : ∀ l name, R l (l.builtinOf name).2
  classified : ∀ l key,
    R l (l.classified key (Format.ofPath? (keyFile key)) (l.packageOf (keyFile key)).isUnexposed).2
  added : ∀ l e, R l { l with graph := (l.graph.add e).1 }

namespace Seeks

variable {R : Loader → Loader → Prop}

theorem met (h : Seeks R) (l : Loader) (request : String) (referrer : Option Referrer) (isMain : Bool)
    {target : Target} (hfixed : target.fixed = Format.ofPath? (keyFile target.key))
    (hpackage : target.package = l.packageOf (keyFile target.key)) :
    R l (l.met request referrer isMain target).2 := by
  have hnote : R l (l.noted [.enters target.key .classifying]) := h.noted l rfl
  have hclass := h.classified (l.noted [.enters target.key .classifying]) target.key
  have hpackage' : (l.noted [.enters target.key .classifying]).packageOf (keyFile target.key) = target.package :=
    hpackage.symm
  rw [← hfixed, hpackage'] at hclass
  unfold Loader.met
  generalize (l.noted [.enters target.key .classifying]).classified target.key target.fixed
    target.package.isUnexposed = r at hclass ⊢
  have := h.toIsPreorder
  obtain ⟨e | c, l'⟩ := r
  · exact IsTrans.trans _ _ _ hnote hclass
  · refine IsTrans.trans _ _ _ (IsTrans.trans _ _ _ hnote hclass) ?_
    cases c with
    | hit id => exact IsTrans.trans _ _ _ (h.noted l' rfl) (h.linked _ _ _ _)
    | evaluate p id => exact refl l'
    | miss p => exact h.added l' _

theorem retried (h : Seeks R) (l : Loader) (request : String) (parent : Option EntryId) (isMain : Bool) :
    R l (l.retried request parent isMain) := by
  refine h.noted l ?_
  unfold retries
  split
  · rfl
  · split <;> rfl

/-- What each step on the way does the whole way does. -/
theorem seek (h : Seeks R) (ho : l.Orderly) (request : String) (parent : Option EntryId)
    (isMain : Bool) : R l (l.run (Loader.seek request parent isMain)).2 := by
  have hretried := h.retried l request parent isMain
  have := h.toIsPreorder
  rw [ho.run_seek]
  dsimp only
  split
  · exact hretried
  · exact IsTrans.trans _ _ _ hretried (IsTrans.trans _ _ _ (h.builtinOf _ _) (h.linked _ _ _ _))
  · next file hfile =>
    -- the package of the file is remembered when its key is classified
    have hkey : keyFile (l.target request file).key = file := by
      obtain ⟨q, hq⟩ := resolve_of_resolution hfile
      exact keyFile_cacheKey (Resolver.unmarked_of_resolve hq ho.unmarked.names) request
    have hfile' : (l.retried request parent isMain).resolved request parent isMain = .ok (.file file) := hfile
    have hfixed : (l.target request file).fixed = Format.ofPath? (keyFile (l.target request file).key) := by
      rw [hkey]
      rfl
    have hpackage : (l.target request file).package = ((l.retried request parent isMain).packaged file).packageOf
        (keyFile (l.target request file).key) := by
      rw [hkey, packageOf_packaged]
      rfl
    have hpackaged := h.packaged hfile'
    have hmet := h.met _ request (l.referrer? parent) isMain hfixed hpackage
    exact IsTrans.trans _ _ _ hretried (IsTrans.trans _ _ _ hpackaged hmet)

end Seeks

theorem Tidy.seeks : Seeks Tidy where
  toIsPreorder := inferInstance
  noted l _ _ := noted l _
  packaged _ := packaged _ _
  linked := linked
  builtinOf := builtinOf
  classified _ key := classified key _ _
  added _ _ := of_cache rfl (KeepsUnmarked.of_eq rfl rfl)

theorem Tidy.seek (request : String) (parent : Option EntryId) (isMain : Bool) :
    Follows Tidy (Loader.seek request parent isMain) :=
  fun _ ho => seeks.seek ho request parent isMain ho

/-- The loader in which the module of a file is classified. -/
def classifying (l : Loader) (request : String) (parent : Option EntryId) (isMain : Bool) (file : Path) :
    Loader :=
  ((l.retried request parent isMain).packaged file).noted
    [.enters (l.target request file).key .classifying]

/-- Where a request needs a module compiled, it leads to a file, and the module has no slot yet or was
parsed only. -/
theorem needs_of_seek (ho : l.Orderly)
    (h : l.run (Loader.seek request parent isMain) = (.ok (.needs job), l')) :
    ∃ file, l.resolved request parent isMain = .ok (.file file) ∧
      job.target = l.target request file ∧ job.request = request ∧
      job.referrer = l.referrer? parent ∧ job.isMain = isMain ∧
      let c := (l.classifying request parent isMain file).classified job.target.key job.target.fixed
        job.target.package.isUnexposed
      (c.1 = .ok (.evaluate job.partition job.id) ∧ l' = c.2) ∨
        (c.1 = .ok (.miss job.partition) ∧ job.id = c.2.graph.size ∧
          l' = { c.2 with graph := (c.2.graph.add (newEntry (l.referrer? parent) job.target)).1 }) := by
  rw [ho.run_seek] at h
  dsimp only at h
  split at h
  · cases h
  · cases h
  · next file hfile =>
    refine ⟨file, hfile, ?_⟩
    unfold Loader.met at h
    generalize hr : Loader.classified _ (l.target request file).key (l.target request file).fixed
      (l.target request file).package.isUnexposed = r at h
    have hr' : (l.classifying request parent isMain file).classified (l.target request file).key
      (l.target request file).fixed (l.target request file).package.isUnexposed = r := hr
    obtain ⟨e | c, l₁⟩ := r
    · cases h
    · cases c with
      | hit id => cases h
      | evaluate p id =>
        cases h
        exact ⟨rfl, rfl, rfl, rfl, by rw [hr']; exact .inl ⟨rfl, rfl⟩⟩
      | miss p =>
        cases h
        exact ⟨rfl, rfl, rfl, rfl, by rw [hr']; exact .inr ⟨rfl, rfl, rfl⟩⟩

/-- Where a request needs nothing compiled, it leads to a builtin module, or to a file whose module has a slot that is
used as it is. What is found is linked. -/
theorem found_of_seek (ho : l.Orderly) {id : EntryId}
    (h : l.run (Loader.seek request parent isMain) = (.ok (.found id), l')) :
    (∃ name, l.resolved request parent isMain = .ok (.builtin name) ∧
      let answer := (l.retried request parent isMain).builtinOf name
      answer.1 = id ∧ l' = answer.2.linked (l.referrer? parent) request id) ∨
    ∃ file l₁, l.resolved request parent isMain = .ok (.file file) ∧
      let target := l.target request file
      (l.classifying request parent isMain file).classified target.key target.fixed target.package.isUnexposed
        = (.ok (.hit id), l₁) ∧
      l' = (l₁.noted [.enters target.key .cacheHit]).linked (l.referrer? parent) request id := by
  rw [ho.run_seek] at h
  dsimp only at h
  split at h
  · cases h
  · next name hname =>
    cases h
    exact .inl ⟨name, hname, rfl, rfl⟩
  · next file hfile =>
    refine .inr ⟨file, ?_⟩
    unfold Loader.met at h
    generalize hr : Loader.classified _ (l.target request file).key (l.target request file).fixed
      (l.target request file).package.isUnexposed = r at h
    obtain ⟨e | c, l₁⟩ := r
    · cases h
    · cases c with
      | evaluate p id' => cases h
      | miss p => cases h
      | hit id' =>
        cases h
        exact ⟨l₁, hfile, hr, rfl⟩

/-- What is to be compiled after a request was looked for can be. -/
theorem fits_of_seek (ho : l.Orderly)
    (h : l.run (Loader.seek request parent isMain) = (.ok (.needs job), l')) : l'.Fits job := by
  obtain ⟨file, hfile, htarget, -, -, -, hc⟩ := needs_of_seek ho h
  have hkey : IsDeclarativeKey job.target.key → job.target.fixed = some .declarative := by
    rw [htarget]
    intro hd
    exact (declarative_iff_extension file).mpr ((isDeclarativeKey_iff hfile ho.unmarked.names).mp hd)
  have hadmits := fun p => admits_of_classified job.target.package.isUnexposed (p := p)
    (l := l.classifying request parent isMain file) ho.exclusive hkey
  dsimp only at hc
  rcases hc with ⟨hc, rfl⟩ | ⟨hc, -, rfl⟩
  · obtain ⟨ha, hi⟩ := hadmits _ (.inr ⟨_, hc⟩)
    exact ⟨ha, hi⟩
  · obtain ⟨ha, hi⟩ := hadmits _ (.inl hc)
    exact ⟨ha, hi⟩

/-! ## Compiling a module -/

namespace Fits

theorem exclusive_occupied (ho : l.Orderly) (hf : l.Fits job) : (l.occupied job).cache.Exclusive := by
  have hset := ho.exclusive.set (s := .loading job.id) hf.admits
  unfold Loader.occupied
  split
  · exact hset.congr fun p => by cases p <;> rfl
  · exact hset

theorem slot?_occupied (hf : l.Fits job) (key : String) :
    (l.occupied job).cache.slot? key =
      if job.target.key = key then some (job.partition, .loading job.id) else l.cache.slot? key := by
  rw [← Cache.slot?_set (s := .loading job.id) hf.admits]
  unfold Loader.occupied
  split
  · exact Cache.slot?_congr fun p => by cases p <;> rfl
  · rfl

theorem orderly_occupied (ho : l.Orderly) (hf : l.Fits job) : (l.occupied job).Orderly := by
  refine ⟨exclusive_occupied ho hf, KeepsUnmarked.of_eq ?_ ?_ ho.unmarked⟩ <;>
    unfold Loader.occupied <;> split <;> rfl

end Fits

/-- The slot of a module in progress is given up, and its cache is exclusive again. -/
theorem slot?_vacated (ho : l.Orderly) (h : l.InProgress job.target.key job.partition job.id)
    (e : LoadError) :
    (l.vacated job e).cache.Exclusive ∧ ∀ key, (l.vacated job e).cache.slot? key =
      if job.target.key = key then
        if job.partition.isCommitted then some (job.partition, .poisoned e) else none
      else l.cache.slot? key := by
  have ha := ho.exclusive.admits h
  unfold Loader.vacated
  split
  · exact ⟨ho.exclusive.set ha, fun key => Cache.slot?_set ha⟩
  · next hp =>
    have hd : job.partition = .discovery := by
      cases hq : job.partition <;> simp_all [Partition.isCommitted]
    rw [hd] at h
    exact ⟨ho.exclusive.delete .discovery job.target.key, fun key => ho.exclusive.slot?_delete h⟩

theorem slot?_settled (ho : l.Orderly) (h : l.InProgress job.target.key job.partition job.id) :
    (l.settled job).cache.Exclusive ∧ ∀ key, (l.settled job).cache.slot? key =
      if job.target.key = key then some (l.finalPartition job, .ready job.id)
      else l.cache.slot? key := by
  unfold Loader.settled
  dsimp only
  split
  · next hm =>
    have hd : job.partition = .discovery := by simp_all
    rw [InProgress, hd] at h
    have hcommit := fun k => ho.exclusive.slot?_commit (p := l.finalPartition job) (k := k) h rfl
    have ha := (ho.exclusive.commit (p := l.finalPartition job) h rfl).admits
      ((hcommit job.target.key).trans (if_pos rfl))
    refine ⟨(ho.exclusive.commit h rfl).set ha, fun key => ?_⟩
    rw [Cache.slot?_set ha, hcommit]
    split <;> rfl
  · next hm =>
    have hfinal : l.finalPartition job = job.partition := by
      unfold finalPartition
      simp [hm]
    rw [hfinal]
    have ha := ho.exclusive.admits h
    exact ⟨ho.exclusive.set ha, fun key => Cache.slot?_set ha⟩

theorem slots_concluded (l : Loader) (job : Job) (p : Partition) :
    (l.concluded job).cache.slots p = (l.settled job).cache.slots p := by
  unfold Loader.concluded concealed
  dsimp only
  rw [cache_linked]
  split
  · rw [cache_linked]
    rfl
  · split <;> split <;> cases p <;> simp only [Cache.slots, cache_linked] <;> rfl

theorem slot?_concluded (ho : l.Orderly) (h : l.InProgress job.target.key job.partition job.id) :
    (l.concluded job).cache.Exclusive ∧ ∀ key, (l.concluded job).cache.slot? key =
      if job.target.key = key then some (l.finalPartition job, .ready job.id)
      else l.cache.slot? key := by
  obtain ⟨hc, hs⟩ := slot?_settled ho h
  refine ⟨hc.congr (slots_concluded l job), fun key => ?_⟩
  rw [Cache.slot?_congr (slots_concluded l job), hs]

/-- Between the marking of a slot and its release everything stays tidy, and so it does around them. -/
theorem inProgress_of_bracket {l₂ l₃ : Loader} {slot : Option (Partition × Slot)} (hf : l.Fits job)
    (h₂ : ∀ key p id, l₂.InProgress key p id ↔ (l.occupied job).InProgress key p id)
    (h₃ : ∀ key, l₃.cache.slot? key = if job.target.key = key then slot else l₂.cache.slot? key)
    (hslot : ∀ p id, slot ≠ some (p, .loading id)) (key : String) (p : Partition) (id : EntryId) :
    l₃.InProgress key p id ↔ l.InProgress key p id := by
  rw [InProgress, h₃]
  split
  · next hk =>
    subst hk
    exact ⟨fun h => absurd h (hslot p id), fun h => absurd h (hf.idle p id)⟩
  · next hk =>
    refine (h₂ key p id).trans ?_
    rw [InProgress, hf.slot?_occupied, if_neg hk]
    exact Iff.rfl

namespace Tidy

theorem perform {nested : NestedLoad} (hn : ∀ request id, Follows Tidy (nested request id))
    (hf : l.Fits job) : Tidy l (l.run (Loader.perform nested job)).2 := by
  intro ho
  have hcompile := (compiles job.id).compile report (updateEntry job.id _)
    (fun request => hn request job.id) job.target.filename (l.occupied job) (hf.orderly_occupied ho)
  unfold Loader.perform
  rw [run_bind, run_occupy, andThen_ok, run_bind, run_onError]
  generalize (l.occupied job).run (compile nested job.id job.target.filename) = r at hcompile ⊢
  obtain ⟨result, l₂⟩ := r
  obtain ⟨ho₂, h₂⟩ := hcompile
  have hin : l₂.InProgress job.target.key job.partition job.id := by
    refine (h₂ _ _ _).mpr ?_
    rw [InProgress, hf.slot?_occupied, if_pos rfl]
  cases result with
  | error e =>
    obtain ⟨hc, h₃⟩ := slot?_vacated ho₂ hin e
    have hu := KeepsUnmarked.respects.vacate job e l₂ ho₂.unmarked
    rw [run_vacate hin] at hu
    dsimp only
    rw [run_vacate hin]
    refine ⟨⟨hc, hu⟩, inProgress_of_bracket hf h₂ h₃ fun p id => ?_⟩
    split <;> simp
  | ok _ =>
    obtain ⟨hc, h₃⟩ := slot?_concluded ho₂ hin
    have hu := KeepsUnmarked.respects.conclude job l₂ ho₂.unmarked
    rw [run_conclude hin] at hu
    dsimp only
    rw [andThen_ok, run_bind, run_conclude hin]
    exact ⟨⟨hc, hu⟩, inProgress_of_bracket hf h₂ h₃ (by simp)⟩

theorem answer {nested : NestedLoad} (hn : ∀ request id, Follows Tidy (nested request id))
    (request : String) (parent : Option EntryId) (isMain : Bool) :
    Follows Tidy (Loader.answer nested request parent isMain) := fun l ho =>
  Follows.rel_answer (seek request parent isMain l) (fun hr => perform hn (fits_of_seek ho hr)) ho

/-- Nested loads are tidy, however deep they go. -/
theorem loadNested (limit : Nat) (request : String) (id : EntryId) :
    Follows Tidy (Loader.loadNested limit request id) :=
  .loadNested (fun _ => report) (fun _ ih request id => answer ih request (some id) false) limit request id

theorem load (request : String) (parent : Option EntryId) (isMain : Bool) :
    Follows Tidy (Loader.load request parent isMain) :=
  Follows.get.bind fun _ => .reported report (answer (loadNested _) request parent isMain) request

theorem setParsing (parsing : Bool) : Follows Tidy (Loader.setParsing parsing) :=
  fun _ => of_slots (fun p => by cases p <;> rfl) (KeepsUnmarked.of_eq rfl rfl)

theorem discover (request : String) (parent : Option EntryId) :
    Follows Tidy (Loader.discover request parent) := by
  refine Follows.get.bind fun _ => (setParsing true).bind fun _ => ?_
  exact .bind (.onError (load _ _ _) fun _ => setParsing _) fun _ => (setParsing _).bind fun _ => .pure _

theorem resolve (request : String) (parent : Option EntryId) :
    Follows Tidy (Loader.resolve request parent) := by
  intro l
  rw [run_resolve]
  exact noted _ _

end Tidy

/-! ## Between calls -/

/-- Slots are replaced only where there is one, and no file gets a query mark in its name. -/
def Careful (l : Loader) : Operation → Prop
  | .replaceCached p key _ => l.cache.has p key = true
  | .changeFiles fs => Unmarked { l with files := fs }
  | _ => True

theorem exclusive_invalidate {c : Cache} (h : c.Exclusive) (key : String) :
    (c.invalidate key).Exclusive :=
  ((h.delete .legacy key).delete .declarative key).delete .discovery key

theorem Orderly.after {op : Operation} (h : l.Orderly) (hop : l.Careful op) : (l.after op).Orderly := by
  cases op with
  | load request parent isMain => exact (Tidy.load request parent isMain l h).1
  | discover request parent => exact (Tidy.discover request parent l h).1
  | resolve request parent => exact (Tidy.resolve request parent l h).1
  | invalidate key =>
    exact ⟨exclusive_invalidate h.exclusive key, h.unmarked.of_eq rfl rfl⟩
  | clearCache =>
    exact ⟨Cache.Exclusive.empty.congr fun p => by cases p <;> rfl, h.unmarked.of_eq rfl rfl⟩
  | registerBuiltin name exports => exact ⟨h.exclusive, h.unmarked.of_eq rfl rfl⟩
  | registerCompiler extension c => exact ⟨h.exclusive, h.unmarked.of_eq rfl rfl⟩
  | replaceCached p key id =>
    refine ⟨h.exclusive.set ⟨fun hq => h.exclusive.single hq hop, fun hd => ?_⟩,
      h.unmarked.of_eq rfl rfl⟩
    exact h.exclusive.declarative hd hop
  | changeFiles fs => exact ⟨h.exclusive, hop⟩

/-- A loader at the start, on a file system without query marks in names. -/
structure Starts (l : Loader) : Prop where
  fresh : l.Fresh
  unmarked : l.Unmarked

theorem Starts.orderly (h : l.Starts) : l.Orderly :=
  ⟨h.fresh.cache ▸ Cache.Exclusive.empty, h.unmarked⟩

/-! ## Inside of a call -/

end Loader

namespace Moment

open Loader

/-- At a moment the loader is orderly, and the modules on the stack are in progress. -/
structure Sound (m : Moment) : Prop where
  orderly : m.loader.Orderly
  stack : ∀ job ∈ m.stack, m.loader.InProgress job.target.key job.partition job.id

theorem Sound.asks {m m' : Moment} (h : m.Sound) (ha : m.Asks m') : m'.Sound := by
  cases ha with
  | @intro limit job c request next l₁ l₂ l₃ l₄ hlimit hseek hoccupy hbegin htask =>
    have htidy : Tidy m.loader l₁ := by
      have hfollows := (Tidy.report (.enters m.request .resolving)).bind
        fun _ => Tidy.seek m.request m.parent m.isMain
      have := hfollows m.loader
      rwa [hseek] at this
    have hreport : Tidy m.loader (m.loader.noted [.enters m.request .resolving]) := Tidy.noted _ _
    rw [run_bind, run_report, andThen_ok] at hseek
    have hfits : l₁.Fits job := fits_of_seek (hreport h.orderly).1 hseek
    obtain ⟨ho₁, h₁⟩ := htidy h.orderly
    rw [run_occupy] at hoccupy
    cases hoccupy
    have hbegun : Tidy (l₁.occupied job) l₃ := by
      have := (Tidy.compiles job.id).beginCompile job.target.filename (l₁.occupied job)
      rwa [hbegin] at this
    have hran : Tidy l₃ l₄ := rel_of_taskSteps (Tidy.compiles job.id) Tidy.report
      (fun request => Tidy.loadNested m.limit request job.id) htask
    obtain ⟨ho₄, h₄⟩ := (hbegun.trans hran) (hfits.orderly_occupied ho₁)
    refine ⟨ho₄, fun other hmem => (h₄ _ _ _).mpr ?_⟩
    rw [InProgress, hfits.slot?_occupied]
    rcases List.mem_cons.mp hmem with rfl | hmem
    · exact if_pos rfl
    · have hother := (h₁ _ _ _).mpr (h.stack other hmem)
      rw [if_neg fun heq => ?_]
      · exact hother
      · rw [← heq] at hother
        exact hfits.idle _ _ hother

theorem Sound.of_asks {m m' : Moment} (h : m.Sound) (ha : ReflTransGen Asks m m') : m'.Sound := by
  induction ha with
  | refl => exact h
  | tail _ hstep ih => exact ih.asks hstep

end Moment

namespace Loader

variable {l : Loader}

theorem Orderly.sound_of_comesTo {op : Operation} {m : Moment} (h : l.Orderly) (hm : l.ComesTo op m) :
    m.Sound := by
  obtain ⟨first, hfirst, hasks⟩ := hm
  refine Moment.Sound.of_asks ?_ hasks
  unfold beginning? at hfirst
  split at hfirst
  · obtain rfl := Option.some.inj hfirst
    exact ⟨h, fun job hj => absurd hj List.not_mem_nil⟩
  · obtain rfl := Option.some.inj hfirst
    exact ⟨(Tidy.setParsing true l h).1, fun job hj => absurd hj List.not_mem_nil⟩
  · cases hfirst

/-- A loader as it is between calls, or as a nested load finds it. -/
inductive Occurs (start : Loader → Prop) (allowed : Loader → Operation → Prop) : Loader → Prop where
  | between {l : Loader} (h : Reachable start allowed l) : Occurs start allowed l
  | inside {l : Loader} {op : Operation} {m : Moment} (h : Reachable start allowed l)
      (hop : allowed l op) (hm : l.ComesTo op m) : Occurs start allowed m.loader

/-- In every state of a loader each key has a slot in at most one partition, and a key whose file is
declarative by its extension only in the declarative one. -/
theorem exclusive_of_occurs (h : Occurs Starts Careful l) : l.cache.Exclusive := by
  have horderly : ∀ {l}, Reachable Starts Careful l → l.Orderly := fun h =>
    h.invariant (fun _ => Starts.orderly) fun _ _ ho hop => ho.after hop
  cases h with
  | between h => exact (horderly h).exclusive
  | inside h _ hm => exact ((horderly h).sound_of_comesTo hm).orderly.exclusive

theorem unmarked_circular : circular.Unmarked where
  names := by decide
  stored hc := by cases hc

theorem exclusive_circular : (circular.after (.load "./a.js" none true)).cache.Exclusive :=
  exclusive_of_occurs (.between (.after (.start ⟨fresh_ofConfig _ _, unmarked_circular⟩) trivial))

end Loader
end ModGraph
