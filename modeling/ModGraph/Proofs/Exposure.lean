import ModGraph.Proofs.Partitions
import ModGraph.Proofs.Veils

/-!
# Exposure does not matter for evaluation

Two loaders that differ only in what packages expose are asked for the same things. They give the same answers and
make the same modules, and the same keys are cached; only partitions, parents and the main module that legacy modules
see may differ (`Loader.agrees_of_reexposed`).

The two loaders are alike when they are the same behind the veil, and each key has the same slot, in discovery in both
of them or in neither (`Loader.Akin`). Which committed partition a slot is in makes no difference to what it means for
a request (`Loader.classified_veiled`), so loaders that are alike stay so (`Loader.Coincides.loadNested`).
-/

namespace ModGraph

open Json (Value)
open Loader (Compilation Job Finding Target)

/-- What a look-up comes to, whatever the committed partition is. -/
def CacheLookup.veiled : CacheLookup → CacheLookup
  | .hit id => .hit id
  | .evaluate p id => .evaluate p.veiled id
  | .miss p => .miss p.veiled

/-- What a request comes to, whatever packages say about exposure. -/
def Loader.Finding.veiled : Finding → Finding
  | .found id => .found id
  | .needs job => .needs job.veiled

namespace Loader

variable {l l' : Loader} {job job' : Job} {key request : String} {parent : Option EntryId} {isMain : Bool}
  {limit : Nat} {α β : Type}

/-! ## Slots behind the veil -/

/-- Loaders are the same behind the veil, and each key has the same slot, in discovery in both of them or in
neither. -/
structure Resembles (l l' : Loader) : Prop where
  veiled : l'.veiled = l.veiled
  place : ∀ key, l'.cache.place? key = l.cache.place? key

namespace Resembles

theorem parsing (h : l.Resembles l') : l'.cache.parsing = l.cache.parsing :=
  eq_of_veiled (·.cache.parsing) (fun _ => rfl) h.veiled

theorem entry (h : l.Resembles l') (id : EntryId) : (l'.graph.entry id).veiled = (l.graph.entry id).veiled := by
  rw [← Graph.entry_veiled, ← Graph.entry_veiled]
  exact congrArg (·.graph.entry id) h.veiled

theorem size (h : l.Resembles l') : l'.graph.size = l.graph.size :=
  eq_of_veiled (·.graph.size) (fun l => l.graph.size_veiled) h.veiled

theorem isLoaded (h : l.Resembles l') (id : EntryId) : (l'.graph.entry id).isLoaded = (l.graph.entry id).isLoaded :=
  show (l'.graph.entry id).veiled.isLoaded = (l.graph.entry id).veiled.isLoaded by rw [h.entry]

/-- Slots stay as they are. -/
theorem of_cache {l₁ l₁' : Loader} (h : l.Resembles l') (hv : l₁'.veiled = l₁.veiled)
    (hs : ∀ p, l₁.cache.slots p = l.cache.slots p) (hs' : ∀ p, l₁'.cache.slots p = l'.cache.slots p) :
    l₁.Resembles l₁' where
  veiled := hv
  place key := by
    have hplace := h.place key
    rwa [Cache.place?, Cache.place?, ← Cache.slot?_congr hs, ← Cache.slot?_congr hs'] at hplace

theorem noted (h : l.Resembles l') (events events' : List Event) :
    (l.noted events).Resembles (l'.noted events') :=
  h.of_cache h.veiled (fun _ => rfl) fun _ => rfl

end Resembles

/-- What becomes of a slot that a request leads to. -/
def adopted (parsing : Bool) : Partition × Slot → Partition × Slot
  | (p, .ready id) => (if parsing then p else .legacy, .ready id)
  | slot => slot

/-- What a slot means for a request. -/
def verdict (fixed : Option Format) (parsing : Bool) (g : Graph) :
    Option (Partition × Slot) → Except LoadError CacheLookup
  | none => .ok (.miss (newPartition fixed).veiled)
  | some (_, .poisoned e) => .error e
  | some (_, .loading id) => .ok (.hit id)
  | some (_, .ready id) => .ok (if parsing || (g.entry id).isLoaded then .hit id else .evaluate .legacy id)

/-- What a slot means for a request depends neither on its committed partition nor on exposure. -/
theorem classified_veiled (l : Loader) (key : String) (fixed : Option Format) (unexposed : Bool) :
    (l.classified key fixed unexposed).1.map CacheLookup.veiled =
      verdict fixed l.cache.parsing l.graph (l.cache.place? key) := by
  unfold classified Cache.place?
  cases hslot : l.cache.slot? key with
  | none => rfl
  | some found =>
    obtain ⟨p, s⟩ := found
    cases s with
    | poisoned e => rfl
    | loading id => rfl
    | ready id =>
      have hcommitted : (if p = .discovery then settledPartition unexposed (l.graph.entry id).format else p).veiled
          = .legacy := by
        split
        · exact Partition.veiled_of_ne (settledPartition_ne _ _)
        · next hp => exact Partition.veiled_of_ne hp
      dsimp only [Option.map_some, Prod.map, verdict]
      cases l.cache.parsing with
      | true => rfl
      | false =>
        cases hloaded : (l.graph.entry id).isLoaded <;> simp [Except.map, CacheLookup.veiled, hcommitted, hloaded]

/-- A request leaves a slot in discovery at most in a parse-only pass. -/
theorem place?_classified (hc : l.cache.Exclusive) (key : String) (fixed : Option Format) (unexposed : Bool)
    (k : String) : (l.classified key fixed unexposed).2.cache.place? k =
      if key = k then (l.cache.place? k).map (adopted l.cache.parsing) else l.cache.place? k := by
  unfold Cache.place?
  split
  · next hk =>
    subst hk
    unfold classified
    cases hslot : l.cache.slot? key with
    | none => simp [hslot]
    | some found =>
      obtain ⟨p, s⟩ := found
      cases s with
      | poisoned e => simp [hslot, adopted]
      | loading id => simp [hslot, adopted, noted]
      | ready id =>
        dsimp only
        split
        · next hp => simp [hslot, adopted, hp]
        · next hp =>
          dsimp only
          split
          · next hd =>
            subst hd
            have hcommit := hc.slot?_commit (k := key) (p := settledPartition unexposed (l.graph.entry id).format)
              hslot rfl
            rw [if_pos rfl] at hcommit
            have hcommitted := Partition.veiled_of_ne (settledPartition_ne unexposed (l.graph.entry id).format)
            simp only [committed, noted]
            simp [hcommit, adopted, hp, hcommitted]
          · next hd => simp [hslot, adopted, hp, Partition.veiled_of_ne hd]
  · next hk =>
    have hslot : (l.classified key fixed unexposed).2.cache.slot? k = l.cache.slot? k := by
      obtain ⟨events, -, heq⟩ | ⟨id, hslot, -, heq⟩ := l.loader_classified key fixed unexposed
      · rw [heq]
        rfl
      · rw [heq]
        exact (hc.slot?_commit hslot rfl).trans (if_neg hk)
    rw [hslot]

/-! ## Looking for modules -/

theorem slots_builtinOf (l : Loader) (name : String) (p : Partition) :
    (l.builtinOf name).2.cache.slots p = l.cache.slots p := by
  unfold builtinOf
  cases l.cache.builtins.get? name with
  | some id => rfl
  | none => cases p <;> rfl

namespace Resembles

/-- Both loaders find the same for a key. -/
theorem classified (h : l.Resembles l') (hc : l.cache.Exclusive) (hc' : l'.cache.Exclusive) (key : String)
    (fixed : Option Format) (u u' : Bool) :
    (l'.classified key fixed u').1.map CacheLookup.veiled = (l.classified key fixed u).1.map CacheLookup.veiled ∧
      (l.classified key fixed u).2.Resembles (l'.classified key fixed u').2 := by
  refine ⟨?_, ?_, fun k => ?_⟩
  · have hverdict : verdict fixed l.cache.parsing l'.graph = verdict fixed l.cache.parsing l.graph := by
      funext slot
      unfold verdict
      simp only [h.isLoaded]
    rw [classified_veiled, classified_veiled, h.place, h.parsing, hverdict]
  · rw [veiled_classified, veiled_classified, h.veiled]
  · rw [place?_classified hc, place?_classified hc', h.place, h.parsing]

theorem linked (h : l.Resembles l') {r r' : Option Referrer} (hr : r'.map Referrer.veiled = r.map Referrer.veiled)
    (request : String) (child : EntryId) : (l.linked r request child).Resembles (l'.linked r' request child) := by
  refine h.of_cache ?_ (fun _ => by rw [cache_linked]) fun _ => by rw [cache_linked]
  rw [veiled_linked, veiled_linked, h.veiled, linked_congr _ _ hr]

theorem added (h : l.Resembles l') {e e' : Entry} (he : e'.veiled = e.veiled) :
    ({ l with graph := (l.graph.add e).1 } : Loader).Resembles { l' with graph := (l'.graph.add e').1 } := by
  refine h.of_cache ?_ (fun _ => rfl) fun _ => rfl
  rw [veiled_added, veiled_added, h.veiled, he]

/-- The same is done with what was found. -/
theorem found (h : l.Resembles l') {r r' : Option Referrer} (hr : r'.map Referrer.veiled = r.map Referrer.veiled)
    {t t' : Target} (ht : t'.veiled = t.veiled) (request : String) (isMain : Bool) {c c' : CacheLookup}
    (hc : c'.veiled = c.veiled) :
    (l'.found request r' isMain t' c').1.map Finding.veiled = (l.found request r isMain t c).1.map Finding.veiled ∧
      (l.found request r isMain t c).2.Resembles (l'.found request r' isMain t' c').2 := by
  have hjob : ∀ {p p' : Partition} (id : EntryId), p'.veiled = p.veiled →
      (⟨request, r', isMain, t', p', id⟩ : Job).veiled = (⟨request, r, isMain, t, p, id⟩ : Job).veiled := by
    intro p p' id hp
    unfold Job.veiled
    dsimp only
    rw [hr, ht, hp]
  cases c <;> cases c' <;>
    simp only [CacheLookup.veiled, CacheLookup.hit.injEq, CacheLookup.evaluate.injEq, CacheLookup.miss.injEq,
      reduceCtorEq] at hc
  · subst hc
    exact ⟨rfl, (h.noted _ _).linked hr request _⟩
  · obtain ⟨hp, rfl⟩ := hc
    exact ⟨congrArg (fun job => Except.ok (Finding.needs job)) (hjob _ hp), h⟩
  · refine ⟨?_, h.added ?_⟩
    · unfold Loader.found
      rw [h.size]
      exact congrArg (fun job => Except.ok (Finding.needs job)) (hjob _ hc)
    · rw [veiled_newEntry, veiled_newEntry, ht]

/-- Both loaders find the same for a target. -/
theorem met (h : l.Resembles l') (hc : l.cache.Exclusive) (hc' : l'.cache.Exclusive) {r r' : Option Referrer}
    (hr : r'.map Referrer.veiled = r.map Referrer.veiled) {t t' : Target} (ht : t'.veiled = t.veiled)
    (request : String) (isMain : Bool) :
    (l'.met request r' isMain t').1.map Finding.veiled = (l.met request r isMain t).1.map Finding.veiled ∧
      (l.met request r isMain t).2.Resembles (l'.met request r' isMain t').2 := by
  have hkey : t'.key = t.key := show t'.veiled.key = t.veiled.key by rw [ht]
  have hfixed : t'.fixed = t.fixed := show t'.veiled.fixed = t.veiled.fixed by rw [ht]
  obtain ⟨hfound, hresembles⟩ := (h.noted [.enters t.key .classifying] [.enters t.key .classifying]).classified hc hc'
    t.key t.fixed t.package.isUnexposed t'.package.isUnexposed
  unfold Loader.met
  rw [hkey, hfixed]
  generalize (l.noted [.enters t.key .classifying]).classified t.key t.fixed t.package.isUnexposed = q
    at hfound hresembles ⊢
  generalize (l'.noted [.enters t.key .classifying]).classified t.key t.fixed t'.package.isUnexposed = q'
    at hfound hresembles ⊢
  obtain ⟨e | c, l₁⟩ := q <;> obtain ⟨e' | c', l₁'⟩ := q'
  · obtain rfl : e' = e := Except.error.inj hfound
    exact ⟨rfl, hresembles⟩
  · cases hfound
  · cases hfound
  · exact hresembles.found hr ht request isMain (Except.ok.inj hfound)

/-- Both loaders find the same for a request. -/
theorem seek (h : l.Resembles l') (ho : l.Orderly) (ho' : l'.Orderly) (request : String) (parent : Option EntryId)
    (isMain : Bool) :
    (l'.run (Loader.seek request parent isMain)).1.map Finding.veiled =
        (l.run (Loader.seek request parent isMain)).1.map Finding.veiled ∧
      (l.run (Loader.seek request parent isMain)).2.Resembles (l'.run (Loader.seek request parent isMain)).2 := by
  have hr : (l'.referrer? parent).map Referrer.veiled = (l.referrer? parent).map Referrer.veiled := by
    rw [← referrer?_veiled, ← referrer?_veiled, h.veiled]
  have hresolved : l'.resolved request parent isMain = l.resolved request parent isMain :=
    eq_of_veiled (·.resolved request parent isMain) (fun l => l.resolved_veiled request parent isMain) h.veiled
  have hretried : (l.retried request parent isMain).Resembles (l'.retried request parent isMain) := h.noted _ _
  rw [ho.run_seek, ho'.run_seek]
  dsimp only
  rw [hresolved]
  split
  · exact ⟨rfl, hretried⟩
  · next name _ =>
    have hbuiltin := congrArg (·.builtinOf name) hretried.veiled
    rw [builtinOf_veiled, builtinOf_veiled, Prod.mk.injEq] at hbuiltin
    obtain ⟨hid, hveiled⟩ := hbuiltin
    have hbuilt := hretried.of_cache hveiled (slots_builtinOf _ name) (slots_builtinOf _ name)
    rw [hid]
    exact ⟨rfl, hbuilt.linked hr request _⟩
  · next file _ =>
    have hpackaged : ((l.retried request parent isMain).packaged file).Resembles
        ((l'.retried request parent isMain).packaged file) := by
      refine hretried.of_cache ?_ (fun _ => rfl) fun _ => rfl
      rw [veiled_packaged, veiled_packaged, hretried.veiled]
    have hpackage := congrArg (·.packageOf file) h.veiled
    rw [packageOf_veiled, packageOf_veiled] at hpackage
    refine hpackaged.met ho.exclusive ho'.exclusive hr ?_ request isMain
    unfold Target.veiled target
    dsimp only
    rw [hpackage]

end Resembles

/-! ## Loaders that are alike -/

/-- Loaders resemble each other, and in both of them slots lead to entries with their keys. -/
structure Akin (l l' : Loader) : Prop extends Resembles l l' where
  left : l.Consistent
  right : l'.Consistent

/-- Two runs have the same result and leave loaders that are alike. -/
def Matches (r r' : Except LoadError α × Loader) : Prop := r'.1 = r.1 ∧ r.2.Akin r'.2

/-- Loaders that are alike do the same. -/
def Coincides (action : LoadM α) : Prop := ∀ l l' : Loader, l.Akin l' → Matches (l.run action) (l'.run action)

theorem Akin.noted (h : l.Akin l') (events events' : List Event) : (l.noted events).Akin (l'.noted events') :=
  { h.toResembles.noted events events' with
    left := h.left.noted events
    right := h.right.noted events' }

theorem Akin.withParsing (h : l.Akin l') (parsing : Bool) : (l.withParsing parsing).Akin (l'.withParsing parsing) := by
  have hslots : ∀ (l : Loader) p, (l.withParsing parsing).cache.slots p = l.cache.slots p := fun _ p => by cases p <;> rfl
  have hveiled : (l'.withParsing parsing).veiled = (l.withParsing parsing).veiled :=
    congrArg (·.withParsing parsing) h.veiled
  exact { h.toResembles.of_cache hveiled (hslots l) (hslots l') with
    left := h.left.withParsing parsing
    right := h.right.withParsing parsing }

namespace Matches

theorem andThen {next next' : α → LoadM β} {r r' : Except LoadError α × Loader} (h : Matches r r')
    (hnext : ∀ a {l l' : Loader}, l.Akin l' → Matches (l.run (next a)) (l'.run (next' a))) :
    Matches (Loader.andThen r next) (Loader.andThen r' next') := by
  obtain ⟨hresult, halike⟩ := h
  obtain ⟨e | a, l⟩ := r <;> obtain ⟨e' | a', l'⟩ := r' <;> cases hresult
  · exact ⟨rfl, halike⟩
  · exact hnext a halike

end Matches

namespace Coincides

theorem pure (a : α) : Coincides (Pure.pure a) := fun _ _ h => ⟨rfl, h⟩

theorem throw (e : LoadError) : Coincides (MonadExcept.throw e : LoadM α) := fun _ _ h => ⟨rfl, h⟩

theorem report (event : Event) : Coincides (Loader.report event) := fun _ _ h => ⟨rfl, h.noted [event] [event]⟩

theorem bind {action : LoadM α} {next : α → LoadM β} (h : Coincides action) (hnext : ∀ a, Coincides (next a)) :
    Coincides (action >>= next) := by
  intro l l' ha
  rw [run_bind, run_bind]
  exact (h l l' ha).andThen fun a => hnext a _ _

/-- What reads files writes to no slot. -/
theorem of_reading {action : LoadM α} (hu : Unaffected action) (hq : Follows Quiet action)
    (hs : Follows (Spares fun _ => False) action) : Coincides action := by
  intro l l' h
  obtain ⟨hresult, hveiled⟩ := hu l l' h.veiled
  have hresembles := h.toResembles.of_cache hveiled (fun p => by rw [(hq l).cache]) fun p => by rw [(hq l').cache]
  exact ⟨hresult, { hresembles with left := (hs l h.left).consistent, right := (hs l' h.right).consistent }⟩

theorem sourceOf (file : Path) : Coincides (Loader.sourceOf file) :=
  of_reading (.sourceOf file) (Quiet.reading.source file) fun l =>
    .of_quiet ((Tidy.compiles 0).source file l) (Quiet.reading.source file l)

theorem programOf (file : Path) : Coincides (Loader.programOf file) :=
  of_reading (.programOf file) (Quiet.reading.program file) fun l =>
    .of_quiet ((Tidy.compiles 0).program file l) (Quiet.reading.program file l)

/-- A compiler writes to an entry, without looking at its package or its parent. -/
theorem updateEntry (id : EntryId) {f : Entry → Entry} (hf : ∀ e : Entry, e.Retains (f e))
    (hv : ∀ e : Entry, (f e).veiled = f e.veiled) : Coincides (Loader.updateEntry id f) := by
  intro l l' h
  have hcompiles : Compiles id (Spares (· = id)) := Spares.compiles rfl
  have hs := hcompiles.updateEntry hf
  have hveiled : ({ l' with graph := l'.graph.update id f } : Loader).veiled =
      ({ l with graph := l.graph.update id f } : Loader).veiled := by
    rw [veiled_update _ _ hv, veiled_update _ _ hv, h.veiled]
  exact ⟨rfl, { h.toResembles.of_cache hveiled (fun _ => rfl) fun _ => rfl with
    left := (hs l h.left).consistent
    right := (hs l' h.right).consistent }⟩

theorem setFormat (id : EntryId) (format : Format) : Coincides (Loader.setFormat id format) := by
  intro l l' h
  have hupdate := updateEntry id (f := (Entry.setFormat · format)) (fun e => .setFormat e format) (fun e => by
    unfold Entry.setFormat
    have hloaded : e.veiled.isLoaded = e.isLoaded := rfl
    rw [hloaded]
    split <;> rfl)
  rw [run_setFormat, run_setFormat]
  exact ⟨rfl, (hupdate l l' h).2.noted _ _⟩

theorem dependency (id : EntryId) : Coincides (Loader.dependency id) := by
  intro l l' h
  have hentry := h.entry id
  refine ⟨?_, h⟩
  show Except.ok (⟨(l'.graph.entry id).veiled.key, (l'.graph.entry id).veiled.isLoaded,
    (l'.graph.entry id).veiled.module.exports⟩ : Dependency) = _
  rw [hentry]
  rfl

/-- Compilers do the same in loaders that are alike. -/
theorem runTask {nested : NestedLoad} (hn : ∀ request id, Coincides (nested request id)) (id : EntryId)
    (filename : Path) (t : Task) : Coincides (Loader.runTask nested id filename t) := by
  induction t with
  | done => exact pure ()
  | fail e => exact throw e
  | setFormat format next ih => exact (setFormat id format).bind fun _ => ih
  | report event next ih => exact (report event).bind fun _ => ih
  | readSource next ih => exact (sourceOf filename).bind ih
  | readProgram next ih => exact (programOf filename).bind ih
  | require request next ih => exact (hn request id).bind fun child => (dependency child).bind ih
  | setExports v next ih =>
    exact (updateEntry id (f := (Entry.setExports · v)) (fun e => ⟨rfl, rfl, rfl, rfl, rfl, rfl⟩) fun _ => rfl).bind fun _ => ih
  | setExport name v next ih =>
    exact (updateEntry id (f := (Entry.setExport · name v)) (fun e => ⟨rfl, rfl, rfl, rfl, rfl, rfl⟩) fun _ => rfl).bind fun _ => ih

theorem prepare {nested : NestedLoad} (hn : ∀ request id, Coincides (nested request id)) (id : EntryId)
    (filename : Path) : Coincides (Loader.prepare nested id filename) := by
  intro l l' h
  have hcompiles : Compiles id (Spares (· = id)) := Spares.compiles rfl
  have hleft := hcompiles.beginCompile filename l h.left
  have hright := hcompiles.beginCompile filename l' h.right
  rw [run_beginCompile] at hleft hright
  have hveiled : (l'.begun id filename).veiled = (l.begun id filename).veiled := by
    rw [veiled_begun, veiled_begun, h.veiled]
  have hbegun : (l.begun id filename).Akin (l'.begun id filename) :=
    { h.toResembles.of_cache hveiled (fun _ => rfl) fun _ => rfl with
      left := hleft.consistent
      right := hright.consistent }
  have hcompilation : l'.compilation id filename = l.compilation id filename :=
    eq_of_veiled (·.compilation id filename) (fun l => l.compilation_veiled id filename) h.veiled
  rw [run_prepare, run_prepare, hcompilation]
  exact (runTask hn id filename _ _ _ hbegun).andThen fun _ _ _ h => ⟨rfl, h⟩

end Coincides

/-! ## Compiling -/

namespace Akin

theorem occupied (h : l.Akin l') (hr : l.Ready job) (hr' : l'.Ready job') (hj : job'.veiled = job.veiled) :
    (l.occupied job).Akin (l'.occupied job') := by
  have hid : job'.id = job.id := show job'.veiled.id = job.veiled.id by rw [hj]
  have hkey : job'.target.key = job.target.key := show job'.veiled.target.key = job.veiled.target.key by rw [hj]
  have hmain : job'.isMain = job.isMain := show job'.veiled.isMain = job.veiled.isMain by rw [hj]
  have hpartition : job'.partition.veiled = job.partition.veiled := congrArg Job.partition hj
  refine { veiled := ?_, place := fun key => ?_, left := hr.consistent_occupied h.left,
           right := hr'.consistent_occupied h.right }
  · rw [veiled_occupied, veiled_occupied, hid, hmain, h.veiled]
  · rw [Cache.place?, Cache.place?, hr.slot?_occupied, hr'.slot?_occupied, hkey, hid]
    split
    · exact congrArg (fun p => some (p, Slot.loading job.id)) hpartition
    · exact h.place key

/-- A failed compilation leaves the same behind. -/
theorem vacated (h : l.Akin l') (hin : l.InProgress job.target.key job.partition job.id)
    (hin' : l'.InProgress job'.target.key job'.partition job'.id) (hj : job'.veiled = job.veiled) (e : LoadError) :
    (l.vacated job e).Resembles (l'.vacated job' e) := by
  have hkey : job'.target.key = job.target.key := show job'.veiled.target.key = job.veiled.target.key by rw [hj]
  have hpartition : job'.partition.veiled = job.partition.veiled := congrArg Job.partition hj
  have hcommitted : job'.partition.isCommitted = job.partition.isCommitted := by
    cases hp : job.partition <;> cases hp' : job'.partition <;> rw [hp, hp'] at hpartition <;>
      first | rfl | cases hpartition
  obtain ⟨-, hs⟩ := slot?_vacated h.left.toOrderly hin e
  obtain ⟨-, hs'⟩ := slot?_vacated h.right.toOrderly hin' e
  refine ⟨?_, fun key => ?_⟩
  · rw [veiled_vacated, veiled_vacated, h.veiled]
  · rw [Cache.place?, Cache.place?, hs, hs', hkey, hcommitted]
    split
    · split
      · exact congrArg (fun p => some (p, Slot.poisoned e)) hpartition
      · rfl
    · exact h.place key

/-- A module takes the same place, but for the committed partition. -/
theorem concluded (h : l.Akin l') (hin : l.InProgress job.target.key job.partition job.id)
    (hin' : l'.InProgress job'.target.key job'.partition job'.id) (hj : job'.veiled = job.veiled) (filename : Path)
    (c : Compilation) :
    ((l.marked job.id filename c).concluded job).Resembles ((l'.marked job'.id filename c).concluded job') := by
  have hid : job'.id = job.id := show job'.veiled.id = job.veiled.id by rw [hj]
  have hkey : job'.target.key = job.target.key := show job'.veiled.target.key = job.veiled.target.key by rw [hj]
  have hrequest : job'.request = job.request := show job'.veiled.request = job.veiled.request by rw [hj]
  have hreferrer : job'.referrer.map Referrer.veiled = job.referrer.map Referrer.veiled := congrArg Job.referrer hj
  have hpartition : job'.partition.veiled = job.partition.veiled := congrArg Job.partition hj
  have hfinal : ((l'.marked job'.id filename c).finalPartition job').veiled
      = ((l.marked job.id filename c).finalPartition job).veiled := by
    have hparsing : (l'.marked job'.id filename c).cache.parsing = (l.marked job.id filename c).cache.parsing := h.parsing
    have hdiscovery : job'.partition = .discovery ↔ job.partition = .discovery := by
      rw [← Partition.veiled_eq_discovery, hpartition, Partition.veiled_eq_discovery]
    unfold finalPartition
    rw [hparsing]
    simp only [hdiscovery]
    split
    · rw [Partition.veiled_of_ne (settledPartition_ne _ _), Partition.veiled_of_ne (settledPartition_ne _ _)]
    · exact hpartition
  have ho : (l.marked job.id filename c).Orderly := ⟨h.left.exclusive, h.left.unmarked.of_eq rfl rfl⟩
  have ho' : (l'.marked job'.id filename c).Orderly := ⟨h.right.exclusive, h.right.unmarked.of_eq rfl rfl⟩
  obtain ⟨-, hs⟩ := slot?_concluded ho hin
  obtain ⟨-, hs'⟩ := slot?_concluded ho' hin'
  rw [hid] at hfinal
  refine ⟨?_, fun key => ?_⟩
  · rw [veiled_concluded, veiled_concluded, veiled_marked, veiled_marked, h.veiled, hid, hrequest]
    rw [linked_congr _ _ hreferrer]
  · rw [Cache.place?, Cache.place?, hs, hs', hkey, hid]
    split
    · exact congrArg (fun p => some (p, Slot.ready job.id)) hfinal
    · exact h.place key

/-- Both loaders compile a module with the same result. -/
theorem perform (hn : ∀ request id, Coincides (loadNested limit request id)) (h : l.Akin l') (hd : l.Ready job)
    (hd' : l'.Ready job') (hj : job'.veiled = job.veiled) :
    Matches (l.run (Loader.perform (loadNested limit) job)) (l'.run (Loader.perform (loadNested limit) job')) := by
  have hid : job'.id = job.id := show job'.veiled.id = job.veiled.id by rw [hj]
  have hfile : job'.target.filename = job.target.filename :=
    show job'.veiled.target.filename = job.veiled.target.filename by rw [hj]
  have hprepared := Coincides.prepare hn job.id job.target.filename _ _ (h.occupied hd hd' hj)
  have hleft := Spares.perform (Tidy.loadNested limit) (Spares.loadNested limit) h.left hd
  have hright := Spares.perform (Tidy.loadNested limit) (Spares.loadNested limit) h.right hd'
  rw [Spares.run_perform (Spares.loadNested limit) h.left hd] at hleft ⊢
  rw [Spares.run_perform (Spares.loadNested limit) h.right hd'] at hright ⊢
  rw [hid, hfile] at hright ⊢
  generalize hrun : (l.occupied job).run (prepare (loadNested limit) job.id job.target.filename) = r
    at hprepared hleft ⊢
  generalize hrun' : (l'.occupied job').run (prepare (loadNested limit) job.id job.target.filename) = r'
    at hprepared hright ⊢
  obtain ⟨hresult, halike⟩ := hprepared
  have hin := hd.inProgress_of_prepare h.left hrun
  rw [← hid, ← hfile] at hrun'
  have hin' := hd'.inProgress_of_prepare h.right hrun'
  obtain ⟨e | c, l₂⟩ := r <;> obtain ⟨e' | c', l₂'⟩ := r' <;> cases hresult
  · exact ⟨rfl, { halike.vacated hin.2 hin'.2 hj e with left := hleft.consistent, right := hright.consistent }⟩
  · have hconcluded := halike.concluded hin.2 hin'.2 hj job.target.filename c
    rw [hid] at hconcluded
    exact ⟨rfl, { hconcluded with left := hleft.consistent, right := hright.consistent }⟩

end Akin

namespace Coincides

theorem answer (hn : ∀ request id, Coincides (loadNested limit request id)) (request : String)
    (parent : Option EntryId) (isMain : Bool) : Coincides (Loader.answer (loadNested limit) request parent isMain) := by
  intro l l' h
  have hsought := h.seek h.left.toOrderly h.right.toOrderly request parent isMain
  have hleft := h.left.sought request parent isMain
  have hright := h.right.sought request parent isMain
  unfold Loader.answer
  rw [run_bind, run_bind]
  generalize hrun : l.run (seek request parent isMain) = r at hsought hleft ⊢
  generalize hrun' : l'.run (seek request parent isMain) = r' at hsought hright ⊢
  obtain ⟨hfound, hresembles⟩ := hsought
  have h₁ : r.2.Akin r'.2 := { hresembles with left := hleft, right := hright }
  obtain ⟨e | found, l₁⟩ := r <;> obtain ⟨e' | found', l₁'⟩ := r'
  · exact ⟨congrArg Except.error (Except.error.inj hfound), h₁⟩
  · cases hfound
  · cases hfound
  · replace hfound : found'.veiled = found.veiled := Except.ok.inj hfound
    cases found <;> cases found' <;>
      simp only [Finding.veiled, Finding.found.injEq, Finding.needs.injEq, reduceCtorEq] at hfound
    · subst hfound
      exact ⟨rfl, h₁⟩
    · exact h₁.perform hn (ready_of_seek h.left hrun) (ready_of_seek h.right hrun') hfound

theorem reported {action : LoadM EntryId} (ha : Coincides action) (request : String) :
    Coincides (Loader.reported request action) := by
  intro l l' h
  have hran := ha _ _ (h.noted [.enters request .resolving] [.enters request .resolving])
  rw [run_reported, run_reported]
  generalize (l.noted [.enters request .resolving]).run action = r at hran ⊢
  generalize (l'.noted [.enters request .resolving]).run action = r' at hran ⊢
  obtain ⟨hresult, halike⟩ := hran
  obtain ⟨e | id, l₁⟩ := r <;> obtain ⟨e' | id', l₁'⟩ := r' <;> cases hresult
  · exact ⟨rfl, halike.noted _ _⟩
  · exact ⟨rfl, halike.noted _ _⟩

/-- Nested loads do the same, however deep they go. -/
theorem loadNested (limit : Nat) (request : String) (id : EntryId) :
    Coincides (Loader.loadNested limit request id) := by
  induction limit generalizing request id with
  | zero => exact throw _
  | succ limit ih => exact reported (answer ih request (some id) false) request

theorem load (request : String) (parent : Option EntryId) (isMain : Bool) :
    Coincides (Loader.load request parent isMain) := by
  intro l l' h
  unfold Loader.load
  rw [run_bind, run_bind, run_get, run_get, andThen_ok, andThen_ok, nestingBound_of_veiled h.veiled]
  exact reported (answer (loadNested _) request parent isMain) request l l' h

theorem discover (request : String) (parent : Option EntryId) : Coincides (Loader.discover request parent) := by
  intro l l' h
  obtain ⟨hresult, halike⟩ := load request parent false _ _ (h.withParsing true)
  rw [run_discover, run_discover, h.parsing]
  exact ⟨hresult, halike.withParsing _⟩

theorem resolve (request : String) (parent : Option EntryId) : Coincides (Loader.resolve request parent) := by
  intro l l' h
  have hresolved : l'.resolved request parent false = l.resolved request parent false :=
    eq_of_veiled (·.resolved request parent false) (fun l => l.resolved_veiled request parent false) h.veiled
  rw [run_resolve, run_resolve, hresolved]
  exact ⟨rfl, h.noted _ _⟩

end Coincides

/-! ## Between calls -/

theorem get?_invalidate (c : Cache) (key : String) (p : Partition) (k : String) :
    (c.invalidate key).get? p k = if key = k then none else c.get? p k := by
  by_cases hk : key = k <;> cases p <;> simp [Cache.invalidate, Partition.all, Cache.get?_delete, hk]

theorem place?_invalidate (c : Cache) (key k : String) :
    (c.invalidate key).place? k = if key = k then none else c.place? k := by
  simp only [Cache.place?, Cache.slot?, get?_invalidate]
  split <;> simp

theorem veiled_invalidate (c : Cache) (key : String) : (c.invalidate key).veiled = c.veiled := by
  simp [Cache.invalidate, Partition.all]

/-- A key is cached if it has a place. -/
theorem hasAny_eq (c : Cache) (key : String) : c.hasAny key = (c.place? key).isSome := by
  simp only [Cache.hasAny, Partition.all, Cache.has_eq, Cache.place?, Cache.slot?, List.any_cons, List.any_nil,
    List.findSome?_cons, List.findSome?_nil]
  cases c.get? .legacy key <;> cases c.get? .declarative key <;> cases c.get? .discovery key <;> rfl

theorem Coincides.invalidate (key : String) : Coincides (Loader.invalidate key) := by
  intro l l' h
  have hveiled : ∀ l : Loader, (l.after (.invalidate key)).veiled = { l.veiled with
      sources := l.veiled.sources.erase (⟨(splitQuery key).1⟩ : Path).components
      programs := l.veiled.programs.erase (⟨(splitQuery key).1⟩ : Path).components } := fun l => by
    unfold veiled
    rw [← veiled_invalidate l.cache key]
    rfl
  have hop : ∀ l : Loader, l.Regular (.invalidate key) := fun _ => trivial
  refine ⟨?_, ⟨?_, fun k => ?_⟩, h.left.after (hop l), h.right.after (hop l')⟩
  · show Except.ok (l'.cache.hasAny key) = Except.ok (l.cache.hasAny key)
    rw [hasAny_eq, hasAny_eq, h.place]
  · exact (hveiled l').trans (h.veiled ▸ (hveiled l).symm)
  · exact (place?_invalidate l'.cache key k).trans (h.place k ▸ (place?_invalidate l.cache key k).symm)

theorem Coincides.clearCache : Coincides Loader.clearCache := by
  intro l l' h
  have hop : ∀ l : Loader, l.Regular .clearCache := fun _ => trivial
  refine ⟨rfl, ⟨?_, fun k => rfl⟩, h.left.after (hop l), h.right.after (hop l')⟩
  exact congrArg (fun v : Loader => { v with cache := v.cache.clear, sources := .empty, programs := .empty }) h.veiled

theorem Akin.after {op : Operation} (h : l.Akin l') (hop : l.Undisturbed op) : (l.after op).Akin (l'.after op) := by
  cases op with
  | load request parent isMain => exact (Coincides.load request parent isMain l l' h).2
  | discover request parent => exact (Coincides.discover request parent l l' h).2
  | resolve request parent => exact (Coincides.resolve request parent l l' h).2
  | invalidate key => exact (Coincides.invalidate key l l' h).2
  | clearCache => exact (Coincides.clearCache l l' h).2
  | _ => exact hop.elim

/-- Loaders give the same answers. -/
structure SameAnswers (l l' : Loader) : Prop where
  load : ∀ request parent isMain,
    (l'.run (load request parent isMain)).1 = (l.run (load request parent isMain)).1
  discover : ∀ request parent, (l'.run (discover request parent)).1 = (l.run (discover request parent)).1
  resolve : ∀ request parent, (l'.run (resolve request parent)).1 = (l.run (resolve request parent)).1
  invalidate : ∀ key, (l'.run (invalidate key)).1 = (l.run (invalidate key)).1

/-- Loaders have made the same modules, and have the same slots, partitions aside. -/
structure MatchingModules (l l' : Loader) : Prop where
  size : l'.graph.size = l.graph.size
  entry : ∀ id, ∃ package parent, package.veiled = (l.graph.entry id).package.veiled ∧
    l'.graph.entry id = { l.graph.entry id with package := package, parent := parent }
  slot : ∀ key s, (∃ p, l'.cache.get? p key = some s) ↔ ∃ p, l.cache.get? p key = some s
  main : l'.cache.main? = l.cache.main?

theorem Akin.answers (h : l.Akin l') : l.SameAnswers l' where
  load request parent isMain := (Coincides.load request parent isMain l l' h).1
  discover request parent := (Coincides.discover request parent l l' h).1
  resolve request parent := (Coincides.resolve request parent l l' h).1
  invalidate key := (Coincides.invalidate key l l' h).1

theorem Akin.modules (h : l.Akin l') : l.MatchingModules l' where
  size := h.size
  entry id := by
    have hentry := h.entry id
    generalize l'.graph.entry id = e' at hentry ⊢
    generalize l.graph.entry id = e at hentry ⊢
    obtain ⟨key', format', parsed', module', package', parent', children'⟩ := e'
    obtain ⟨key, format, parsed, module, package, parent, children⟩ := e
    simp only [Entry.veiled, Entry.mk.injEq] at hentry
    obtain ⟨rfl, rfl, rfl, rfl, hpackage, -, rfl⟩ := hentry
    exact ⟨package', parent', hpackage, rfl⟩
  slot key s := by
    have hslot : ∀ {l : Loader}, l.Consistent →
        ((∃ p, l.cache.get? p key = some s) ↔ (l.cache.place? key).map Prod.snd = some s) := fun {l} hc => by
      simp only [← hc.exclusive.slot?_eq_some, Cache.place?]
      cases l.cache.slot? key <;> simp [Prod.ext_iff]
    rw [hslot h.left, hslot h.right, h.place]
  main := eq_of_veiled (·.cache.main?) (fun _ => rfl) h.veiled

/-- A loader with other manifests and default options. -/
def reexposed (l : Loader) (manifests : ManifestReader) (defaults : PackageOptions) : Loader :=
  { l with manifests := manifests, packages := .new defaults }

theorem Starts.alike_reexposed (h : l.Starts) {manifests : ManifestReader} {defaults : PackageOptions}
    (hm : ∀ fs dir, (manifests fs dir).veiled = (l.manifests fs dir).veiled)
    (hd : defaults.veiled = l.packages.defaults.veiled) : l.Akin (l.reexposed manifests defaults) := by
  have hstarts : (l.reexposed manifests defaults).Starts :=
    ⟨⟨rfl, h.fresh.cache, h.fresh.graph, h.fresh.sources, h.fresh.programs, h.fresh.journal⟩,
      h.unmarked.names, h.unmarked.stored⟩
  refine ⟨⟨?_, fun _ => rfl⟩, h.resting.toConsistent, hstarts.resting.toConsistent⟩
  have hpackages : (PackageContexts.new defaults).veiled = l.packages.veiled := by
    rw [h.fresh.packages]
    show (⟨defaults.veiled, [], .empty⟩ : PackageContexts) = ⟨l.packages.defaults.veiled, [], .empty⟩
    rw [hd]
  have hmanifests : (fun fs dir => (manifests fs dir).veiled) = fun fs dir => (l.manifests fs dir).veiled :=
    funext fun fs => funext fun dir => hm fs dir
  unfold veiled reexposed
  dsimp only
  rw [hpackages, hmanifests]

/-- What packages expose does not matter: whatever is asked of two loaders that differ in nothing else, they give the
same answers, make the same modules, and have the same slots, partitions aside. -/
theorem same_of_reexposed (h : l.Starts) {manifests : ManifestReader} {defaults : PackageOptions}
    (hm : ∀ fs dir, (manifests fs dir).veiled = (l.manifests fs dir).veiled)
    (hd : defaults.veiled = l.packages.defaults.veiled) {ops : List Operation} (hops : ∀ op ∈ ops, l.Undisturbed op) :
    let l₁ := ops.foldl after l
    let l₂ := ops.foldl after (l.reexposed manifests defaults)
    l₁.SameAnswers l₂ ∧ l₁.MatchingModules l₂ := by
  have halike : ∀ {l l' : Loader}, l.Akin l' → (ops.foldl after l).Akin (ops.foldl after l') := by
    intro l l' h
    induction ops generalizing l l' with
    | nil => exact h
    | cons op ops ih => exact ih (fun op hmem => hops op (.tail _ hmem)) (h.after (hops op (.head _)))
  have hrun := halike (h.alike_reexposed hm hd)
  exact ⟨hrun.answers, hrun.modules⟩

/-- A declarative module that legacy modules may see, or not. -/
theorem same_mixed :
    let exposed := mixed.reexposed mixed.manifests ⟨.auto, ⟨true, false⟩⟩
    let ops := [Operation.discover "./low.js" none, .load "./main.js" none true]
    let l₁ := ops.foldl after mixed
    let l₂ := ops.foldl after exposed
    (l₁.cache.get? .declarative "/app/low.js" = some (.ready 0) ∧
      l₂.cache.get? .legacy "/app/low.js" = some (.ready 0)) ∧
    l₁.SameAnswers l₂ ∧ l₁.MatchingModules l₂ := by
  have hops : ∀ op ∈ [Operation.discover "./low.js" none, .load "./main.js" none true], mixed.Undisturbed op := by
    intro op hmem
    rcases List.mem_cons.mp hmem with rfl | hmem
    · trivial
    · obtain rfl := List.mem_singleton.mp hmem
      trivial
  have hmanifests : ∀ fs dir, (mixed.manifests fs dir).veiled = (mixed.manifests fs dir).veiled := fun _ _ => rfl
  have hdefaults : (⟨.auto, ⟨true, false⟩⟩ : PackageOptions).veiled = mixed.packages.defaults.veiled := rfl
  exact ⟨by decide +kernel, same_of_reexposed outset_mixed.toStarts hmanifests hdefaults hops⟩

end Loader
end ModGraph
