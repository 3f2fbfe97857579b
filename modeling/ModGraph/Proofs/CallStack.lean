import ModGraph.Proofs.Progress

/-!
# The call stack

While a call runs, the slots that are marked as loading are those of the modules on the call stack, and
between calls no slot is (`Loader.loading_iff_of_reachable`). Nothing is assumed about the names of files
or about what is put into slots from outside, so a key may have slots in several partitions; therefore
everything here is said about single slots. The marks are balanced because no other module takes the
slot of one in progress, not even when that one moves to another partition (`Loader.Vacant`).
-/

namespace ModGraph

open Relation (ReflTransGen)

namespace Moment

/-- At a moment a module is compiled for the request: what is left of its task, and the loader. -/
inductive Compiling (m : Moment) : Loader.Job → Task → Loader → Prop where
  | intro {job : Loader.Job} {c : Loader.Compilation} {t : Task} {l₁ l₂ l₃ l₄ : Loader}
      (hseek : m.loader.run (do
          Loader.report (.enters m.request .resolving)
          Loader.seek m.request m.parent m.isMain) = (.ok (.needs job), l₁))
      (hoccupy : l₁.run (Loader.occupy job) = (.ok (), l₂))
      (hbegin : l₂.run (Loader.beginCompile job.id job.target.filename) = (.ok c, l₃))
      (htask : ReflTransGen (TaskStep (Loader.loadNested m.limit) job.id job.target.filename)
        (c.task, l₃) (t, l₄)) :
      m.Compiling job t l₄

/-- A module that is compiled was due, and its task has run up to here. -/
theorem Compiling.ran {m : Moment} {job : Loader.Job} {t : Task} {l : Loader} (h : m.Compiling job t l) :
    ∃ l₁, m.loader.run (do
        Loader.report (.enters m.request .resolving)
        Loader.seek m.request m.parent m.isMain) = (.ok (.needs job), l₁) ∧
      let l₂ := l₁.occupied job
      ReflTransGen (TaskStep (Loader.loadNested m.limit) job.id job.target.filename)
        ((l₂.compilation job.id job.target.filename).task, l₂.begun job.id job.target.filename) (t, l) := by
  obtain ⟨hseek, hoccupy, hbegin, htask⟩ := h
  rw [Loader.run_occupy] at hoccupy
  cases hoccupy
  rw [Loader.run_beginCompile] at hbegin
  cases hbegin
  exact ⟨_, hseek, htask⟩

/-- A module asks for another one when its task has come to a request and the limit lets it. -/
theorem asks_iff {m m' : Moment} :
    m.Asks m' ↔ ∃ limit job request next l, m.limit = limit + 1 ∧
      m.Compiling job (.require request next) l ∧
      m' = ⟨limit, request, some job.id, false, job :: m.stack, l⟩ := by
  constructor
  · rintro ⟨hlimit, hseek, hoccupy, hbegin, htask⟩
    exact ⟨_, _, _, _, _, hlimit, ⟨hseek, hoccupy, hbegin, htask⟩, rfl⟩
  · rintro ⟨limit, job, request, next, l, hlimit, ⟨hseek, hoccupy, hbegin, htask⟩, rfl⟩
    exact ⟨hlimit, hseek, hoccupy, hbegin, htask⟩

end Moment

namespace Loader

variable {l l' : Loader} {job : Job} {p q : Partition} {key k request : String} {s : Slot} {id : EntryId}
  {parent : Option EntryId} {isMain : Bool}

/-! ## Marked slots -/

/-- A slot is marked: the module of an entry is being compiled in it. -/
def Loading (l : Loader) (p : Partition) (key : String) (id : EntryId) : Prop :=
  l.cache.get? p key = some (.loading id)

/-- Slots lead to entries that there are, and builtin modules are loaded. -/
structure Grounded (l : Loader) : Prop where
  slot : ∀ {p key s id}, l.cache.get? p key = some s → s.entry? = some id → id < l.graph.size
  builtin : ∀ {name id}, l.cache.builtins.get? name = some id →
    id < l.graph.size ∧ (l.graph.entry id).isLoaded = true

/-- A grounded loader stays grounded, and the same slots are marked. -/
def Balanced (l l' : Loader) : Prop :=
  l.Grounded → l'.Grounded ∧ ∀ p key id, l'.Loading p key id ↔ l.Loading p key id

theorem Grounded.develop (h : l.Grounded) (hg : l.graph.Develops l'.graph)
    (hs : ∀ {p key s id}, l'.cache.get? p key = some s → s.entry? = some id → id < l'.graph.size)
    (hb : l'.cache.builtins = l.cache.builtins) : l'.Grounded := by
  refine ⟨hs, fun {name id} hget => ?_⟩
  rw [hb] at hget
  obtain ⟨hlt, hloaded⟩ := h.builtin hget
  exact ⟨Nat.lt_of_lt_of_le hlt hg.size, (hg.entry hlt).loaded hloaded⟩

namespace Balanced

theorem refl (l : Loader) : Balanced l l := fun h => ⟨h, fun _ _ _ => Iff.rfl⟩

theorem trans {l l' l'' : Loader} (h : Balanced l l') (h' : Balanced l' l'') : Balanced l l'' := by
  intro hg
  obtain ⟨hg', hs⟩ := h hg
  obtain ⟨hg'', hs'⟩ := h' hg'
  exact ⟨hg'', fun p key id => (hs' p key id).trans (hs p key id)⟩

instance : IsPreorder Loader Balanced where
  refl := refl
  trans _ _ _ := trans

/-- Only slots and builtin modules matter, as long as the graph grows. -/
theorem of_slots (hg : l.graph.Develops l'.graph) (hs : ∀ p, l'.cache.slots p = l.cache.slots p)
    (hb : l'.cache.builtins = l.cache.builtins) : Balanced l l' := by
  have hget : ∀ p key, l'.cache.get? p key = l.cache.get? p key := fun p key => by
    rw [Cache.get?, hs, Cache.get?]
  intro h
  refine ⟨h.develop hg (fun {p key s id} hslot hid => ?_) hb, fun p key id => ?_⟩
  · rw [hget] at hslot
    exact Nat.lt_of_lt_of_le (h.slot hslot hid) hg.size
  · rw [Loading, hget, Loading]

theorem of_cache (hg : l.graph.Develops l'.graph) (hc : l'.cache = l.cache) : Balanced l l' :=
  of_slots hg (fun p => by rw [hc]) (by rw [hc])

theorem of_quiet {α : Type} {action : LoadM α} (h : Follows Quiet action) : Follows Balanced action :=
  fun l => of_cache (by rw [(h l).graph]; exact .refl _) (h l).cache

theorem report (event : Event) : Follows Balanced (Loader.report event) := fun _ =>
  of_cache (.refl _) rfl

theorem updateEntry (id : EntryId) {f : Entry → Entry} (hf : ∀ e : Entry, e.Develops (f e)) :
    Follows Balanced (Loader.updateEntry id f) := fun l => of_cache (.update l.graph id hf) rfl

theorem addEntry (e : Entry) : Follows Balanced (Loader.addEntry e) := fun l =>
  of_cache (.add l.graph e) rfl

theorem compiles (id : EntryId) : Compiles id Balanced where
  toIsPreorder := inferInstance
  report event _ := report event
  updateEntry hf := updateEntry id fun e => .of_retains (hf e)
  source file := of_quiet (Quiet.reading.source file)
  program file := of_quiet (Quiet.reading.program file)

end Balanced

/-! ## Classification -/

/-- What the classification of a key comes to, as far as single slots go. -/
inductive Classification (l : Loader) (key : String) : Except LoadError CacheLookup → Loader → Prop where
  /-- A poisoned slot is met. -/
  | failed {p : Partition} {e : LoadError} (h : l.cache.get? p key = some (.poisoned e)) :
      Classification l key (.error e) l
  /-- A marked slot is met. -/
  | busy {p : Partition} {id : EntryId} (h : l.Loading p key id) (events : List Event) :
      Classification l key (.ok (.hit id)) (l.noted events)
  /-- A ready slot is used as it is. -/
  | used {p : Partition} {id : EntryId} (h : l.cache.get? p key = some (.ready id))
      (hu : (l.graph.entry id).isLoaded = true ∨ l.cache.parsing = true) :
      Classification l key (.ok (.hit id)) l
  /-- A ready slot holds a module that is not evaluated yet. -/
  | parsed {p : Partition} {id : EntryId} (hp : p ≠ .discovery) (h : l.cache.get? p key = some (.ready id)) :
      Classification l key (.ok (.evaluate p id)) l
  /-- A module of discovery moves to a partition that has no slot for it. -/
  | adopted {p : Partition} {id : EntryId} (hp : p ≠ .discovery) (h : l.cache.get? .discovery key = some (.ready id))
      (hfree : ∀ q, q ≠ .discovery → l.cache.get? q key = none) :
      Classification l key
        (.ok (if (l.graph.entry id).isLoaded then .hit id else .evaluate p id))
        ((l.noted [.adopts key]).committed key p)
  /-- There is no slot, and in discovery one is made only where no partition has any. -/
  | absent {p : Partition} (h : l.cache.get? p key = none)
      (hfree : p = .discovery → ∀ q, l.cache.get? q key = none) :
      Classification l key (.ok (.miss p)) l

theorem classification_lookup (hp : p ≠ .discovery) :
    Classification l key (l.run (lookup p key)).1 (l.run (lookup p key)).2 := by
  cases hs : l.cache.get? p key with
  | none =>
    rw [run_lookup_of_none hs]
    exact .absent hs fun h => absurd h hp
  | some s =>
    cases s with
    | poisoned e =>
      rw [run_lookup_of_poisoned hs]
      exact .failed hs
    | loading id =>
      rw [run_lookup_of_loading hs]
      exact .busy hs [.circular key]
    | ready id =>
      rw [run_lookup_of_ready hs]
      dsimp only
      split
      · next hu => exact .used hs (by simpa using hu)
      · exact .parsed hp hs

theorem classification (l : Loader) (key : String) (fixed : Option Format) (unexposed : Bool) :
    Classification l key (l.run (classify key fixed unexposed)).1
      (l.run (classify key fixed unexposed)).2 := by
  obtain h | ⟨hfixed, hd, hl | hl⟩ := classify_cases l.cache key fixed
  · rw [run_classify_declarative h]
    exact classification_lookup (by decide)
  · rw [run_classify_legacy hfixed hd hl]
    exact classification_lookup (by decide)
  have hfree : ∀ q, q ≠ .discovery → l.cache.get? q key = none := by
    intro q hq
    cases q with
    | legacy => exact hl
    | declarative => exact hd
    | discovery => exact absurd rfl hq
  rw [run_classify_discovery hfixed hd hl]
  cases hs : l.cache.get? .discovery key with
  | none =>
    have hall : ∀ q, l.cache.get? q key = none := fun q => by
      cases q <;> assumption
    exact .absent (hall _) fun _ => hall
  | some s =>
    cases s with
    | poisoned e => exact .failed hs
    | loading id => exact .busy hs []
    | ready id =>
      dsimp only
      split
      · next hparsing => exact .used hs (.inr hparsing)
      · exact .adopted (settledPartition_ne _ _) hs hfree

theorem classification_of_run {fixed : Option Format} {unexposed : Bool} {r : Except LoadError CacheLookup}
    (h : l.run (classify key fixed unexposed) = (r, l')) : Classification l key r l' := by
  have hclass := classification l key fixed unexposed
  rwa [h] at hclass

namespace Classification

theorem graph_eq {r : Except LoadError CacheLookup} (h : Classification l key r l') : l'.graph = l.graph := by
  cases h <;> rfl

theorem error {e : LoadError} (h : Classification l key (.error e) l') :
    ∃ p, l.cache.get? p key = some (.poisoned e) := by
  generalize hr : (Except.error e : Except LoadError CacheLookup) = r at h
  cases h with
  | failed hs =>
    cases hr
    exact ⟨_, hs⟩
  | _ => cases hr

/-- An entry is found for a key because it is in progress, or loaded, or as a parse-only pass needs no more. -/
theorem hit (h : Classification l key (.ok (.hit id)) l') :
    (∃ p, l.Loading p key id) ∨ (l.graph.entry id).isLoaded = true ∨ l.cache.parsing = true := by
  generalize hr : (Except.ok (CacheLookup.hit id) : Except LoadError CacheLookup) = r at h
  cases h with
  | busy hs =>
    cases hr
    exact .inl ⟨_, hs⟩
  | used _ hu =>
    cases hr
    exact .inr hu
  | adopted _ _ =>
    split at hr
    · next hloaded =>
      cases hr
      exact .inr (.inl hloaded)
    · cases hr
  | _ => cases hr

/-- A module is evaluated in a slot that is ready, and not in discovery. Its entry was found in a ready slot of
the same key. -/
theorem evaluate (h : Classification l key (.ok (.evaluate p id)) l') :
    p ≠ .discovery ∧ l'.cache.get? p key = some (.ready id) ∧ ∃ q, l.cache.get? q key = some (.ready id) := by
  generalize hr : (Except.ok (CacheLookup.evaluate p id) : Except LoadError CacheLookup) = r at h
  cases h with
  | parsed hp hs =>
    cases hr
    exact ⟨hp, hs, _, hs⟩
  | adopted hp hs =>
    split at hr
    · cases hr
    · cases hr
      have hslot := (get?_committed (l := l.noted [.adopts key]) hs rfl p p key).trans (if_pos ⟨rfl, rfl⟩)
      exact ⟨hp, hslot, _, hs⟩
  | _ => cases hr

/-- Where there is no module, its slot is free, and in discovery so are all others of its key. -/
theorem miss (h : Classification l key (.ok (.miss p)) l') :
    l' = l ∧ l.cache.get? p key = none ∧ (p = .discovery → ∀ q, l.cache.get? q key = none) := by
  generalize hr : (Except.ok (CacheLookup.miss p) : Except LoadError CacheLookup) = r at h
  cases h with
  | absent hs hfree =>
    cases hr
    exact ⟨rfl, hs, hfree⟩
  | adopted => split at hr <;> cases hr
  | _ => cases hr

end Classification

/-- What a classification leaves to be evaluated is not loaded. -/
theorem unloaded_of_lookup {p q : Partition} {key : String}
    (h : (l.run (lookup p key)).1 = .ok (.evaluate q id)) : (l.graph.entry id).isLoaded = false := by
  cases hs : l.cache.get? p key with
  | none =>
    rw [run_lookup_of_none hs] at h
    cases h
  | some s =>
    cases s with
    | poisoned e =>
      rw [run_lookup_of_poisoned hs] at h
      cases h
    | loading other =>
      rw [run_lookup_of_loading hs] at h
      cases h
    | ready other =>
      rw [run_lookup_of_ready hs] at h
      dsimp only at h
      split at h
      · cases h
      · next hu =>
        cases h
        simp only [Bool.or_eq_true, not_or, Bool.not_eq_true] at hu
        exact hu.1

theorem unloaded_of_classify {key : String} {fixed : Option Format} {unexposed : Bool} {p : Partition}
    (h : (l.run (classify key fixed unexposed)).1 = .ok (.evaluate p id)) :
    (l.graph.entry id).isLoaded = false := by
  obtain hd | ⟨hfixed, hd, hl | hl⟩ := classify_cases l.cache key fixed
  · rw [run_classify_declarative hd] at h
    exact unloaded_of_lookup h
  · rw [run_classify_legacy hfixed hd hl] at h
    exact unloaded_of_lookup h
  rw [run_classify_discovery hfixed hd hl] at h
  split at h
  · cases h
  · cases h
  · cases h
  · split at h
    · cases h
    · dsimp only at h
      split at h
      · cases h
      · next hu =>
        cases h
        simpa using hu

theorem Balanced.of_classification {r : Except LoadError CacheLookup}
    (h : Classification l key r l') : Balanced l l' := by
  cases h with
  | failed => exact refl l
  | busy _ events => exact of_cache (.refl _) rfl
  | used => exact refl l
  | parsed => exact refl l
  | absent => exact refl l
  | @adopted p id hp hs hfree =>
    have hget := fun q k => get?_committed (l := l.noted [.adopts key]) hs rfl p q k
    intro hg
    refine ⟨hg.develop (.refl _) (fun {q k s id'} hslot hid => ?_) ?_, fun q k id' => ?_⟩
    · rw [hget] at hslot
      split at hslot
      · cases hslot
        exact hg.slot hs hid
      · split at hslot
        · cases hslot
        · exact hg.slot hslot hid
    · exact Cache.builtins_commit _ _ _
    · rw [Loading, hget]
      -- neither the slot that moves nor the place where it goes is marked
      split
      · next heq =>
        obtain ⟨rfl, rfl⟩ := heq
        simp [Loading, hfree p hp]
      · split
        · next heq =>
          obtain ⟨rfl, rfl⟩ := heq
          simp [Loading, hs]
        · exact Iff.rfl

/-! ## Seeking -/

/-- The slot of a module that is to be compiled is not marked; if it is in discovery, no slot of its key
is. -/
structure Vacant (l : Loader) (job : Job) : Prop where
  inRange : job.id < l.graph.size
  idle : ∀ id, ¬ l.Loading job.partition job.target.key id
  only : job.partition = .discovery → ∀ p id, ¬ l.Loading p job.target.key id

namespace Balanced

theorem builtin (name : String) : Follows Balanced (Loader.builtin name) := by
  intro l
  rw [run_builtin]
  unfold builtinOf
  cases hb : l.cache.builtins.get? name with
  | some id => exact refl l
  | none =>
    have hdev : l.graph.Develops (l.graph.add (l.builtinEntry name)).1 := .add _ _
    have hslots : ∀ p, (l.cache.setBuiltin name l.graph.size).slots p = l.cache.slots p := fun p => by
      cases p <;> rfl
    intro hg
    have hadded : Balanced l { l with graph := (l.graph.add (l.builtinEntry name)).1 } :=
      of_slots hdev (fun _ => rfl) rfl
    obtain ⟨hg', hs⟩ := hadded hg
    refine ⟨⟨fun {p key s id} hslot hid => ?_, fun {name' id} hget => ?_⟩, fun p key id => ?_⟩
    · rw [Cache.get?, hslots] at hslot
      have hold : l.cache.get? p key = some s := hslot
      exact hg'.slot hold hid
    · change (l.cache.builtins.insert name l.graph.size).get? name' = some id at hget
      rw [Table.get?_insert] at hget
      split at hget
      · cases hget
        exact ⟨by simp, congrArg Entry.isLoaded (Graph.entry_add_self l.graph (l.builtinEntry name))⟩
      · exact hg'.builtin hget
    · rw [Loading, Cache.get?, hslots]
      exact hs p key id

theorem link (referrer : Option Referrer) (request : String) (child : EntryId) :
    Follows Balanced (Loader.link referrer request child) := by
  cases referrer with
  | none => exact fun l => refl l
  | some r => exact updateEntry r.id fun e => ⟨rfl, rfl, fun h => h⟩

theorem seekTarget (request : String) (referrer : Option Referrer) (isMain : Bool) (target : Target) :
    Follows Balanced (Loader.seekTarget request referrer isMain target) := by
  refine (report _).bind fun _ => .bind (fun l => of_classification (classification l _ _ _)) fun found => ?_
  cases found with
  | hit id => exact (report _).bind fun _ => (link referrer request id).bind fun _ => .pure _
  | evaluate p id => exact .pure _
  | miss p => exact (addEntry _).bind fun _ => .pure _

theorem seek (request : String) (parent : Option EntryId) (isMain : Bool) :
    Follows Balanced (Loader.seek request parent isMain) := by
  have hparent : Follows Balanced (parent.mapM Loader.referrer) := fun l => by
    rw [run_referrers]
    exact refl l
  have hresolve : ∀ specifier referrer isMain,
      Follows Balanced (resolveSpecifier specifier referrer isMain) := fun _ _ _ l => by
    rw [run_resolveSpecifier]
    exact of_cache (.refl _) rfl
  refine hparent.bind fun r => (hresolve _ r isMain).bind fun found => ?_
  cases found with
  | builtin name => exact (builtin name).bind fun id => (link r request id).bind fun _ => .pure _
  | file filename =>
    refine .bind (fun l => ?_) fun _ => seekTarget _ _ _ _
    rw [run_packageOfFile]
    exact of_cache (.refl _) rfl

end Balanced

/-- A run of two actions that succeeds is two runs that do. -/
theorem run_bind_eq_ok {α β : Type} {action : LoadM α} {next : α → LoadM β} {b : β} :
    l.run (action >>= next) = (.ok b, l') ↔
      ∃ a l₁, l.run action = (.ok a, l₁) ∧ l₁.run (next a) = (.ok b, l') := by
  rw [run_bind]
  generalize l.run action = r
  obtain ⟨e | a, l₁⟩ := r
  · simp
  · simp only [andThen_ok, Prod.mk.injEq, Except.ok.injEq]
    constructor
    · exact fun h => ⟨a, l₁, ⟨rfl, rfl⟩, h⟩
    · rintro ⟨_, _, ⟨rfl, rfl⟩, h⟩
      exact h

theorem vacant_of_seekTarget {referrer : Option Referrer} {target : Target} (hg : l.Grounded)
    (h : l.run (seekTarget request referrer isMain target) = (.ok (.needs job), l')) :
    l'.Vacant job := by
  obtain ⟨-, -, -, rfl, hrun | ⟨l₁, hrun, hid, rfl⟩⟩ := needs_of_seekTarget h
  · have hclass := classification_of_run hrun
    obtain ⟨hp, hslot, -⟩ := hclass.evaluate
    have hg' := (Balanced.of_classification hclass (by exact ⟨hg.slot, hg.builtin⟩)).1
    refine ⟨hg'.slot hslot rfl, fun id hid => ?_, fun hd => absurd hd hp⟩
    rw [Loading, hslot] at hid
    cases hid
  · obtain ⟨rfl, hnone, hfree⟩ := (classification_of_run hrun).miss
    refine ⟨hid ▸ Nat.lt_of_lt_of_eq (Nat.lt_succ_self _) (Graph.size_add _ _).symm, fun id hid => ?_,
      fun hd q id hid => ?_⟩
    · rw [Loading, hnone] at hid
      cases hid
    · rw [Loading, hfree hd] at hid
      cases hid

/-- Where a request needs a module compiled, its slot is there for the taking. -/
theorem vacant_of_seek (hg : l.Grounded)
    (h : l.run (seek request parent isMain) = (.ok (.needs job), l')) : l'.Vacant job := by
  rw [run_seek_eq] at h
  dsimp only at h
  split at h
  · cases h
  · cases h
  · refine vacant_of_seekTarget ?_ h
    exact ⟨hg.slot, hg.builtin⟩

/-! ## Compiling -/

theorem get?_occupied (l : Loader) (job : Job) (q : Partition) (k : String) :
    (l.occupied job).cache.get? q k =
      if job.partition = q ∧ job.target.key = k then some (.loading job.id) else l.cache.get? q k := by
  rw [← Cache.get?_set]
  unfold occupied
  split
  · cases q <;> rfl
  · rfl

theorem get?_vacated (l : Loader) (job : Job) (e : LoadError) (q : Partition) (k : String) :
    (l.vacated job e).cache.get? q k =
      if job.partition = q ∧ job.target.key = k then
        if job.partition.isCommitted then some (.poisoned e) else none
      else l.cache.get? q k := by
  unfold vacated
  split
  · exact Cache.get?_set _ _ _ _ _ _
  · next hp =>
    have hd : job.partition = .discovery := by
      cases hq : job.partition <;> simp_all [Partition.isCommitted]
    rw [hd]
    exact Cache.get?_delete _ _ _ _ _

theorem get?_concluded (h : l.Loading job.partition job.target.key job.id) (q : Partition) (k : String) :
    (l.concluded job).cache.get? q k =
      if l.finalPartition job = q ∧ job.target.key = k then some (.ready job.id)
      else if job.partition = q ∧ job.target.key = k then none else l.cache.get? q k := by
  rw [Cache.get?, slots_concluded]
  change (l.settled job).cache.get? q k = _
  unfold settled
  dsimp only
  rw [Cache.get?_set]
  split
  · rfl
  · next hfinal =>
    split
    · next hmoves =>
      have hd : job.partition = .discovery := by simp_all
      rw [Loading, hd] at h
      rw [hd, ← Cache.get?_delete, Cache.commit, h]
      dsimp only [Slot.entry?]
      rw [Cache.get?_set, if_neg hfinal]
    · next hmoves =>
      have hsame : l.finalPartition job = job.partition := by
        unfold finalPartition
        simp [hmoves]
      rw [if_neg (hsame ▸ hfinal)]

/-- A slot after a module took its own is that one, or was there before. -/
theorem slot_of_occupied (h : (l.occupied job).cache.get? q k = some s) :
    (job.partition = q ∧ job.target.key = k) ∧ s = .loading job.id ∨
      ¬ (job.partition = q ∧ job.target.key = k) ∧ l.cache.get? q k = some s := by
  rw [get?_occupied] at h
  split at h
  · next hown => exact .inl ⟨hown, (Option.some.inj h).symm⟩
  · next hother => exact .inr ⟨hother, h⟩

/-- A slot after a module gave up its own is that one, with its error, or was there before. -/
theorem slot_of_vacated {e : LoadError} (h : (l.vacated job e).cache.get? q k = some s) :
    (job.partition = q ∧ job.target.key = k) ∧ s = .poisoned e ∨
      ¬ (job.partition = q ∧ job.target.key = k) ∧ l.cache.get? q k = some s := by
  rw [get?_vacated] at h
  split at h
  · next hown =>
    split at h <;> cases h
    exact .inl ⟨hown, rfl⟩
  · next hother => exact .inr ⟨hother, h⟩

/-- A slot after a module is done is that to which the module moved, or was there before. -/
theorem slot_of_concluded (hin : l.Loading job.partition job.target.key job.id)
    (h : (l.concluded job).cache.get? q k = some s) :
    (l.finalPartition job = q ∧ job.target.key = k) ∧ s = .ready job.id ∨
      ¬ (job.partition = q ∧ job.target.key = k) ∧ l.cache.get? q k = some s := by
  rw [get?_concluded hin] at h
  split at h
  · next hfinal => exact .inl ⟨hfinal, (Option.some.inj h).symm⟩
  · split at h
    · cases h
    · next hother => exact .inr ⟨hother, h⟩

theorem develops_concluded (h : l.Loading job.partition job.target.key job.id) :
    l.graph.Develops (l.concluded job).graph := by
  have hconclude := Evolves.respects.conclude job l
  rw [run_conclude_of_get? h] at hconclude
  exact hconclude.graph

theorem develops_vacated (l : Loader) (job : Job) (e : LoadError) :
    l.graph.Develops (l.vacated job e).graph := by
  unfold vacated
  split <;> exact .refl _

theorem builtins_vacated (l : Loader) (job : Job) (e : LoadError) :
    (l.vacated job e).cache.builtins = l.cache.builtins := by
  unfold vacated
  split
  · exact Cache.builtins_set _ _ _ _
  · exact Cache.builtins_delete _ _ _

theorem builtins_occupied (l : Loader) (job : Job) : (l.occupied job).cache.builtins = l.cache.builtins := by
  unfold Loader.occupied
  split <;> simp

theorem Grounded.occupied (hg : l.Grounded) (hv : l.Vacant job) : (l.occupied job).Grounded := by
  have hsize := size_occupied l job
  refine ⟨fun {p key s id} hslot hid => ?_, fun {name id} hget => ?_⟩
  · rw [hsize]
    obtain ⟨-, rfl⟩ | ⟨-, hslot⟩ := slot_of_occupied hslot
    · cases hid
      exact hv.inRange
    · exact hg.slot hslot hid
  · rw [builtins_occupied] at hget
    rw [hsize, (entry_occupied l job id).2.1]
    exact hg.builtin hget

theorem Grounded.vacated (hg : l.Grounded) (job : Job) (e : LoadError) : (l.vacated job e).Grounded := by
  refine hg.develop (develops_vacated l job e) (fun {q k s id} hslot hid => ?_) (builtins_vacated l job e)
  refine Nat.lt_of_lt_of_le ?_ (develops_vacated l job e).size
  obtain ⟨-, rfl⟩ | ⟨-, hslot⟩ := slot_of_vacated hslot
  · cases hid
  · exact hg.slot hslot hid

theorem Grounded.concluded (hg : l.Grounded) (h : l.Loading job.partition job.target.key job.id) :
    (l.concluded job).Grounded := by
  refine hg.develop (develops_concluded h) (fun {q k s id} hslot hid => ?_) (builtins_concluded l job)
  refine Nat.lt_of_lt_of_le ?_ (develops_concluded h).size
  obtain ⟨-, rfl⟩ | ⟨-, hslot⟩ := slot_of_concluded h hslot
  · cases hid
    exact hg.slot h rfl
  · exact hg.slot hslot hid

/-! ## Marks -/

/-- A slot that is given up is not marked any more. -/
theorem loading_vacated {e : LoadError} : (l.vacated job e).Loading q k id ↔
    ¬ (job.partition = q ∧ job.target.key = k) ∧ l.Loading q k id := by
  rw [Loading, get?_vacated]
  split
  · next hown =>
    refine iff_of_false ?_ fun h => h.1 hown
    split <;> simp
  · next hother => exact (and_iff_right hother).symm

/-- Neither the slot of a module that is done is marked nor the one to which it moves. -/
theorem loading_concluded (h : l.Loading job.partition job.target.key job.id) : (l.concluded job).Loading q k id ↔
    ¬ (l.finalPartition job = q ∧ job.target.key = k) ∧ ¬ (job.partition = q ∧ job.target.key = k) ∧
      l.Loading q k id := by
  rw [Loading, get?_concluded h]
  split
  · next hfinal => exact iff_of_false (by simp) fun h => h.1 hfinal
  · next hfinal =>
    split
    · next hown => exact iff_of_false (by simp) fun h => h.2.1 hown
    · next hother => exact ((and_iff_right hfinal).trans (and_iff_right hother)).symm

/-- A module that takes another slot in the end moves there from the discoveries. -/
theorem partition_of_moves (h : l.finalPartition job ≠ job.partition) : job.partition = .discovery := by
  by_contra hne
  refine h ?_
  unfold finalPartition
  simp [hne]

namespace Balanced

theorem prepare {nested : NestedLoad} (hn : ∀ request id, Follows Balanced (nested request id)) (id : EntryId)
    (filename : Path) : Follows Balanced (Loader.prepare nested id filename) := by
  refine ((compiles id).beginCompile filename).bind fun c => Follows.bind ?_ fun _ => .pure c
  refine ends_self.mp ((compiles id).runTask .self (fun request => ends_self.mpr (hn request id)) filename ?_)
  exact Task.within_of_all report (fun _ => trivial) (fun _ => trivial) c.task

/-- What keeps the marks leaves that of a module which is compiled, and all others as they were before. -/
theorem loading_of_occupied (h : Balanced (l.occupied job) l') (hg : l.Grounded) (hv : l.Vacant job) :
    l'.Grounded ∧ l'.Loading job.partition job.target.key job.id ∧
      ∀ {q k id}, ¬ (job.partition = q ∧ job.target.key = k) → (l'.Loading q k id ↔ l.Loading q k id) := by
  obtain ⟨hg', hmarks⟩ := h (hg.occupied hv)
  refine ⟨hg', (hmarks _ _ _).mpr ((get?_occupied l job _ _).trans (if_pos ⟨rfl, rfl⟩)), fun hother => ?_⟩
  rw [hmarks, Loading, get?_occupied, if_neg hother, Loading]

/-- A module whose compiler is done has its slot marked. -/
theorem loading_of_prepare {nested : NestedLoad} (hn : ∀ request id, Follows Balanced (nested request id))
    (hg : l.Grounded) (hv : l.Vacant job) {r : Except LoadError Compilation}
    (h : (l.occupied job).run (Loader.prepare nested job.id job.target.filename) = (r, l')) :
    l'.Grounded ∧ l'.Loading job.partition job.target.key job.id := by
  have hprepared := prepare hn job.id job.target.filename (l.occupied job)
  rw [h] at hprepared
  obtain ⟨hg', hin, -⟩ := loading_of_occupied hprepared hg hv
  exact ⟨hg', hin⟩

/-- A compilation is a preparation in a slot that is marked, and leaves the slot to the module or to the
error. -/
theorem run_perform {nested : NestedLoad} (hn : ∀ request id, Follows Balanced (nested request id))
    (hg : l.Grounded) (hv : l.Vacant job) :
    l.run (Loader.perform nested job) =
      match (l.occupied job).run (Loader.prepare nested job.id job.target.filename) with
      | (.error e, l₂) => (.error e, l₂.vacated job e)
      | (.ok c, l₂) => (.ok job.id, (l₂.marked job.id job.target.filename c).concluded job) := by
  have hprepared : ∀ r l₂, (l.occupied job).run (Loader.prepare nested job.id job.target.filename) = (r, l₂) →
      l₂.Grounded ∧ l₂.Loading job.partition job.target.key job.id := fun r l₂ => loading_of_prepare hn hg hv
  unfold Loader.perform
  rw [run_bind, run_occupy, andThen_ok, run_bind, run_onError, compile_eq, run_bind]
  generalize (l.occupied job).run (Loader.prepare nested job.id job.target.filename) = r at hprepared ⊢
  obtain ⟨e | c, l₂⟩ := r
  · have hin := (hprepared _ _ rfl).2
    dsimp only [andThen_error]
    rw [run_vacate_of_get? hin]
    rfl
  · have hin : (l₂.marked job.id job.target.filename c).Loading job.partition job.target.key job.id :=
      (hprepared _ _ rfl).2
    dsimp only [andThen_ok]
    rw [run_endCompile]
    dsimp only [andThen_ok]
    rw [run_bind, run_conclude_of_get? hin]
    rfl

/-- The mark of a module that fails is taken away, and was not there before. -/
theorem vacated (h : Balanced (l.occupied job) l') (hv : l.Vacant job) (e : LoadError) :
    Balanced l (l'.vacated job e) := by
  intro hg
  obtain ⟨hg', -, hothers⟩ := loading_of_occupied h hg hv
  refine ⟨hg'.vacated job e, fun q k id => loading_vacated.trans ?_⟩
  by_cases hown : job.partition = q ∧ job.target.key = k
  · obtain ⟨rfl, rfl⟩ := hown
    exact iff_of_false (fun h => h.1 ⟨rfl, rfl⟩) (hv.idle id)
  · exact (and_iff_right hown).trans (hothers hown)

/-- The mark of a module that is done is taken away, and was not there before. Where the module moves, there was no
mark either. -/
theorem concluded (h : Balanced (l.occupied job) l') (hv : l.Vacant job) : Balanced l (l'.concluded job) := by
  intro hg
  obtain ⟨hg', hin, hothers⟩ := loading_of_occupied h hg hv
  refine ⟨hg'.concluded hin, fun q k id => (loading_concluded hin).trans ?_⟩
  by_cases hown : job.partition = q ∧ job.target.key = k
  · obtain ⟨rfl, rfl⟩ := hown
    exact iff_of_false (fun h => h.2.1 ⟨rfl, rfl⟩) (hv.idle id)
  by_cases hfinal : l'.finalPartition job = q ∧ job.target.key = k
  · obtain ⟨rfl, rfl⟩ := hfinal
    have hmoves : l'.finalPartition job ≠ job.partition := fun heq => hown ⟨heq.symm, rfl⟩
    exact iff_of_false (fun h => h.1 ⟨rfl, rfl⟩) (hv.only (partition_of_moves hmoves) _ id)
  · exact (and_iff_right hfinal).trans ((and_iff_right hown).trans (hothers hown))

/-- The marking of a slot and its release balance each other. -/
theorem perform {nested : NestedLoad} (hn : ∀ request id, Follows Balanced (nested request id))
    (hv : l.Vacant job) : Balanced l (l.run (Loader.perform nested job)).2 := by
  intro hg
  have hcompile := (compiles job.id).compile report (updateEntry job.id fun _ => ⟨rfl, rfl, fun _ => rfl⟩)
    (fun request => hn request job.id) job.target.filename (l.occupied job)
  unfold Loader.perform
  rw [run_bind, run_occupy, andThen_ok, run_bind, run_onError]
  generalize (l.occupied job).run (compile nested job.id job.target.filename) = r at hcompile ⊢
  obtain ⟨result, l₂⟩ := r
  obtain ⟨-, hin, -⟩ := loading_of_occupied hcompile hg hv
  cases result with
  | error e =>
    dsimp only
    rw [run_vacate_of_get? hin]
    exact vacated hcompile hv e hg
  | ok _ =>
    dsimp only
    rw [andThen_ok, run_bind, run_conclude_of_get? hin]
    exact concluded hcompile hv hg

theorem answer {nested : NestedLoad} (hn : ∀ request id, Follows Balanced (nested request id))
    (request : String) (parent : Option EntryId) (isMain : Bool) :
    Follows Balanced (Loader.answer nested request parent isMain) := fun l hg =>
  Follows.rel_answer (seek request parent isMain l) (fun hr => perform hn (vacant_of_seek hg hr)) hg

/-- Nested loads leave no marks, however deep they go. -/
theorem loadNested (limit : Nat) (request : String) (id : EntryId) :
    Follows Balanced (Loader.loadNested limit request id) :=
  .loadNested (fun _ => report) (fun _ ih request id => answer ih request (some id) false) limit request id

theorem load (request : String) (parent : Option EntryId) (isMain : Bool) :
    Follows Balanced (Loader.load request parent isMain) :=
  Follows.get.bind fun _ => .reported report (answer (loadNested _) request parent isMain) request

theorem withParsing (l : Loader) (parsing : Bool) : Balanced l (l.withParsing parsing) :=
  of_slots (.refl _) (fun p => by cases p <;> rfl) rfl

theorem discover (request : String) (parent : Option EntryId) :
    Follows Balanced (Loader.discover request parent) := by
  intro l
  rw [run_discover]
  exact (withParsing l true).trans ((load request parent false _).trans (withParsing _ _))

end Balanced

/-! ## Answers -/

theorem isLoaded_linked (l : Loader) (referrer : Option Referrer) (request : String) (child id : EntryId) :
    ((l.linked referrer request child).graph.entry id).isLoaded = (l.graph.entry id).isLoaded := by
  cases referrer with
  | none => rfl
  | some r =>
    exact (Entry.Spared.update l.graph r.id (f := fun e => e.addChild request child)
      (fun e => ⟨rfl, rfl, rfl, rfl, rfl⟩) id).isLoaded

/-- Where no slot is marked and no parse-only pass runs, what is found is loaded. -/
theorem isLoaded_of_seekTarget {referrer : Option Referrer} {target : Target}
    (hidle : ∀ p key id, ¬ l.Loading p key id) (hparsing : l.cache.parsing = false)
    (h : l.run (seekTarget request referrer isMain target) = (.ok (.found id), l')) :
    (l'.graph.entry id).isLoaded = true := by
  rw [run_seekTarget_eq] at h
  generalize hrun : (l.noted [.enters target.key .classifying]).run (classify _ _ _) = r at h
  obtain ⟨e | c, l₁⟩ := r
  · cases h
  have hclass := classification_of_run hrun
  cases c with
  | evaluate p id => cases h
  | miss p => cases h
  | hit id' =>
    cases h
    rw [isLoaded_linked]
    change (l₁.graph.entry id).isLoaded = true
    rw [hclass.graph_eq]
    obtain ⟨p, hloading⟩ | hloaded | hpass := hclass.hit
    · exact absurd hloading (hidle p _ _)
    · exact hloaded
    · exact absurd (hparsing.symm.trans hpass) Bool.false_ne_true

theorem isLoaded_of_builtinOf (hg : l.Grounded) (name : String) :
    ((l.builtinOf name).2.graph.entry (l.builtinOf name).1).isLoaded = true := by
  have hgrounded := (Balanced.builtin name l hg).1
  rw [run_builtin] at hgrounded
  have hget : (l.builtinOf name).2.cache.builtins.get? name = some (l.builtinOf name).1 := by
    unfold builtinOf
    cases hb : l.cache.builtins.get? name with
    | some id => exact hb
    | none => exact Table.get?_insert_self _ _ _
  exact (hgrounded.builtin hget).2

theorem isLoaded_of_seek (hg : l.Grounded) (hidle : ∀ p key id, ¬ l.Loading p key id)
    (hparsing : l.cache.parsing = false)
    (h : l.run (seek request parent isMain) = (.ok (.found id), l')) :
    (l'.graph.entry id).isLoaded = true := by
  rw [run_seek_eq] at h
  dsimp only at h
  split at h
  · cases h
  · next name _ =>
    cases h
    rw [isLoaded_linked]
    refine isLoaded_of_builtinOf ?_ name
    exact ⟨hg.slot, hg.builtin⟩
  · refine isLoaded_of_seekTarget ?_ ?_ h
    · exact hidle
    · exact hparsing

/-- A module that was compiled outside of a parse-only pass is loaded. -/
theorem isLoaded_of_perform {nested : NestedLoad}
    (hn : ∀ request id, Follows Balanced (nested request id)) (hg : l.Grounded) (hv : l.Vacant job)
    (hparsing : l.cache.parsing = false) (h : l.run (perform nested job) = (.ok id, l')) :
    (l'.graph.entry id).isLoaded = true := by
  rw [Balanced.run_perform hn hg hv] at h
  generalize hr : (l.occupied job).run (prepare nested job.id job.target.filename) = r at h
  obtain ⟨e | c, l₂⟩ := r
  · cases h
  · cases h
    obtain ⟨hg₂, hin⟩ := Balanced.loading_of_prepare hn hg hv hr
    have hc : c.parsing = false := by
      rw [(compiled_of_prepare hr).1]
      unfold compilation occupied
      split <;> simpa using hparsing
    rw [(entry_concluded _ job job.id).isLoaded]
    exact isLoaded_marked l₂ _ (hg₂.slot hin rfl) hc

/-! ## Between calls -/

/-- No module is in progress. -/
structure Idle (l : Loader) : Prop extends Grounded l where
  unmarked : ∀ p key id, ¬ l.Loading p key id
  parsing : l.cache.parsing = false

/-- An entry that is put into a slot from outside is one that there is. -/
def Sensible (l : Loader) : Operation → Prop
  | .replaceCached _ _ id => id < l.graph.size
  | _ => True

theorem Idle.of_balanced (h : l.Idle) (hb : Balanced l l') (hparsing : l'.cache.parsing = l.cache.parsing) :
    l'.Idle := by
  obtain ⟨hg, hs⟩ := hb h.toGrounded
  exact { hg with
    unmarked := fun p key id hl => h.unmarked p key id ((hs p key id).mp hl)
    parsing := hparsing.trans h.parsing }

/-- Fewer slots for the same entries. -/
theorem Idle.of_fewer (h : l.Idle) (hg : l'.graph = l.graph) (hb : l'.cache.builtins = l.cache.builtins)
    (hparsing : l'.cache.parsing = l.cache.parsing)
    (hs : ∀ {p key s}, l'.cache.get? p key = some s → l.cache.get? p key = some s) : l'.Idle where
  toGrounded := h.toGrounded.develop (hg ▸ .refl _) (fun hslot hid => hg ▸ h.slot (hs hslot) hid) hb
  unmarked p key id hl := h.unmarked p key id (hs hl)
  parsing := hparsing.trans h.parsing

theorem Idle.after {op : Operation} (h : l.Idle) (hop : l.Sensible op) : (l.after op).Idle := by
  cases op with
  | load request parent isMain =>
    exact h.of_balanced (Balanced.load request parent isMain l)
      (Evolves.respects.load request parent isMain l).cache.parsing
  | discover request parent =>
    refine h.of_balanced (Balanced.discover request parent l) ?_
    rw [Loader.after, run_discover]
    rfl
  | resolve request parent =>
    rw [Loader.after, run_resolve]
    exact h.of_balanced (.of_cache (.refl _) rfl) rfl
  | invalidate key =>
    have hinvalidate : ∀ c : Cache, (c.invalidate key).builtins = c.builtins ∧
        (c.invalidate key).parsing = c.parsing := fun c => by
      simp [Cache.invalidate, Partition.all]
    exact h.of_fewer rfl (hinvalidate _).1 (hinvalidate _).2 get?_of_invalidate
  | clearCache => exact h.of_fewer rfl rfl rfl fun {p key s} hs => by cases p <;> cases hs
  | registerBuiltin name exports =>
    obtain ⟨hsize, hretains⟩ := l.retains_registerBuiltin name exports
    exact h.of_balanced (.of_cache ⟨Nat.le_of_eq hsize.symm, fun _ => .of_retains (hretains _)⟩ rfl) rfl
  | registerCompiler extension c => exact h.of_balanced (.of_cache (.refl _) rfl) rfl
  | replaceCached p key id =>
    have hget := fun q k => Cache.get?_set l.cache p q key k (.ready id)
    have hbuiltins : (l.cache.set p key (.ready id)).builtins = l.cache.builtins := Cache.builtins_set _ _ _ _
    refine ⟨⟨fun {q k s id'} hslot hid => ?_, fun hb => h.builtin (hbuiltins ▸ hb)⟩, fun q k id' hl => ?_, ?_⟩
    · change (l.cache.set p key (.ready id)).get? q k = some s at hslot
      rw [hget] at hslot
      split at hslot
      · cases hslot
        cases hid
        exact hop
      · exact h.slot hslot hid
    · change (l.cache.set p key (.ready id)).get? q k = some (.loading id') at hl
      rw [hget] at hl
      split at hl
      · cases hl
      · exact h.unmarked q k id' hl
    · exact (Cache.parsing_set _ _ _ _).trans h.parsing
  | changeFiles fs => exact h.of_balanced (.of_cache (.refl _) rfl) rfl

theorem idle_of_empty (h : l.cache = .empty) : l.Idle := by
  have hget : ∀ p key, l.cache.get? p key = none := fun p key => by
    rw [h]
    cases p <;> rfl
  refine ⟨⟨fun hslot => ?_, fun hb => ?_⟩, fun p key id hl => ?_, ?_⟩
  · rw [hget] at hslot
    cases hslot
  · rw [h] at hb
    cases hb
  · rw [Loading, hget] at hl
    cases hl
  · rw [h]
    rfl

end Loader

/-! ## Inside of a call -/

namespace Moment

open Loader

/-- The slots that are marked are those of some modules. -/
def Marks (l : Loader) (jobs : List Job) : Prop :=
  ∀ p key id, l.Loading p key id ↔
    ∃ job ∈ jobs, job.partition = p ∧ job.target.key = key ∧ job.id = id

/-- At a moment the slots that are marked are those of the modules on the stack. -/
structure Stacked (m : Moment) : Prop where
  grounded : m.loader.Grounded
  marks : Marks m.loader m.stack

/-- A module that is compiled has its slot marked besides those on the stack, step by step. -/
theorem Stacked.compiling {m : Moment} (h : m.Stacked) {job : Job} {t : Task} {l : Loader}
    (hc : m.Compiling job t l) : l.Grounded ∧ Marks l (job :: m.stack) := by
  cases hc with
  | @intro c _ l₁ l₂ l₃ _ hseek hoccupy hbegin htask =>
    have hreport := Balanced.report (.enters m.request .resolving) m.loader
    rw [run_bind, run_report, andThen_ok] at hseek
    change (m.loader.noted [.enters m.request .resolving]).run _ = _ at hseek
    obtain ⟨hg₀, h₀⟩ := hreport h.grounded
    have hsought := Balanced.seek m.request m.parent m.isMain (m.loader.noted [.enters m.request .resolving])
    rw [hseek] at hsought
    obtain ⟨hg₁, h₁⟩ := hsought hg₀
    have hvacant : l₁.Vacant job := vacant_of_seek hg₀ hseek
    rw [run_occupy] at hoccupy
    cases hoccupy
    have hbegun := (Balanced.compiles job.id).beginCompile job.target.filename (l₁.occupied job)
    rw [hbegin] at hbegun
    have hran : Balanced l₃ l := rel_of_taskSteps (Balanced.compiles job.id) Balanced.report
      (fun request => Balanced.loadNested m.limit request job.id) htask
    obtain ⟨hg, hs⟩ := (hbegun.trans hran) (hg₁.occupied hvacant)
    refine ⟨hg, fun p key id => (hs p key id).trans ?_⟩
    rw [Loading, get?_occupied]
    split
    · next heq =>
      refine ⟨fun hid => ?_, ?_⟩
      · cases hid
        exact ⟨job, List.mem_cons_self, heq.1, heq.2, rfl⟩
      · rintro ⟨other, hmem, rfl, rfl, rfl⟩
        rcases List.mem_cons.mp hmem with rfl | hmem
        · rfl
        · -- the slot was not marked before, so no module on the stack has it
          have hother := (h₁ _ _ _).mpr ((h₀ _ _ _).mpr ((h.marks _ _ _).mpr ⟨other, hmem, rfl, rfl, rfl⟩))
          rw [← heq.1, ← heq.2] at hother
          exact absurd hother (hvacant.idle _)
    · next hne =>
      refine (h₁ p key id).trans ((h₀ p key id).trans ((h.marks p key id).trans ?_))
      constructor
      · rintro ⟨other, hmem, hother⟩
        exact ⟨other, List.mem_cons_of_mem _ hmem, hother⟩
      · rintro ⟨other, hmem, hp, hkey, hid⟩
        rcases List.mem_cons.mp hmem with rfl | hmem
        · exact absurd ⟨hp, hkey⟩ hne
        · exact ⟨other, hmem, hp, hkey, hid⟩

theorem Stacked.of_asks {m m' : Moment} (h : m.Stacked) (ha : ReflTransGen Asks m m') : m'.Stacked := by
  induction ha with
  | refl => exact h
  | tail _ hstep ih =>
    obtain ⟨limit, job, request, next, l, -, hc, rfl⟩ := asks_iff.mp hstep
    obtain ⟨hg, hmarks⟩ := ih.compiling hc
    exact ⟨hg, hmarks⟩

end Moment

namespace Loader

variable {l : Loader}

theorem Idle.stacked_of_comesTo {op : Operation} {m : Moment} (h : l.Idle) (hm : l.ComesTo op m) :
    m.Stacked := by
  have hnone : ∀ l' : Loader, Balanced l l' → l'.Grounded ∧ Moment.Marks l' [] := by
    intro l' hb
    obtain ⟨hg, hs⟩ := hb h.toGrounded
    refine ⟨hg, fun p key id => iff_of_false (fun hl => h.unmarked p key id ((hs _ _ _).mp hl)) ?_⟩
    rintro ⟨job, hmem, -⟩
    cases hmem
  obtain ⟨first, hfirst, hasks⟩ := hm
  refine Moment.Stacked.of_asks ?_ hasks
  unfold beginning? at hfirst
  split at hfirst
  · obtain rfl := Option.some.inj hfirst
    exact ⟨(hnone l (.refl l)).1, (hnone l (.refl l)).2⟩
  · obtain rfl := Option.some.inj hfirst
    exact ⟨(hnone _ (.withParsing l true)).1, (hnone _ (.withParsing l true)).2⟩
  · cases hfirst

theorem Idle.isLoaded_of_load (h : l.Idle) {request : String} {parent : Option EntryId} {isMain : Bool}
    {id : EntryId} (hid : (l.run (load request parent isMain)).1 = .ok id) :
    ((l.run (load request parent isMain)).2.graph.entry id).isLoaded = true := by
  unfold load at hid ⊢
  rw [run_bind, run_get, andThen_ok, run_reported] at hid ⊢
  have hanswer : ∀ l', (l.noted [.enters request .resolving]).run
      (answer (loadNested (l.nestingBound request)) request parent isMain) = (.ok id, l') →
      (l'.graph.entry id).isLoaded = true := by
    intro l' hrun
    have hg : (l.noted [.enters request .resolving]).Grounded := ⟨h.slot, h.builtin⟩
    unfold answer at hrun
    obtain ⟨found, l₁, hseek, hnext⟩ := run_bind_eq_ok.mp hrun
    cases found with
    | found id' =>
      cases hnext
      exact isLoaded_of_seek hg h.unmarked h.parsing hseek
    | needs job =>
      have hsought := Balanced.seek request parent isMain (l.noted [.enters request .resolving]) hg
      have hevolves := Evolves.respects.seek request parent isMain (l.noted [.enters request .resolving])
      rw [hseek] at hsought hevolves
      exact isLoaded_of_perform (Balanced.loadNested _) hsought.1 (vacant_of_seek hg hseek)
        (hevolves.cache.parsing.trans h.parsing) hnext
  generalize (l.noted [.enters request .resolving]).run _ = r at hid hanswer ⊢
  obtain ⟨e | id', l'⟩ := r
  · cases hid
  · cases hid
    exact hanswer l' rfl

/-- Between calls no slot is marked as loading and no parse-only pass runs, and what a load returns is
loaded. During a call the slots that are marked are those of the modules on the call stack. -/
theorem loading_iff_of_reachable (h : Reachable (fun l => l.cache = .empty) Sensible l) :
    (∀ p key id, l.cache.get? p key ≠ some (.loading id)) ∧ l.cache.parsing = false ∧
    (∀ request parent isMain id, (l.run (load request parent isMain)).1 = .ok id →
      ((l.after (.load request parent isMain)).graph.entry id).isLoaded = true) ∧
    ∀ op m, l.ComesTo op m →
      (∀ p key id, m.loader.cache.get? p key = some (.loading id) ↔
        ∃ job ∈ m.stack, job.partition = p ∧ job.target.key = key ∧ job.id = id) ∧
      ∀ job t l', m.Compiling job t l' → ∀ p key id, l'.cache.get? p key = some (.loading id) ↔
        ∃ job' ∈ job :: m.stack, job'.partition = p ∧ job'.target.key = key ∧ job'.id = id := by
  have hidle : l.Idle := h.invariant (fun _ => idle_of_empty) fun _ _ hl hop => hl.after hop
  refine ⟨hidle.unmarked, hidle.parsing, fun _ _ _ _ hid => hidle.isLoaded_of_load hid, ?_⟩
  intro op m hm
  have hstacked := hidle.stacked_of_comesTo hm
  exact ⟨hstacked.marks, fun job t l' hc => (hstacked.compiling hc).2⟩

theorem loading_iff_circular :
    let l := (circular.after (.load "./a.js" none true)).after (.replaceCached .discovery "/app/b.js" 0)
    (∀ p key id, l.cache.get? p key ≠ some (.loading id)) ∧ l.cache.parsing = false ∧
    (∀ request parent isMain id, (l.run (load request parent isMain)).1 = .ok id →
      ((l.after (.load request parent isMain)).graph.entry id).isLoaded = true) ∧
    ∀ op m, l.ComesTo op m →
      (∀ p key id, m.loader.cache.get? p key = some (.loading id) ↔
        ∃ job ∈ m.stack, job.partition = p ∧ job.target.key = key ∧ job.id = id) ∧
      ∀ job t l', m.Compiling job t l' → ∀ p key id, l'.cache.get? p key = some (.loading id) ↔
        ∃ job' ∈ job :: m.stack, job'.partition = p ∧ job'.target.key = key ∧ job'.id = id :=
  loading_iff_of_reachable (.after (.after (.start rfl) trivial)
    (show 0 < (circular.after (.load "./a.js" none true)).graph.size by decide +kernel))

end Loader
end ModGraph
