import ModGraph.Proofs.Failures

/-!
# Errors last

Once a key is poisoned, whatever leads to it fails with the same error, until the key is dropped or its slot
is replaced (`Loader.poisoned_of_reachable`). Slots may be put anywhere from outside, so a key may have
several. What counts is the one that requests meet (`Cache.Governs`): as long as it is poisoned or in
progress, no load makes another one that would be met before it, and a slot that becomes poisoned is the one
that is met (`Loader.Upholds`).
-/

namespace ModGraph

open Relation (ReflTransGen)

/-! ## The slot that is met -/

namespace Cache

variable {c c' : Cache} {p q : Partition} {key : String} {s s' : Slot}

/-- A slot for a key in a partition would be the one that requests meet. -/
def Rules (c : Cache) (p : Partition) (key : String) : Prop :=
  match p with
  | .declarative => True
  | .legacy => ¬ IsDeclarativeKey key ∧ c.get? .declarative key = none
  | .discovery => ¬ IsDeclarativeKey key ∧ c.get? .declarative key = none ∧ c.get? .legacy key = none

/-- A slot is the one that requests for a key meet. -/
structure Governs (c : Cache) (p : Partition) (key : String) (s : Slot) : Prop where
  get : c.get? p key = some s
  rules : c.Rules p key

theorem Rules.congr (h : c.Rules p key) (hget : ∀ q, q ≠ p → c'.get? q key = c.get? q key) :
    c'.Rules p key := by
  cases p with
  | declarative => trivial
  | legacy => exact ⟨h.1, (hget .declarative (by decide)).trans h.2⟩
  | discovery =>
    exact ⟨h.1, (hget .declarative (by decide)).trans h.2.1, (hget .legacy (by decide)).trans h.2.2⟩

theorem Governs.congr (h : c.Governs p key s) (hget : ∀ q, c'.get? q key = c.get? q key) :
    c'.Governs p key s :=
  ⟨(hget p).trans h.get, h.rules.congr fun q _ => hget q⟩

/-- Requests meet one slot. -/
theorem Governs.unique (h : c.Governs p key s) (h' : c.Governs q key s') : p = q ∧ s = s' := by
  have hp : p = q := by
    obtain ⟨hs, hr⟩ := h
    obtain ⟨hs', hr'⟩ := h'
    cases p <;> cases q <;> simp_all [Rules]
  subst hp
  exact ⟨rfl, Option.some.inj (h.get.symm.trans h'.get)⟩

end Cache

/-- Whether an event says that a module is compiled or that a source is read. -/
def Event.isWork : Event → Bool
  | readsSource _ | compilesIn _ _ | compiles _ => true
  | _ => false

/-- A slot that no load replaces but its own: an error, or a module in progress. -/
def Slot.Sticks : Slot → Prop
  | .ready _ => False
  | _ => True

namespace Loader

variable {l l' l₀ : Loader} {job : Job} {p q : Partition} {key request : String} {id : EntryId} {s : Slot}
  {parent : Option EntryId} {isMain : Bool} {e : LoadError}

/-! ## What a load upholds -/

/-- Slots that stick are met where they were, and what is poisoned newly is met. -/
structure Upholds (l l' : Loader) : Prop where
  keeps : ∀ {p key s}, s.Sticks → l.cache.Governs p key s → l'.cache.Governs p key s
  poisons : ∀ {p key e}, l'.cache.get? p key = some (.poisoned e) →
    l.cache.get? p key = some (.poisoned e) ∨ l'.cache.Governs p key (.poisoned e)

namespace Upholds

theorem trans {l l' l'' : Loader} (h : Upholds l l') (h' : Upholds l' l'') : Upholds l l'' where
  keeps hs hg := h'.keeps hs (h.keeps hs hg)
  poisons hp := by
    rcases h'.poisons hp with hp | hg
    · exact (h.poisons hp).imp_right (h'.keeps trivial)
    · exact .inr hg

theorem of_get (h : ∀ p key, l'.cache.get? p key = l.cache.get? p key) : Upholds l l' where
  keeps _ hg := hg.congr fun q => h q _
  poisons hp := .inl ((h _ _).symm.trans hp)

/-- A key of which no slot sticks may get another slot, as long as that is not poisoned. -/
theorem of_key (key : String) (hidle : ∀ p s, s.Sticks → ¬ l.cache.Governs p key s)
    (hother : ∀ p k, k ≠ key → l'.cache.get? p k = l.cache.get? p k)
    (hpoisons : ∀ p e, l'.cache.get? p key = some (.poisoned e) → l.cache.get? p key = some (.poisoned e)) :
    Upholds l l' where
  keeps {p k s} hs hg := by
    have hk : k ≠ key := by
      rintro rfl
      exact hidle p s hs hg
    exact hg.congr fun q => hother q k hk
  poisons {p k e} hp := by
    by_cases hk : k = key
    · subst hk
      exact .inl (hpoisons p e hp)
    · exact .inl ((hother p k hk).symm.trans hp)

/-- What happens while the slot of a key is that of a module in progress, and what becomes of that slot in
the end, if it did not stick before. -/
theorem bracket {l₂ : Loader} (h : Upholds l l₂) (hidle : ∀ p s, s.Sticks → ¬ l.cache.Governs p key s)
    (hin : l₂.cache.Governs p key (.loading id))
    (hother : ∀ p k, k ≠ key → l'.cache.get? p k = l₂.cache.get? p k)
    (hpoisons : ∀ p e, l'.cache.get? p key = some (.poisoned e) →
      l₂.cache.get? p key = some (.poisoned e) ∨ l'.cache.Governs p key (.poisoned e)) : Upholds l l' where
  keeps {q k s} hs hg := by
    have hk : k ≠ key := by
      rintro rfl
      exact hidle q s hs hg
    exact (h.keeps hs hg).congr fun r => hother r k hk
  poisons {q k e} hp := by
    by_cases hk : k = key
    · subst hk
      rcases hpoisons q e hp with hp | hg
      · rcases h.poisons hp with hp | hg
        · exact .inl hp
        · cases (hg.unique hin).2
      · exact .inr hg
    · rcases h.poisons ((hother q k hk).symm.trans hp) with hp | hg
      · exact .inl hp
      · exact .inr (hg.congr fun r => hother r k hk)

end Upholds

/-- In a loader without query marks in names an action upholds what it should, and adds no such name. -/
def Durable (l l' : Loader) : Prop := l.Unmarked → l'.Unmarked ∧ Upholds l l'

namespace Durable

instance : IsPreorder Loader Durable where
  refl _ hu := ⟨hu, .of_get fun _ _ => rfl⟩
  trans _ _ _ h h' hu :=
    have ⟨hu', hl⟩ := h hu
    have ⟨hu'', hl'⟩ := h' hu'
    ⟨hu'', hl.trans hl'⟩

theorem of_slots (hs : ∀ p, l'.cache.slots p = l.cache.slots p) (hu : KeepsUnmarked l l') : Durable l l' :=
  fun h => ⟨hu h, .of_get fun p key => by rw [Cache.get?, hs, Cache.get?]⟩

theorem of_cache (hc : l'.cache = l.cache) (hu : KeepsUnmarked l l') : Durable l l' :=
  of_slots (fun p => by rw [hc]) hu

theorem report (event : Event) : Follows Durable (Loader.report event) := fun _ => of_cache rfl (.of_eq rfl rfl)

theorem updateEntry (id : EntryId) (f : Entry → Entry) : Follows Durable (Loader.updateEntry id f) :=
  fun _ => of_cache rfl (.of_eq rfl rfl)

theorem compiles (id : EntryId) : Compiles id Durable where
  toIsPreorder := inferInstance
  report event _ := report event
  updateEntry _ := updateEntry id _
  source file := fun l => of_cache (Quiet.reading.source file l).cache (KeepsUnmarked.reading.source file l)
  program file := fun l => of_cache (Quiet.reading.program file l).cache (KeepsUnmarked.reading.program file l)

end Durable

/-! ## Classification -/

/-- A module is compiled in the slot that requests for its key would meet, and no such slot sticks. -/
structure Entitled (l : Loader) (job : Job) : Prop where
  rules : l.cache.Rules job.partition job.target.key
  idle : ∀ p s, s.Sticks → ¬ l.cache.Governs p job.target.key s

/-- Where no slot of a key is met, or one is met that may be evaluated. -/
def Opens (l : Loader) (key : String) : CacheLookup → Prop
  | .hit _ => True
  | .evaluate p id => l.cache.Governs p key (.ready id)
  | .miss p => l.cache.Rules p key ∧ ∀ q s, ¬ l.cache.Governs q key s

theorem opens_of_lookup {found : CacheLookup} (hr : l.cache.Rules p key)
    (hnone : l.cache.get? p key = none → ∀ q s, ¬ l.cache.Governs q key s)
    (h : l.run (lookup p key) = (.ok found, l')) : l'.Opens key found := by
  cases hs : l.cache.get? p key with
  | none =>
    rw [run_lookup_of_none hs] at h
    cases h
    exact ⟨hr, hnone hs⟩
  | some s =>
    cases s with
    | poisoned e =>
      rw [run_lookup_of_poisoned hs] at h
      cases h
    | loading id =>
      rw [run_lookup_of_loading hs] at h
      cases h
      trivial
    | ready id =>
      rw [run_lookup_of_ready hs] at h
      cases h
      split
      · trivial
      · exact ⟨hs, hr⟩

/-- Requests meet the slot of a module that left discovery. -/
theorem governs_committed (hp : p ≠ .discovery) (hs : l.cache.get? .discovery key = some (.ready id))
    (hkey : ¬ IsDeclarativeKey key) (hd : l.cache.get? .declarative key = none) :
    (l.committed key p).cache.Governs p key (.ready id) := by
  have hget := get?_committed hs rfl p
  refine ⟨(hget p key).trans (if_pos ⟨rfl, rfl⟩), ?_⟩
  cases p with
  | declarative => trivial
  | legacy => exact ⟨hkey, (hget .declarative key).trans (by simpa using hd)⟩
  | discovery => exact absurd rfl hp

theorem opens_of_classify {fixed : Option Format} {unexposed : Bool} {found : CacheLookup}
    (hfixed : fixed = some .declarative ↔ IsDeclarativeKey key)
    (h : l.run (classify key fixed unexposed) = (.ok found, l')) : l'.Opens key found := by
  obtain hdeclarative | ⟨hne, hd, hl⟩ := classify_cases l.cache key fixed
  · rw [run_classify_declarative hdeclarative] at h
    refine opens_of_lookup (p := .declarative) trivial (fun hnone q s hg => ?_) h
    have hkey : IsDeclarativeKey key := by
      rcases hdeclarative with hf | hhas
      · exact hfixed.mp hf
      · rw [has_eq_false_iff.mpr hnone] at hhas
        cases hhas
    cases q with
    | declarative => cases hnone.symm.trans hg.get
    | legacy => exact hg.rules.1 hkey
    | discovery => exact hg.rules.1 hkey
  have hkey : ¬ IsDeclarativeKey key := fun hk => hne (hfixed.mpr hk)
  rcases hl with hl | hl
  · rw [run_classify_legacy hne hd hl] at h
    refine opens_of_lookup (p := .legacy) ⟨hkey, hd⟩ (fun hnone => ?_) h
    rw [has_eq_false_iff.mpr hnone] at hl
    cases hl
  rw [run_classify_discovery hne hd hl] at h
  split at h
  · next hs =>
    cases h
    refine ⟨?_, fun q s hg => ?_⟩
    · rcases fixed with - | - | -
      · exact ⟨hkey, hd, hl⟩
      · exact ⟨hkey, hd⟩
      · exact absurd rfl hne
    · have hget := hg.get
      cases q <;> simp_all
  · cases h
  · cases h
    trivial
  · next hs =>
    split at h
    · cases h
      trivial
    · cases h
      split
      · trivial
      · exact governs_committed (l := l.noted [.adopts key]) (settledPartition_ne _ _) hs hkey hd

theorem run_classify_of_poisoned {fixed : Option Format} (hfixed : fixed = some .declarative ↔ IsDeclarativeKey key)
    (hg : l.cache.Governs p key (.poisoned e)) (unexposed : Bool) :
    l.run (classify key fixed unexposed) = (.error e, l) := by
  obtain ⟨hs, hr⟩ := hg
  have hne : ¬ IsDeclarativeKey key → fixed ≠ some .declarative := fun hkey hf => hkey (hfixed.mp hf)
  cases p with
  | declarative => rw [run_classify_declarative (.inr (Cache.has_of_get? hs)), run_lookup_of_poisoned hs]
  | legacy => rw [run_classify_legacy (hne hr.1) hr.2 (Cache.has_of_get? hs), run_lookup_of_poisoned hs]
  | discovery => rw [run_classify_discovery (hne hr.1) hr.2.1 hr.2.2, hs]

namespace Durable

/-- A classification moves at most a ready slot of discovery that is met. -/
theorem of_classification {r : Except LoadError CacheLookup} (h : Classification l key r l') : Durable l l' := by
  cases h with
  | failed => exact refl l
  | busy _ events => exact of_cache rfl (.of_eq rfl rfl)
  | used => exact refl l
  | parsed => exact refl l
  | absent => exact refl l
  | @adopted p id hp hs hfree =>
    have hget := get?_committed (l := l.noted [.adopts key]) hs rfl p
    refine fun hu => ⟨hu.of_eq rfl rfl, .of_key key (fun q s hsticks hg => ?_) (fun q k hk => ?_)
      fun q e hpoisoned => ?_⟩
    · by_cases hq : q = .discovery
      · subst hq
        cases hs.symm.trans hg.get
        exact hsticks
      · cases (hfree q hq).symm.trans hg.get
    · rw [hget, if_neg (fun heq => hk heq.2.symm), if_neg (fun heq => hk heq.2.symm)]
      rfl
    · rw [hget] at hpoisoned
      split at hpoisoned
      · cases hpoisoned
      · split at hpoisoned
        · cases hpoisoned
        · exact hpoisoned

/-! ## Seeking -/

theorem builtin (name : String) : Follows Durable (Loader.builtin name) := by
  intro l
  rw [run_builtin]
  unfold builtinOf
  cases l.cache.builtins.get? name with
  | some id => exact refl l
  | none => exact of_slots (fun p => by cases p <;> rfl) (.of_eq rfl rfl)

theorem link (referrer : Option Referrer) (request : String) (child : EntryId) :
    Follows Durable (Loader.link referrer request child) := by
  cases referrer with
  | none => exact .pure _
  | some r => exact updateEntry r.id _

theorem seekTarget (request : String) (referrer : Option Referrer) (isMain : Bool) (target : Target) :
    Follows Durable (Loader.seekTarget request referrer isMain target) := by
  refine (report _).bind fun _ => .bind (fun l => of_classification (classification l _ _ _)) fun found => ?_
  cases found with
  | hit id => exact (report _).bind fun _ => (link referrer request id).bind fun _ => .pure _
  | evaluate p id => exact .pure _
  | miss p => exact .bind (fun l => of_cache rfl (.of_eq rfl rfl)) fun _ => .pure _

theorem seek (request : String) (parent : Option EntryId) (isMain : Bool) :
    Follows Durable (Loader.seek request parent isMain) := by
  have hparent : Follows Durable (parent.mapM Loader.referrer) := fun l => by
    rw [run_referrers]
    exact refl l
  have hresolve : ∀ specifier referrer isMain,
      Follows Durable (resolveSpecifier specifier referrer isMain) := fun _ _ _ l => by
    rw [run_resolveSpecifier]
    exact of_cache rfl (.of_eq rfl rfl)
  refine hparent.bind fun r => (hresolve _ r isMain).bind fun found => ?_
  cases found with
  | builtin name => exact (builtin name).bind fun id => (link r request id).bind fun _ => .pure _
  | file filename =>
    refine .bind (fun l => ?_) fun _ => seekTarget _ _ _ _
    rw [run_packageOfFile]
    exact of_cache rfl (.of_eq rfl rfl)

end Durable

/-- The extension of a file that was found fixes its format exactly if its key says so. -/
theorem fixed_iff {file : Path} (hu : l.Unmarked) (hr : l.resolved request parent isMain = .ok (.file file)) :
    Format.ofPath? file = some .declarative ↔ IsDeclarativeKey (cacheKey file (splitQuery request).2) :=
  (declarative_iff_extension file).trans (isDeclarativeKey_iff hr hu.names).symm

theorem entitled_of_seekTarget {referrer : Option Referrer} {target : Target}
    (hfixed : target.fixed = some .declarative ↔ IsDeclarativeKey target.key)
    (h : l.run (seekTarget request referrer isMain target) = (.ok (.needs job), l')) : l'.Entitled job := by
  obtain ⟨-, -, -, rfl, hrun | ⟨l₁, hrun, -, rfl⟩⟩ := needs_of_seekTarget h
  · have hopens := opens_of_classify hfixed hrun
    refine ⟨hopens.rules, fun q s hs hg => ?_⟩
    obtain ⟨-, rfl⟩ := hopens.unique hg
    exact hs
  · obtain ⟨hrules, hnone⟩ := opens_of_classify hfixed hrun
    exact ⟨hrules, fun q s _ => hnone q s⟩

theorem entitled_of_seek (hu : l.Unmarked)
    (h : l.run (seek request parent isMain) = (.ok (.needs job), l')) : l'.Entitled job := by
  rw [run_seek_eq] at h
  dsimp only at h
  cases hr : l.resolved request parent isMain with
  | error e =>
    rw [hr] at h
    cases h
  | ok found =>
    rw [hr] at h
    cases found with
    | builtin name => cases h
    | file file => exact entitled_of_seekTarget (fixed_iff hu hr) h

/-! ## Compiling -/

theorem Entitled.occupied (h : l.Entitled job) : Upholds l (l.occupied job) ∧
    (l.occupied job).cache.Governs job.partition job.target.key (.loading job.id) := by
  have hget := get?_occupied l job
  refine ⟨.of_key _ h.idle (fun p k hk => ?_) fun p e hp => ?_, ?_, h.rules.congr fun q hq => ?_⟩
  · rw [hget, if_neg fun heq => hk heq.2.symm]
  · obtain ⟨-, ⟨⟩⟩ | ⟨-, hp⟩ := slot_of_occupied hp
    exact hp
  · rw [hget, if_pos ⟨rfl, rfl⟩]
  · rw [hget, if_neg fun heq => hq heq.1.symm]

/-- A slot that is given up is dropped, or poisoned where it is met. -/
theorem Upholds.vacated (h : Upholds l l') (hidle : ∀ p s, s.Sticks → ¬ l.cache.Governs p job.target.key s)
    (hin : l'.cache.Governs job.partition job.target.key (.loading job.id)) (e : LoadError) :
    Upholds l (l'.vacated job e) := by
  have hget := get?_vacated l' job e
  refine h.bracket hidle hin (fun p k hk => (hget p k).trans (if_neg fun heq => hk heq.2.symm)) fun p e' hp => ?_
  rw [hget] at hp
  split at hp
  · next hown =>
    obtain rfl := hown.1
    split at hp
    · next hcommitted =>
      cases hp
      refine .inr ⟨(hget _ _).trans ?_, hin.rules.congr fun q hq => ?_⟩
      · rw [if_pos ⟨rfl, rfl⟩, if_pos hcommitted]
      · exact (hget q _).trans (if_neg fun heq => hq heq.1.symm)
    · cases hp
  · exact .inl hp

theorem Upholds.concluded (h : Upholds l l') (hidle : ∀ p s, s.Sticks → ¬ l.cache.Governs p job.target.key s)
    (hin : l'.cache.Governs job.partition job.target.key (.loading job.id)) : Upholds l (l'.concluded job) := by
  have hget := get?_concluded hin.get
  refine h.bracket hidle hin (fun p k hk => (hget p k).trans ?_) fun p e hp => .inl ?_
  · rw [if_neg fun heq => hk heq.2.symm, if_neg fun heq => hk heq.2.symm]
  · obtain ⟨-, ⟨⟩⟩ | ⟨-, hp⟩ := slot_of_concluded hin.get hp
    exact hp

namespace Durable

theorem occupy (h : l.Entitled job) : Durable l (l.occupied job) := by
  refine fun hu => ⟨hu.of_eq ?_ ?_, h.occupied.1⟩ <;>
  · unfold Loader.occupied
    split <;> rfl

/-- The slot of a module that is compiled is met all the time, and what it becomes is met too. -/
theorem perform {nested : NestedLoad} (hn : ∀ request id, Follows Durable (nested request id))
    (hj : l.Entitled job) : Durable l (l.run (Loader.perform nested job)).2 := by
  intro hu
  refine ⟨KeepsUnmarked.respects.perform (fun request id l hu => (hn request id l hu).1) job l hu, ?_⟩
  obtain ⟨hupholds, hin⟩ := hj.occupied
  have hcompile := (compiles job.id).compile report (updateEntry job.id _)
    (fun request => hn request job.id) job.target.filename (l.occupied job) (occupy hj hu).1
  unfold Loader.perform
  rw [run_bind, run_occupy, andThen_ok, run_bind, run_onError]
  generalize (l.occupied job).run (compile nested job.id job.target.filename) = r at hcompile ⊢
  obtain ⟨result, l₂⟩ := r
  obtain ⟨-, hupholds₂⟩ := hcompile
  have hin₂ : l₂.cache.Governs job.partition job.target.key (.loading job.id) := hupholds₂.keeps trivial hin
  cases result with
  | error e =>
    dsimp only
    rw [run_vacate_of_get? hin₂.get]
    exact (hupholds.trans hupholds₂).vacated hj.idle hin₂ e
  | ok _ =>
    dsimp only
    rw [andThen_ok, run_bind, run_conclude_of_get? hin₂.get]
    exact (hupholds.trans hupholds₂).concluded hj.idle hin₂

theorem answer {nested : NestedLoad} (hn : ∀ request id, Follows Durable (nested request id))
    (request : String) (parent : Option EntryId) (isMain : Bool) :
    Follows Durable (Loader.answer nested request parent isMain) := fun l hu =>
  Follows.rel_answer (seek request parent isMain l) (fun hr => perform hn (entitled_of_seek hu hr)) hu

theorem loadNested (limit : Nat) (request : String) (id : EntryId) :
    Follows Durable (Loader.loadNested limit request id) :=
  .loadNested (fun _ => report) (fun _ ih request id => answer ih request (some id) false) limit request id

theorem load (request : String) (parent : Option EntryId) (isMain : Bool) :
    Follows Durable (Loader.load request parent isMain) :=
  Follows.get.bind fun _ => .reported report (answer (loadNested _) request parent isMain) request

theorem withParsing (l : Loader) (parsing : Bool) : Durable l (l.withParsing parsing) :=
  of_slots (fun p => by cases p <;> rfl) (.of_eq rfl rfl)

theorem discover (request : String) (parent : Option EntryId) :
    Follows Durable (Loader.discover request parent) := by
  intro l
  rw [run_discover]
  exact IsTrans.trans _ _ _ (withParsing l true) (IsTrans.trans _ _ _ (load request parent false _) (withParsing _ _))

/-! ## Moments -/

theorem of_asks {m m' : Moment} (h : Moment.Asks m m') : Durable m.loader m'.loader := by
  obtain ⟨limit, job, request, next, l, -, hc, rfl⟩ := Moment.asks_iff.mp h
  cases hc with
  | @intro c _ l₁ l₂ l₃ _ hseek hoccupy hbegin htask =>
    intro hu
    have hsought := (report (.enters m.request .resolving)).bind
      (fun _ => seek m.request m.parent m.isMain) m.loader hu
    rw [run_bind, run_report, andThen_ok] at hseek hsought
    rw [hseek] at hsought
    have hu₀ : (m.loader.noted [.enters m.request .resolving]).Unmarked := hu.of_eq rfl rfl
    have hj : l₁.Entitled job := entitled_of_seek hu₀ hseek
    rw [run_occupy] at hoccupy
    cases hoccupy
    have hoccupied := occupy hj hsought.1
    have hbegun := (compiles job.id).beginCompile job.target.filename (l₁.occupied job) hoccupied.1
    rw [hbegin] at hbegun
    have hran := Moment.rel_of_taskSteps (compiles job.id) report
      (fun request => loadNested m.limit request job.id) htask hbegun.1
    exact ⟨hran.1, ((hsought.2.trans hoccupied.2).trans hbegun.2).trans hran.2⟩

theorem of_comesTo {op : Operation} {m : Moment} (h : l.ComesTo op m) : Durable l m.loader := by
  obtain ⟨first, hfirst, hasks⟩ := h
  have hasked : Durable first.loader m.loader := by
    clear hfirst
    induction hasks with
    | refl => exact refl _
    | tail _ hstep ih => exact IsTrans.trans _ _ _ ih (of_asks hstep)
  refine IsTrans.trans _ _ _ ?_ hasked
  unfold beginning? at hfirst
  split at hfirst
  · obtain rfl := Option.some.inj hfirst
    exact refl l
  · obtain rfl := Option.some.inj hfirst
    exact withParsing l true
  · cases hfirst

end Durable

/-! ## Requests for a poisoned key -/

/-- All that happened is that packages were looked up, and that something was reported: no module was
compiled, no source was read, and modules and slots are as they were. -/
def Rests (l l' : Loader) : Prop :=
  ∃ packages events, (∀ event ∈ events, Event.isWork event = false) ∧
    l' = { l with packages := packages, journal := events ++ l.journal }

namespace Rests

instance : IsPreorder Loader Rests where
  refl l := ⟨l.packages, [], nofun, rfl⟩
  trans l _ _ := by
    rintro ⟨packages, events, he, rfl⟩ ⟨packages', events', he', rfl⟩
    refine ⟨packages', events' ++ events, fun event hevent => ?_, by rw [List.append_assoc]⟩
    exact (List.mem_append.mp hevent).elim (he' event) (he event)

theorem noted (l : Loader) {events : List Event} (h : ∀ event ∈ events, event.isWork = false) :
    Rests l (l.noted events) := ⟨l.packages, events, h, rfl⟩

theorem packaged (l : Loader) (file : Path) : Rests l (l.packaged file) := by
  refine ⟨_, _, fun event hevent => ?_, rfl⟩
  simp only [walkEvents, List.mem_reverse, List.mem_append, List.mem_flatMap, List.mem_cons,
    Option.mem_toList] at hevent
  rcases hevent with ⟨⟨dir, manifest⟩, -, rfl | hevent⟩ | hevent
  · rfl
  · cases manifest with
    | invalid e =>
      obtain rfl := List.mem_singleton.mp hevent
      rfl
    | _ => cases hevent
  · obtain ⟨dir, -, rfl⟩ := Option.map_eq_some_iff.mp hevent
    rfl

theorem retried (l : Loader) (request : String) (parent : Option EntryId) (isMain : Bool) :
    Rests l (l.retried request parent isMain) := by
  refine noted l fun event hevent => ?_
  unfold retries at hevent
  split at hevent
  · cases hevent
  · split at hevent
    · obtain rfl := List.mem_singleton.mp hevent
      rfl
    · cases hevent

end Rests

theorem run_seekTarget_of_error {referrer : Option Referrer} {target : Target}
    (h : (l.noted [.enters target.key .classifying]).run
      (classify target.key target.fixed target.package.isUnexposed) = (.error e, l')) :
    l.run (seekTarget request referrer isMain target) = (.error e, l') := by
  rw [run_seekTarget_eq, h]

/-- A request for a poisoned key fails with the error, and nothing else happens. -/
theorem run_action_of_poisoned {m : Moment} {file : Path} (hu : m.loader.Unmarked)
    (hfile : m.loader.resolved m.request m.parent m.isMain = .ok (.file file))
    (hg : m.loader.cache.Governs p (cacheKey file (splitQuery m.request).2) (.poisoned e)) :
    ∃ l', m.loader.run m.action = (.error e, l') ∧ Rests m.loader l' := by
  let l₁ := m.loader.noted [.enters m.request .resolving]
  let l₂ := (l₁.retried m.request m.parent m.isMain).packaged file
  let l₃ := l₂.noted [.enters (cacheKey file (splitQuery m.request).2) .classifying]
  have hseek : l₁.run (seek m.request m.parent m.isMain) = (.error e, l₃) := by
    have hfile₁ : l₁.resolved m.request m.parent m.isMain = .ok (.file file) := hfile
    have hclassify := run_classify_of_poisoned (l := l₃) (fixed_iff hu hfile) hg
      (l₁.packageOf file).isUnexposed
    rw [run_seek_eq]
    dsimp only
    rw [hfile₁]
    dsimp only
    exact run_seekTarget_of_error hclassify
  refine ⟨l₃.noted [.fails m.request e], ?_, ?_⟩
  · unfold Moment.action
    rw [run_reported]
    unfold answer
    rw [run_bind, hseek]
    rfl
  · have hnoted : ∀ (l : Loader) {event : Event}, event.isWork = false → Rests l (l.noted [event]) :=
      fun l event h => .noted l fun _ hevent => by
        obtain rfl := List.mem_singleton.mp hevent
        exact h
    calc Rests m.loader l₁ := hnoted _ rfl
      Rests _ (l₁.retried m.request m.parent m.isMain) := .retried _ _ _ _
      Rests _ l₂ := .packaged _ _
      Rests _ l₃ := hnoted _ rfl
      Rests _ (l₃.noted [.fails m.request e]) := hnoted _ rfl

/-! ## Between calls -/

/-- What brings no names with query marks. -/
def Nameable (l : Loader) : Operation → Prop
  | .changeFiles fs => Unmarked { l with files := fs }
  | _ => True

/-- What brings no names with query marks, and neither drops a key nor replaces a slot of it. -/
def Leaving (key : String) (l : Loader) : Operation → Prop
  | .invalidate k => k ≠ key
  | .clearCache => False
  | .replaceCached _ k _ => k ≠ key
  | op => l.Nameable op

theorem Unmarked.after {op : Operation} (h : l.Unmarked) (hop : l.Nameable op) : (l.after op).Unmarked := by
  cases op with
  | load request parent isMain => exact (Durable.load request parent isMain l h).1
  | discover request parent => exact (Durable.discover request parent l h).1
  | resolve request parent =>
    rw [Loader.after, run_resolve]
    exact h.of_eq rfl rfl
  | changeFiles fs => exact hop
  | _ => exact h.of_eq rfl rfl

/-- An error lasts through every operation that leaves its key alone. -/
theorem governs_after {op : Operation} (h : l.Unmarked) (hop : l.Leaving key op)
    (hg : l.cache.Governs p key (.poisoned e)) : (l.after op).cache.Governs p key (.poisoned e) := by
  cases op with
  | load request parent isMain => exact (Durable.load request parent isMain l h).2.keeps trivial hg
  | discover request parent => exact (Durable.discover request parent l h).2.keeps trivial hg
  | resolve request parent =>
    rw [Loader.after, run_resolve]
    exact hg
  | invalidate k =>
    refine hg.congr fun q => ?_
    have hdelete : ∀ (r : Partition) (c : Cache), (c.delete r k).get? q key = c.get? q key := fun r c => by
      rw [Cache.get?_delete, if_neg fun heq => hop heq.2]
    exact (hdelete .discovery _).trans ((hdelete .declarative _).trans (hdelete .legacy _))
  | clearCache => exact hop.elim
  | replaceCached r k id =>
    refine hg.congr fun q => ?_
    exact (Cache.get?_set _ _ _ _ _ _).trans (if_neg fun heq => hop heq.2)
  | _ => exact hg

/-- What becomes poisoned is what requests for its key meet. -/
theorem poisons_after {op : Operation} (h : l.Unmarked)
    (hp : (l.after op).cache.get? p key = some (.poisoned e)) :
    l.cache.get? p key = some (.poisoned e) ∨ (l.after op).cache.Governs p key (.poisoned e) := by
  cases op with
  | load request parent isMain => exact (Durable.load request parent isMain l h).2.poisons hp
  | discover request parent => exact (Durable.discover request parent l h).2.poisons hp
  | resolve request parent =>
    rw [Loader.after, run_resolve] at hp
    exact .inl hp
  | invalidate k => exact .inl (get?_of_invalidate hp)
  | clearCache => cases p <;> cases hp
  | replaceCached q k id =>
    have hget := Cache.get?_set l.cache q p k key (.ready id)
    change (l.cache.set q k (.ready id)).get? p key = _ at hp
    rw [hget] at hp
    split at hp
    · cases hp
    · exact .inl hp
  | _ => exact .inl hp

theorem Leaving.nameable {op : Operation} (h : l.Leaving key op) : l.Nameable op := by
  cases op <;> first | exact h | trivial

/-- Once a slot is poisoned it stays so, whatever is done that neither drops its key nor replaces it. Until
then every request for the key, at whatever depth and from whatever module, fails with the same error, and
no more comes of it than reports. -/
theorem poisoned_of_reachable {op : Operation} (h : Reachable Unmarked Nameable l) (hop : l.Nameable op)
    (hpoisoned : (l.after op).cache.get? p key = some (.poisoned e))
    (hnew : l.cache.get? p key ≠ some (.poisoned e))
    (hlater : Reachable (· = l.after op) (Leaving key) l') :
    l'.cache.get? p key = some (.poisoned e) ∧
    ∀ op' m file, l'.ComesTo op' m → m.loader.resolved m.request m.parent m.isMain = .ok (.file file) →
      cacheKey file (splitQuery m.request).2 = key →
      m.loader.cache.get? p key = some (.poisoned e) ∧
        ∃ l'', m.loader.run m.action = (.error e, l'') ∧ Rests m.loader l'' := by
  have hu : l.Unmarked := h.invariant (fun _ h => h) fun _ _ h hop => h.after hop
  have hg : (l.after op).cache.Governs p key (.poisoned e) := (poisons_after hu hpoisoned).resolve_left hnew
  obtain ⟨hu', hg'⟩ : l'.Unmarked ∧ l'.cache.Governs p key (.poisoned e) := by
    refine hlater.invariant (P := fun l' => l'.Unmarked ∧ l'.cache.Governs p key (.poisoned e)) ?_ ?_
    · rintro _ rfl
      exact ⟨hu.after hop, hg⟩
    · exact fun l op ⟨hu, hg⟩ hop => ⟨hu.after hop.nameable, governs_after hu hop hg⟩
  refine ⟨hg'.get, ?_⟩
  rintro op' m file hm hfile rfl
  obtain ⟨hum, hupholds⟩ := Durable.of_comesTo hm hu'
  have hgm := hupholds.keeps (s := .poisoned e) trivial hg'
  exact ⟨hgm.get, run_action_of_poisoned hum hfile hgm⟩

/-- No operation gives a loader a code cache, or takes it away. -/
theorem codeCache?_after (l : Loader) (op : Operation) : (l.after op).codeCache? = l.codeCache? := by
  cases op with
  | load request parent isMain => exact (Evolves.respects.load request parent isMain l).codeCache
  | discover request parent =>
    rw [Loader.after, run_discover]
    exact (Evolves.respects.load request parent false (l.withParsing true)).codeCache
  | resolve request parent =>
    rw [Loader.after, run_resolve]
    rfl
  | _ => rfl

/-- Without a code cache only the names in the new files matter. -/
theorem leaving_changeFiles {fs : FileSystem} (hfs : fs.Unmarked) (hc : l.codeCache? = none) :
    l.Leaving key (.changeFiles fs) := by
  refine ⟨hfs, fun {cache} h => ?_⟩
  cases hc.symm.trans h

/-- The files of `throwingFiles`, with the module mended that threw. -/
def mendedFiles : FileSystem where
  nodes := ⟨[
    (["app"], .directory),
    (["a.cjs", "app"], .file "exports.b = require(\"./b.js\")".toUTF8),
    (["b.js", "app"], .file "exports.ok = true".toUTF8)]⟩
  workingDirectory := ["app"]

/-- The loader after a load of `throwingFiles` failed and the module was mended. -/
def mended : Loader := (throwing.after (.load "./a.cjs" none true)).after (.changeFiles mendedFiles)

theorem poisoned_mended :
    let e : LoadError := .compile ⟨"/app/b.js"⟩ (.thrown "stop")
    mended.cache.get? .legacy "/app/a.cjs" = some (.poisoned e) ∧
      ∃ l', mended.run (load "./a.cjs" none false) = (.error e, l') ∧ Rests mended l' := by
  have hunmarked : throwing.Unmarked := ⟨by decide, fun hc => by cases hc⟩
  have hop : throwing.Nameable (.load "./a.cjs" none true) := trivial
  have hnames : mendedFiles.Unmarked := by decide
  have hnone : (throwing.after (.load "./a.cjs" none true)).codeCache? = none := codeCache?_after _ _
  have hpoisoned : (throwing.after (.load "./a.cjs" none true)).cache.get? .legacy "/app/a.cjs"
      = some (.poisoned (.compile ⟨"/app/b.js"⟩ (.thrown "stop"))) := by decide +kernel
  have hnew : throwing.cache.get? .legacy "/app/a.cjs"
      ≠ some (.poisoned (.compile ⟨"/app/b.js"⟩ (.thrown "stop"))) := by decide +kernel
  obtain ⟨hget, hfails⟩ := poisoned_of_reachable (.start hunmarked) hop hpoisoned hnew
    (.after (.start rfl) (leaving_changeFiles hnames hnone))
  have hfile : mended.resolved "./a.cjs" none false = .ok (.file ⟨"/app/a.cjs"⟩) := by decide +kernel
  have hkey : cacheKey ⟨"/app/a.cjs"⟩ (splitQuery "./a.cjs").2 = "/app/a.cjs" := by decide +kernel
  obtain ⟨-, l', hrun, hrests⟩ := hfails (.load "./a.cjs" none false)
    ⟨mended.nestingBound "./a.cjs", "./a.cjs", none, false, [], mended⟩ _ ⟨_, rfl, .refl⟩ hfile hkey
  exact ⟨hget, l', (run_load_eq _ _ _ _).trans hrun, hrests⟩

end Loader
end ModGraph
