import ModGraph.Proofs.CallStack
import ModGraph.Proofs.Loads

/-!
# Slots last

What a load finds in the cache it leaves there: a poisoned slot as it is, a loaded module where it is, and
a module that is ready at least under its key, unless its evaluation fails (`Loader.Kept`). For a loaded
module this needs that discovery holds none (`Loader.Provisional`), since modules of discovery move. A
load that succeeds does not poison any slot either (`Loader.Intact`).
-/

namespace ModGraph
namespace Loader

variable {l l' l'' l₂ : Loader} {job : Job} {limit : Nat}

/-- Discovery holds neither errors nor modules that are loaded. -/
def Provisional (l : Loader) : Prop :=
  ∀ key s, l.cache.slot? key = some (.discovery, s) →
    ∃ id, s.entry? = some id ∧ id < l.graph.size ∧ (l.graph.entry id).isLoaded = false

/-- What there is in the cache stays there. -/
structure Kept (l l' : Loader) : Prop where
  orderly : l'.Orderly
  provisional : l'.Provisional
  poisoned : ∀ {key p e}, l.cache.slot? key = some (p, .poisoned e) →
    l'.cache.slot? key = some (p, .poisoned e)
  loaded : ∀ {key p id}, l.cache.slot? key = some (p, .ready id) → (l.graph.entry id).isLoaded = true →
    l'.cache.slot? key = some (p, .ready id) ∧ (l'.graph.entry id).isLoaded = true
  ready : ∀ {key p id}, l.cache.slot? key = some (p, .ready id) →
    ∃ q, l'.cache.slot? key = some (q, .ready id) ∨ ∃ e, l'.cache.slot? key = some (q, .poisoned e)

/-- No slot is poisoned anew. -/
def Spotless (l l' : Loader) : Prop :=
  ∀ key p e, l'.cache.slot? key = some (p, .poisoned e) → l.cache.slot? key = some (p, .poisoned e)

/-- In an orderly loader without loaded modules in discovery all slots last. -/
def Lasts (l l' : Loader) : Prop := l.Orderly → l.Provisional → Kept l l'

/-- All slots last, and none is poisoned. -/
def Intact (l l' : Loader) : Prop := l.Orderly → l.Provisional → Kept l l' ∧ Spotless l l'

namespace Kept

theorem refl (ho : l.Orderly) (hp : l.Provisional) : Kept l l :=
  ⟨ho, hp, fun h => h, fun h hl => ⟨h, hl⟩, fun {_ p _} h => ⟨p, .inl h⟩⟩

theorem trans (h : Kept l l') (h' : Kept l' l'') : Kept l l'' := by
  refine ⟨h'.orderly, h'.provisional, fun hs => h'.poisoned (h.poisoned hs), fun hs hl => ?_, fun hs => ?_⟩
  · obtain ⟨hs, hl⟩ := h.loaded hs hl
    exact h'.loaded hs hl
  · obtain ⟨q, hs | ⟨e, hs⟩⟩ := h.ready hs
    · exact h'.ready hs
    · exact ⟨q, .inr ⟨e, h'.poisoned hs⟩⟩

end Kept

/-! ## Small changes -/

theorem Provisional.congr (h : l.Provisional) (hs : ∀ key, l'.cache.slot? key = l.cache.slot? key)
    (hsize : l.graph.size ≤ l'.graph.size)
    (hloaded : ∀ {id}, id < l.graph.size → (l'.graph.entry id).isLoaded = (l.graph.entry id).isLoaded) :
    l'.Provisional := by
  intro key s hslot
  rw [hs] at hslot
  obtain ⟨id, hid, hlt, hl⟩ := h _ _ hslot
  exact ⟨id, hid, Nat.lt_of_lt_of_le hlt hsize, (hloaded hlt).trans hl⟩

theorem lt_size_of_isLoaded {g : Graph} {id : EntryId} (h : (g.entry id).isLoaded = true) : id < g.size := by
  by_contra hlt
  have hentry : g.entry id = default := by
    simp only [Graph.size] at hlt
    simp [Graph.entry, hlt]
  rw [hentry] at h
  cases h

namespace Intact

theorem refl (l : Loader) : Intact l l := fun ho hp => ⟨.refl ho hp, fun _ _ _ h => h⟩

theorem trans (h : Intact l l') (h' : Intact l' l'') : Intact l l'' := by
  intro ho hp
  obtain ⟨hk, hs⟩ := h ho hp
  obtain ⟨hk', hs'⟩ := h' hk.orderly hk.provisional
  exact ⟨hk.trans hk', fun _ _ _ hslot => hs _ _ _ (hs' _ _ _ hslot)⟩

instance : IsPreorder Loader Intact where
  refl := refl
  trans _ _ _ := trans

theorem outcomes : Outcomes Intact Lasts where
  toIsPreorder := inferInstance
  weaken h ho hp := (h ho hp).1
  absorb h h' ho hp := by
    have hk := (h ho hp).1
    exact hk.trans (h' hk.orderly hk.provisional)

/-- Where slots stay as they are, it is enough to look at the entries. -/
theorem of_slots (ht : Tidy l l') (hs : ∀ key, l'.cache.slot? key = l.cache.slot? key)
    (hsize : l.graph.size ≤ l'.graph.size)
    (hloaded : ∀ {id}, id < l.graph.size → (l'.graph.entry id).isLoaded = (l.graph.entry id).isLoaded) :
    Intact l l' := by
  intro ho hp
  refine ⟨⟨(ht ho).1, hp.congr hs hsize hloaded, fun h => ?_, fun h hl => ?_, fun {key p id} h => ?_⟩, fun _ _ _ h => ?_⟩
  · rwa [hs]
  · rw [hs, hloaded (lt_size_of_isLoaded hl)]
    exact ⟨h, hl⟩
  · exact ⟨p, .inl ((hs key).trans h)⟩
  · rwa [hs] at h

theorem of_graph (ht : Tidy l l') (hs : l'.cache = l.cache) (hg : l'.graph = l.graph) : Intact l l' :=
  of_slots ht (fun _ => by rw [hs]) (by rw [hg]) fun _ => by rw [hg]

theorem of_quiet {α : Type} {action : LoadM α} (hc : Follows Quiet action)
    (hu : Follows KeepsUnmarked action) : Follows Intact action := fun l =>
  of_graph (Tidy.of_quiet hc hu l) (hc l).cache (hc l).graph

theorem linked (l : Loader) (referrer : Option Referrer) (request : String) (child : EntryId) :
    Intact l (l.linked referrer request child) := by
  have ht := Tidy.linked l referrer request child
  cases referrer with
  | none => exact refl l
  | some r =>
    have hspared := Entry.Spared.update l.graph r.id (f := fun e => e.addChild request child)
      fun e => ⟨rfl, rfl, rfl, rfl, rfl⟩
    exact of_slots ht (fun _ => rfl) (by simp [Loader.linked]) fun _ => (hspared _).isLoaded

theorem added (ht : Tidy l l') (hs : ∀ p, l'.cache.slots p = l.cache.slots p) {e : Entry}
    (hg : l'.graph = (l.graph.add e).1) : Intact l l' :=
  of_slots ht (fun _ => Cache.slot?_congr hs) (by simp [hg]) fun h => by
    rw [hg, Graph.entry_add_of_lt _ _ h]

theorem builtinOf (l : Loader) (name : String) : Intact l (l.builtinOf name).2 := by
  have ht := Tidy.builtinOf l name
  unfold Loader.builtinOf at ht ⊢
  split
  · exact refl l
  · next hb =>
    rw [hb] at ht
    exact added ht (fun p => by cases p <;> rfl) rfl

/-- Only modules of discovery move, and these are not loaded. -/
theorem classified (l : Loader) (key : String) (fixed : Option Format) (unexposed : Bool) :
    Intact l (l.classified key fixed unexposed).2 := by
  have ht := Tidy.classified (l := l) key fixed unexposed
  obtain ⟨events, -, heq⟩ | ⟨id, hslot, -, heq⟩ := l.loader_classified key fixed unexposed
  · rw [heq]
    exact of_graph (Tidy.noted _ _) rfl rfl
  · rw [heq] at ht ⊢
    intro ho hprovisional
    have hsettled := settledPartition_ne unexposed (l.graph.entry id).format
    have hcommit := fun k => ho.exclusive.slot?_commit (k := k) hslot rfl
      (p := settledPartition unexposed (l.graph.entry id).format)
    refine ⟨⟨(ht ho).1, fun k s h => ?_, fun {k p e} h => ?_, fun {k p id'} h hl => ?_,
      fun {k p id'} h => ?_⟩, fun k p e h => ?_⟩
    · have h' := (hcommit k).symm.trans h
      split at h'
      · exact absurd (congrArg Prod.fst (Option.some.inj h')) hsettled
      · exact hprovisional _ _ h'
    · refine (hcommit k).trans ?_
      split
      · next hk =>
        rw [← hk, hslot] at h
        cases h
      · exact h
    · refine ⟨(hcommit k).trans ?_, hl⟩
      split
      · next hk =>
        rw [← hk, hslot] at h
        cases h
        obtain ⟨id', hid, -, hunloaded⟩ := hprovisional _ _ hslot
        obtain rfl : id = id' := Option.some.inj hid
        exact absurd hl (by simp [hunloaded])
      · exact h
    · by_cases hk : key = k
      · rw [← hk, hslot] at h
        cases h
        exact ⟨_, .inl ((hcommit k).trans (if_pos hk))⟩
      · exact ⟨p, .inl ((hcommit k).trans ((if_neg hk).trans h))⟩
    · have h' := (hcommit k).symm.trans h
      split at h'
      · cases h'
      · exact h'

theorem seeks : Seeks Intact where
  toIsPreorder := inferInstance
  noted _ _ _ := of_graph (Tidy.noted _ _) rfl rfl
  packaged _ := of_graph (Tidy.packaged _ _) rfl rfl
  linked := linked
  builtinOf := builtinOf
  classified l key := classified l key _ _
  added _ _ := added (Tidy.of_cache rfl (KeepsUnmarked.of_eq rfl rfl)) (fun _ => rfl) rfl

end Intact

/-! ## The end of a compilation -/

/-- A module that has a slot already is not in discovery when it is compiled. -/
theorem Due.partition_ne (h : l.Due job) (hs : l.cache.slot? job.target.key ≠ none) :
    job.partition ≠ .discovery := by
  obtain ⟨l₀, request, parent, isMain, hc, hseek⟩ := h
  obtain ⟨file, -, -, -, -, -, hclass⟩ := needs_of_seek hc.toOrderly hseek
  dsimp only at hclass
  rcases hclass with ⟨hclass, -⟩ | ⟨hclass, -, rfl⟩
  · exact (parsed_of_classified hclass).1
  · obtain ⟨heq, hnone, -⟩ := slot_of_missed hclass
    rw [heq] at hs
    exact absurd hnone hs

/-- What a module that is to be compiled has as its slot: none, or one in a committed partition that says
that it was parsed. -/
theorem Due.slot (h : l.Due job) : l.cache.slot? job.target.key = none ∨
    l.cache.slot? job.target.key = some (job.partition, .ready job.id) ∧ job.partition ≠ .discovery :=
  h.ready.slot.imp_right fun hs => ⟨hs.1, h.partition_ne (by simp [hs.1])⟩

theorem Due.provisional_occupied (h : l.Due job) (hp : l.Provisional) : (l.occupied job).Provisional := by
  have hr := h.ready
  intro key s hslot
  rw [hr.slot?_occupied] at hslot
  rw [size_occupied]
  split at hslot
  · obtain rfl := congrArg Prod.snd (Option.some.inj hslot)
    exact ⟨job.id, rfl, hr.inRange, (entry_occupied l job job.id).2.1.trans hr.unloaded⟩
  · obtain ⟨id, hid, hlt, hl⟩ := hp _ _ hslot
    exact ⟨id, hid, hlt, (entry_occupied l job id).2.1.trans hl⟩

/-- Around a compilation it is enough to look at the slot of its module. -/
theorem Kept.of_bracket {slot : Option (Partition × Slot)} (hd : l.Due job) (ho : l'.Orderly)
    (hp : l'.Provisional) (h : Kept (l.occupied job) l₂)
    (hslot' : ∀ key, l'.cache.slot? key = if job.target.key = key then slot else l₂.cache.slot? key)
    (hslot : job.partition ≠ .discovery → ∃ p, slot = some (p, .ready job.id) ∨ ∃ e, slot = some (p, .poisoned e))
    (hgraph : l₂.graph.Develops l'.graph) : Kept l l' := by
  have hr := hd.ready
  have hother : ∀ {key s}, l.cache.slot? key = some s → job.target.key ≠ key →
      (l.occupied job).cache.slot? key = some s ∧ l'.cache.slot? key = l₂.cache.slot? key := fun hs hne =>
    ⟨(hr.slot?_occupied _).trans ((if_neg hne).trans hs), (hslot' _).trans (if_neg hne)⟩
  refine ⟨ho, hp, fun {key p e} hs => ?_, fun {key p id} hs hl => ?_, fun {key p id} hs => ?_⟩
  · have hne : job.target.key ≠ key := by
      rintro rfl
      rcases hd.slot with hd | ⟨hd, -⟩ <;> rw [hd] at hs <;> cases hs
    obtain ⟨hs, heq⟩ := hother hs hne
    exact heq.trans (h.poisoned hs)
  · have hne : job.target.key ≠ key := by
      rintro rfl
      rcases hd.slot with hd | ⟨hd, -⟩ <;> rw [hd] at hs <;> cases hs
      exact absurd hl (by simp [hr.unloaded])
    obtain ⟨hs, heq⟩ := hother hs hne
    obtain ⟨hs₂, hl₂⟩ := h.loaded hs ((entry_occupied l job id).2.1.trans hl)
    exact ⟨heq.trans hs₂, (hgraph.entry (lt_size_of_isLoaded hl₂)).loaded hl₂⟩
  · by_cases hk : job.target.key = key
    · subst hk
      rcases hd.slot with hd | ⟨hd, hne⟩ <;> rw [hd] at hs <;> cases hs
      obtain ⟨q, hq⟩ := hslot hne
      rw [hslot', if_pos rfl]
      exact ⟨q, hq⟩
    · obtain ⟨hs, heq⟩ := hother hs hk
      rw [heq]
      exact h.ready hs

/-- A module that fails leaves its error in a committed partition, and nothing in discovery. -/
theorem Kept.vacated (hc : l.Consistent) (hd : l.Due job) {e : LoadError}
    (hrun : (l.occupied job).run (prepare (loadNested limit) job.id job.target.filename) = (.error e, l₂))
    (h : Kept (l.occupied job) l₂) : Kept l (l₂.vacated job e) := by
  obtain ⟨hc₂, hin⟩ := hd.ready.inProgress_of_prepare hc hrun
  obtain ⟨hexclusive, hslot⟩ := slot?_vacated hc₂.toOrderly hin e
  have hu := KeepsUnmarked.respects.vacate job e l₂ hc₂.unmarked
  rw [run_vacate hin] at hu
  have hgraph := graph_vacated l₂ job e
  refine of_bracket hd ⟨hexclusive, hu⟩ (fun key s hs => ?_) h hslot (fun hne => ?_) (hgraph ▸ .refl _)
  · rw [hslot] at hs
    rw [hgraph]
    split at hs
    · split at hs
      · next hcommitted =>
        rw [show job.partition = .discovery from congrArg Prod.fst (Option.some.inj hs)] at hcommitted
        cases hcommitted
      · cases hs
    · exact h.provisional _ _ hs
  · have hcommitted : job.partition.isCommitted = true := by
      cases hp : job.partition with
      | discovery => exact absurd hp hne
      | legacy => rfl
      | declarative => rfl
    exact ⟨job.partition, .inr ⟨e, if_pos hcommitted⟩⟩

/-- A module stays in discovery only at the end of a parse-only pass. -/
theorem finalPartition_eq_discovery (h : l.finalPartition job = .discovery) : l.cache.parsing = true := by
  unfold finalPartition at h
  split at h
  · exact absurd h (settledPartition_ne _ _)
  · next hm =>
    simp only [h, decide_true, Bool.true_and, Bool.not_eq_true', Bool.not_eq_false] at hm
    exact hm

theorem isLoaded_marked_of_parsing (l : Loader) (id : EntryId) (filename : Path) {c : Compilation}
    (hc : c.parsing = true) (id' : EntryId) :
    ((l.marked id filename c).graph.entry id').isLoaded = (l.graph.entry id').isLoaded := by
  have hupdate : ∀ (g : Graph) {f : Entry → Entry}, (∀ e : Entry, (f e).isLoaded = e.isLoaded) →
      ((g.update id f).entry id').isLoaded = (g.entry id').isLoaded := fun g f hf => by
    rw [Graph.entry_update]
    split
    · exact hf _
    · rfl
  unfold marked
  dsimp only
  rw [hupdate _ fun e => by rw [if_pos hc]; rfl]
  split
  · exact hupdate _ fun e => rfl
  · rfl

/-- A compilation whose module is in progress runs in the pass in which it began. -/
theorem parsing_of_prepare {c : Compilation}
    (hrun : (l.occupied job).run (prepare (loadNested limit) job.id job.target.filename) = (.ok c, l₂)) :
    c.parsing = l.cache.parsing ∧ l₂.cache.parsing = l.cache.parsing := by
  have hoccupied : (l.occupied job).cache.parsing = l.cache.parsing := by
    unfold occupied
    split <;> simp
  have hcompiles := Evolves.respects.compiles job.id
  have hevolves : Evolves (l.occupied job) l₂ := by
    have hprepare : Follows Evolves (prepare (loadNested limit) job.id job.target.filename) := by
      refine (hcompiles.beginCompile _).bind fun c => Follows.bind ?_ fun _ => .pure c
      exact ends_self.mp (hcompiles.runTask .self
        (fun request => ends_self.mpr (Evolves.respects.loadNested limit request job.id)) _
        (Task.within_of_all Evolves.report (fun _ => trivial) (fun _ => trivial) c.task))
    have := hprepare (l.occupied job)
    rwa [hrun] at this
  refine ⟨?_, hevolves.cache.parsing.trans hoccupied⟩
  rw [(compiled_of_prepare hrun).1]
  exact hoccupied

/-- A module that was compiled is ready, and loaded unless it stays in discovery. -/
theorem Kept.concluded (hc : l.Consistent) (hd : l.Due job) {c : Compilation}
    (hrun : (l.occupied job).run (prepare (loadNested limit) job.id job.target.filename) = (.ok c, l₂))
    (h : Kept (l.occupied job) l₂) : Kept l ((l₂.marked job.id job.target.filename c).concluded job) := by
  obtain ⟨hc₂, hin⟩ := hd.ready.inProgress_of_prepare hc hrun
  obtain ⟨hparsing, hparsing₂⟩ := parsing_of_prepare hrun
  have ho : (l₂.marked job.id job.target.filename c).Orderly :=
    ⟨hc₂.exclusive, hc₂.unmarked.of_eq rfl rfl⟩
  obtain ⟨hexclusive, hslot⟩ := slot?_concluded ho hin
  have hu := KeepsUnmarked.respects.conclude job _ ho.unmarked
  rw [run_conclude (l := l₂.marked job.id job.target.filename c) hin] at hu
  have hgraph := ((evolves_marked l₂ job.id job.target.filename c).trans (evolves_concluded hin)).graph
  refine of_bracket hd ⟨hexclusive, hu⟩ (fun key s hs => ?_) h hslot (fun _ => ⟨_, .inl rfl⟩) hgraph
  rw [hslot] at hs
  have hspared := fun id => entry_concluded (l₂.marked job.id job.target.filename c) job id
  split at hs
  · have hfinal := congrArg Prod.fst (Option.some.inj hs)
    obtain rfl := congrArg Prod.snd (Option.some.inj hs)
    have hpass : l₂.cache.parsing = true :=
      finalPartition_eq_discovery (l := l₂.marked job.id job.target.filename c) hfinal
    have hc' : c.parsing = true := hparsing.trans (hparsing₂.symm.trans hpass)
    refine ⟨job.id, rfl, Nat.lt_of_lt_of_le (hc₂.keyed hin rfl).1 hgraph.size, ?_⟩
    rw [(hspared _).isLoaded, isLoaded_marked_of_parsing _ _ _ hc']
    exact hc₂.unfinished hin
  · next hne =>
    obtain ⟨id, hid, hlt, hl⟩ := h.provisional _ _ hs
    have hother : id ≠ job.id := by
      rintro rfl
      exact hne ((hc₂.keyed hin rfl).2.symm.trans (hc₂.keyed hs hid).2)
    refine ⟨id, hid, Nat.lt_of_lt_of_le hlt hgraph.size, ?_⟩
    rw [(hspared _).isLoaded, entry_marked _ _ _ hother]
    exact hl

theorem Intact.withParsing (l : Loader) (parsing : Bool) : Intact l (l.withParsing parsing) :=
  of_slots (Tidy.setParsing parsing l) (fun _ => Cache.slot?_congr fun p => by cases p <;> rfl)
    (Nat.le_refl _) fun _ => rfl

/-- Loads that succeed leave all slots intact, and those that fail only poison some. -/
theorem Intact.loads : Loads Intact Lasts where
  toOutcomes := outcomes
  trail h h' ho hp := by
    have hk := h ho hp
    exact hk.trans (h' hk.orderly hk.provisional).1
  report event := fun l => of_graph (Tidy.report event l) rfl rfl
  source {l key _ _} _ _ := of_quiet (Quiet.reading.source _) (KeepsUnmarked.reading.source _) l
  program {l key _ _} _ _ := of_quiet (Quiet.reading.program _) (KeepsUnmarked.reading.program _) l
  seek hc request parent isMain := seeks.seek hc.toOrderly request parent isMain
  write {l key p id} hc hin f hf := by
    refine of_slots (Tidy.updateEntry id f l) (fun _ => rfl) (by simp) fun {id'} _ => ?_
    rw [Graph.entry_update]
    split
    · exact (hf _).loaded
    · rfl
  fails hc hd hrun h ho hp := by
    have hocc := hd.ready.orderly_occupied ho
    exact Kept.vacated hc hd hrun (h hocc (hd.provisional_occupied hp))
  succeeds {l l₂ job limit c} hc hd hrun h ho hp := by
    have hr := hd.ready
    obtain ⟨hk, hs⟩ := h (hr.orderly_occupied ho) (hd.provisional_occupied hp)
    refine ⟨Kept.concluded hc hd hrun hk, fun key p e hslot => ?_⟩
    obtain ⟨hc₂, hin⟩ := hr.inProgress_of_prepare hc hrun
    have ho₂ : (l₂.marked job.id job.target.filename c).Orderly :=
      ⟨hc₂.exclusive, hc₂.unmarked.of_eq rfl rfl⟩
    rw [(slot?_concluded ho₂ hin).2] at hslot
    split at hslot
    · cases hslot
    · next hne =>
      have hocc := hs _ _ _ hslot
      rwa [hr.slot?_occupied, if_neg hne] at hocc

/-! ## Between calls -/

/-- What does not take slots away. -/
def Keeping (l : Loader) : Operation → Prop
  | .invalidate _ => False
  | .clearCache => False
  | op => l.Regular op

theorem Keeping.regular {op : Operation} (h : l.Keeping op) : l.Regular op := by
  cases op <;> first | exact h | exact h.elim

/-- Fewer slots for the same entries. -/
theorem Provisional.of_fewer (h : l.Provisional) (ho : l.Orderly) (hg : l'.graph = l.graph)
    (hs : ∀ {key p s}, l'.cache.get? p key = some s → l.cache.get? p key = some s) : l'.Provisional := by
  intro key s hslot
  rw [hg]
  exact h _ _ (ho.exclusive.slot?_eq_some.mpr (hs (Cache.get?_of_slot? hslot)))

theorem Kept.after {op : Operation} (hc : l.Consistent) (hp : l.Provisional) (hop : l.Keeping op) :
    Kept l (l.after op) := by
  have ho := hc.toOrderly.after hop.regular.careful
  have hkept : ∀ {l' : Loader}, l'.Orderly → l'.cache = l.cache → l'.graph.size = l.graph.size →
      (∀ id, (l'.graph.entry id).isLoaded = (l.graph.entry id).isLoaded) → Kept l l' := by
    intro l' ho' hs hsize hloaded
    refine ⟨ho', hp.congr (fun _ => by rw [hs]) (Nat.le_of_eq hsize.symm) fun _ => hloaded _, ?_, ?_, ?_⟩
    · rw [hs]
      exact fun h => h
    · rw [hs]
      exact fun h hl => ⟨h, (hloaded _).trans hl⟩
    · rw [hs]
      exact fun {key p id} h => ⟨p, .inl h⟩
  cases op with
  | load request parent isMain => exact Intact.loads.follows_load hc request parent isMain hc.toOrderly hp
  | discover request parent => exact Intact.loads.follows_discover hc Intact.withParsing request parent hc.toOrderly hp
  | resolve request parent =>
    rw [Loader.after, run_resolve] at ho ⊢
    exact hkept ho rfl rfl fun _ => rfl
  | registerBuiltin name exports =>
    obtain ⟨hsize, hretains⟩ := l.retains_registerBuiltin name exports
    exact hkept ho rfl hsize fun id => (hretains id).loaded
  | registerCompiler extension c => exact hkept ho rfl rfl fun _ => rfl
  | changeFiles fs => exact hkept ho rfl rfl fun _ => rfl
  | invalidate key => exact hop.elim
  | clearCache => exact hop.elim
  | replaceCached p key id => exact hop.elim

/-- A loader between calls: nothing is in progress, and slots last. -/
structure Resting (l : Loader) : Prop extends Consistent l where
  provisional : l.Provisional
  idle : l.Idle

theorem Resting.after {op : Operation} (h : l.Resting) (hop : l.Regular op) : (l.after op).Resting := by
  refine { h.toConsistent.after hop with provisional := ?_, idle := h.idle.after ?_ }
  · cases op with
    | invalidate key => exact h.provisional.of_fewer h.toOrderly rfl get?_of_invalidate
    | clearCache => exact h.provisional.of_fewer h.toOrderly rfl fun {key p s} hs => by cases p <;> cases hs
    | replaceCached p key id => exact hop.elim
    | _ =>
      refine Kept.provisional (Kept.after h.toConsistent h.provisional ?_)
      exact hop
  · cases op <;> trivial

theorem Starts.resting (h : l.Starts) : l.Resting where
  toOrderly := h.orderly
  keyed hs _ := by
    rw [h.fresh.cache] at hs
    cases hs
  unfinished hp := by
    rw [InProgress, h.fresh.cache] at hp
    cases hp
  provisional := fun key s hs => by
    rw [h.fresh.cache] at hs
    cases hs
  idle := idle_of_empty h.fresh.cache

theorem Reachable.resting {allowed : Loader → Operation → Prop} (hallowed : ∀ l op, allowed l op → Regular l op)
    (h : Reachable Starts allowed l) : l.Resting :=
  h.invariant (fun _ => Starts.resting) fun _ _ hl hop => hl.after (hallowed _ _ hop)

theorem Resting.inProgress (h : l.Resting) (key : String) (p : Partition) (id : EntryId) :
    ¬ l.InProgress key p id := fun hp => h.idle.unmarked p key id (Cache.get?_of_slot? hp)

end Loader
end ModGraph
