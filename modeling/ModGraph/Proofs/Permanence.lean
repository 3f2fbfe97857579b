import ModGraph.Proofs.Failures

/-!
# Loaded modules stay as they are

A compiler writes to the entry that it was started for, and to no other. That is never an entry that is loaded,
nor one whose module is in progress (`Loader.Taken`): a compilation starts with a new entry, or with one that was
parsed only, and as long as nothing but loaded entries is put into slots from outside, an entry that is not loaded
has one slot at most (`Loader.Sole`). So what a load finds loaded it leaves as it is, and it adds children to nobody
but who asks (`Loader.Freezes`). This holds between calls and inside of them (`Loader.frozen_of_reachable`), and
nothing is assumed about the names of files.
-/

namespace ModGraph

open Relation (ReflTransGen)

namespace Loader

variable {l l' : Loader} {job : Job} {own asking : EntryId → Prop} {request : String} {parent : Option EntryId}
  {isMain : Bool} {id : EntryId}

/-! ## Entries with one slot -/

/-- An entry that is not loaded has one slot at most, and a module in progress is not loaded. -/
structure Sole (l : Loader) : Prop extends Grounded l where
  unfinished : ∀ {p key id}, l.Loading p key id → (l.graph.entry id).isLoaded = false
  single : ∀ {p q key k s s' id}, l.cache.get? p key = some s → l.cache.get? q k = some s' →
    s.entry? = some id → s'.entry? = some id → (l.graph.entry id).isLoaded = false → p = q ∧ key = k

/-- An entry is loaded, or its module is in progress. -/
structure Taken (l : Loader) (id : EntryId) : Prop where
  inRange : id < l.graph.size
  taken : (l.graph.entry id).isLoaded = true ∨ ∃ p key, l.Loading p key id

/-- Entries that are taken stay as they are, apart from some own ones, and get children only if they ask. The same
slots are marked, and no entry that there was becomes that of a builtin module. -/
structure Frozen (own asking : EntryId → Prop) (l l' : Loader) : Prop where
  sole : l'.Sole
  loading : ∀ p key id, l'.Loading p key id ↔ l.Loading p key id
  size : l.graph.size ≤ l'.graph.size
  builtin : ∀ {name id}, l'.cache.builtins.get? name = some id →
    l.cache.builtins.get? name = some id ∨ l.graph.size ≤ id
  entry : ∀ {id}, l.Taken id → ¬ own id → (l.graph.entry id).Spared (l'.graph.entry id)
  children : ∀ {id}, l.Taken id → ¬ own id → ¬ asking id →
    (l'.graph.entry id).children = (l.graph.entry id).children

theorem Frozen.taken (h : Frozen own asking l l') (ht : l.Taken id) (ho : ¬ own id) : l'.Taken id := by
  refine ⟨Nat.lt_of_lt_of_le ht.inRange h.size, ?_⟩
  rcases ht.taken with hl | ⟨p, key, hp⟩
  · exact .inl ((h.entry ht ho).isLoaded.trans hl)
  · exact .inr ⟨p, key, (h.loading p key id).mpr hp⟩

/-- Where unloaded entries have one slot at most, they keep that, and what is taken is frozen. -/
def Freezes (own asking : EntryId → Prop) (l l' : Loader) : Prop := l.Sole → Frozen own asking l l'

namespace Freezes

theorem refl (l : Loader) : Freezes own asking l l := fun hs =>
  ⟨hs, fun _ _ _ => Iff.rfl, Nat.le_refl _, .inl, fun _ _ => .refl _, fun _ _ _ => rfl⟩

theorem trans {l l' l'' : Loader} (h : Freezes own asking l l') (h' : Freezes own asking l' l'') :
    Freezes own asking l l'' := by
  intro hs
  have hl := h hs
  have hl' := h' hl.sole
  refine ⟨hl'.sole, fun p key id => (hl'.loading p key id).trans (hl.loading p key id),
    Nat.le_trans hl.size hl'.size, fun hb => ?_, fun ht ho => ?_, fun ht ho ha => ?_⟩
  · rcases hl'.builtin hb with hb | hb
    · exact hl.builtin hb
    · exact .inr (Nat.le_trans hl.size hb)
  · exact (hl.entry ht ho).trans (hl'.entry (hl.taken ht ho) ho)
  · exact (hl'.children (hl.taken ht ho) ho ha).trans (hl.children ht ho ha)

instance : IsPreorder Loader (Freezes own asking) where
  refl := refl
  trans _ _ _ := trans

theorem mono {own' asking' : EntryId → Prop} (hown : ∀ id, own id → own' id)
    (hasking : ∀ id, asking id → own' id ∨ asking' id) (h : Freezes own asking l l') :
    Freezes own' asking' l l' := fun hs =>
  have hl := h hs
  ⟨hl.sole, hl.loading, hl.size, hl.builtin, fun ht ho => hl.entry ht fun hid => ho (hown _ hid),
    fun ht ho ha => hl.children ht (fun hid => ho (hown _ hid)) fun hid => (hasking _ hid).elim ho ha⟩

/-- Where slots stay as they are, it is enough to look at the entries. -/
theorem of_slots (hb : Balanced l l') (hc : ∀ p key, l'.cache.get? p key = l.cache.get? p key)
    (hbuiltins : l'.cache.builtins = l.cache.builtins) (hsize : l.graph.size ≤ l'.graph.size)
    (hloaded : ∀ id < l.graph.size, (l'.graph.entry id).isLoaded = (l.graph.entry id).isLoaded)
    (hentry : ∀ id < l.graph.size, ¬ own id → (l.graph.entry id).Spared (l'.graph.entry id))
    (hchildren : ∀ id < l.graph.size, ¬ own id → ¬ asking id →
      (l'.graph.entry id).children = (l.graph.entry id).children) :
    Freezes own asking l l' := by
  intro hs
  obtain ⟨hg, hp⟩ := hb hs.toGrounded
  refine ⟨{ hg with unfinished := fun hl => ?_, single := fun hslot hslot' hid hid' hu => ?_ }, hp, hsize,
    fun hget => .inl (hbuiltins ▸ hget), fun ht => hentry _ ht.inRange, fun ht => hchildren _ ht.inRange⟩
  · have hl := (hp _ _ _).mp hl
    exact (hloaded _ (hs.slot hl rfl)).trans (hs.unfinished hl)
  · rw [hc] at hslot hslot'
    exact hs.single hslot hslot' hid hid' ((hloaded _ (hs.slot hslot hid)).symm.trans hu)

theorem of_same (hb : Balanced l l') (hc : l'.cache = l.cache) (hg : l'.graph = l.graph) :
    Freezes own asking l l' :=
  of_slots hb (fun _ _ => by rw [hc]) (by rw [hc]) (by rw [hg]) (fun _ _ => by rw [hg])
    (fun _ _ _ => by rw [hg]; exact .refl _) fun _ _ _ _ => by rw [hg]

theorem of_quiet {α : Type} {action : LoadM α} (h : Follows Quiet action) :
    Follows (Freezes own asking) action := fun l =>
  of_same (Balanced.of_quiet h l) (h l).cache (h l).graph

theorem report (event : Event) : Follows (Freezes own asking) (Loader.report event) := fun l =>
  of_same (Balanced.report event l) rfl rfl

/-- A compiler may write to its own entry. -/
theorem updateEntry (hown : own id) {f : Entry → Entry} (hf : ∀ e : Entry, e.Retains (f e)) :
    Follows (Freezes own asking) (Loader.updateEntry id f) := by
  intro l
  have hretains : ∀ id', (l.graph.entry id').Retains ((l.graph.update id f).entry id') := by
    intro id'
    rw [Graph.entry_update]
    split
    · exact hf _
    · exact ⟨rfl, rfl, rfl, rfl, rfl, rfl⟩
  refine of_slots (Balanced.updateEntry id (fun e => .of_retains (hf e)) l) (fun _ _ => rfl) rfl (by simp)
    (fun id' _ => (hretains id').loaded) (fun id' _ hid' => ?_) fun id' _ _ _ => (hretains id').children
  exact .update_of_ne _ f fun heq => hid' (heq ▸ hown)

theorem compiles (hown : own id) : Compiles id (Freezes own asking) where
  toIsPreorder := inferInstance
  report event _ := report event
  updateEntry hf := updateEntry hown hf
  source file := of_quiet (Quiet.reading.source file)
  program file := of_quiet (Quiet.reading.program file)

/-! ## Seeking a module -/

theorem link {referrer : Option Referrer} (hasking : ∀ r ∈ referrer, asking r.id) (request : String)
    (child : EntryId) : Follows (Freezes own asking) (Loader.link referrer request child) := by
  cases referrer with
  | none => exact fun l => refl l
  | some r =>
    intro l
    have hspared := Entry.Spared.update l.graph r.id (f := fun e => e.addChild request child)
      fun e => ⟨rfl, rfl, rfl, rfl, rfl⟩
    refine of_slots (Balanced.link (some r) request child l) (fun _ _ => rfl) rfl
      (Nat.le_of_eq (Graph.size_update _ _ _).symm)
      (fun id _ => (hspared id).isLoaded) (fun id _ _ => hspared id) fun id _ _ hid => ?_
    have hne : r.id ≠ id := fun heq => hid (heq ▸ hasking r rfl)
    exact congrArg Entry.children (Graph.entry_update_of_ne l.graph _ hne)

/-- A new entry is not taken. -/
theorem addEntry (e : Entry) : Follows (Freezes own asking) (Loader.addEntry e) := by
  intro l
  have hold : ∀ id < l.graph.size, (l.graph.add e).1.entry id = l.graph.entry id := fun id hid =>
    Graph.entry_add_of_lt _ _ hid
  refine of_slots (Balanced.addEntry e l) (fun _ _ => rfl) rfl (Nat.le_of_lt (by simp))
    (fun id hid => congrArg Entry.isLoaded (hold id hid)) (fun id hid _ => ?_)
    fun id hid _ _ => congrArg Entry.children (hold id hid)
  show (l.graph.entry id).Spared ((l.graph.add e).1.entry id)
  rw [hold id hid]
  exact .refl _

theorem builtin (name : String) : Follows (Freezes own asking) (Loader.builtin name) := by
  intro l hs
  have hbalanced := Balanced.builtin name l hs.toGrounded
  rw [run_builtin] at hbalanced ⊢
  unfold builtinOf at hbalanced ⊢
  cases hb : l.cache.builtins.get? name with
  | some made => exact refl l hs
  | none =>
    simp only [hb] at hbalanced
    have hadded : Frozen own asking l { l with graph := (l.graph.add (l.builtinEntry name)).1 } :=
      addEntry (l.builtinEntry name) l hs
    have hslots : ∀ p key, (l.cache.setBuiltin name l.graph.size).get? p key = l.cache.get? p key := fun p key => by
      cases p <;> rfl
    refine ⟨{ hbalanced.1 with
        unfinished := fun {p key id} hl => ?_
        single := fun {p q key k s s' id} hslot hslot' => ?_ },
      hbalanced.2, hadded.size, fun {name' id} hget => ?_, hadded.entry, hadded.children⟩
    · exact hadded.sole.unfinished (show l.cache.get? p key = some (.loading id) from (hslots p key).symm.trans hl)
    · exact hadded.sole.single (show l.cache.get? p key = some s from (hslots p key).symm.trans hslot)
        (show l.cache.get? q k = some s' from (hslots q k).symm.trans hslot')
    · change (l.cache.builtins.insert name l.graph.size).get? name' = some id at hget
      rw [Table.get?_insert] at hget
      split at hget
      · cases hget
        exact .inr (Nat.le_refl _)
      · exact .inl hget

/-- A slot that moves is still the only one of its entry. -/
theorem of_classification {key : String} {r : Except LoadError CacheLookup} (h : Classification l key r l') :
    Freezes own asking l l' := by
  have hbalanced := Balanced.of_classification h
  cases h with
  | failed => exact refl l
  | busy _ events => exact of_same hbalanced rfl rfl
  | used => exact refl l
  | parsed => exact refl l
  | absent => exact refl l
  | @adopted p moved hp hslot hfree =>
    have hget := get?_committed (l := l.noted [.adopts key]) hslot rfl p
    -- each slot there is now was there before, in discovery if it is the one that moved
    have hback : ∀ q k s, ((l.noted [.adopts key]).committed key p).cache.get? q k = some s →
        ∃ q', l.cache.get? q' k = some s ∧ (q = q' ∨ q = p ∧ k = key ∧ q' = .discovery) ∧
          (q = .discovery → k ≠ key) := by
      intro q k s hq
      rw [hget] at hq
      split at hq
      · next heq =>
        obtain ⟨rfl, rfl⟩ := heq
        exact ⟨.discovery, hslot.trans hq, .inr ⟨rfl, rfl, rfl⟩, fun hd => absurd hd hp⟩
      · split at hq
        · cases hq
        · next hne => exact ⟨q, hq, .inl rfl, fun hd hk => hne ⟨hd.symm, hk.symm⟩⟩
    intro hs
    obtain ⟨hg, hmarks⟩ := hbalanced hs.toGrounded
    refine ⟨{ hg with
        unfinished := fun hl => hs.unfinished ((hmarks _ _ _).mp hl)
        single := fun {q₁ q₂ k₁ k₂ s s' id} h₁ h₂ hid hid' hu => ?_ },
      hmarks, Nat.le_refl _, fun hb => .inl ?_, fun _ _ => .refl _, fun _ _ _ => rfl⟩
    · obtain ⟨p₁, hold₁, hp₁, hne₁⟩ := hback q₁ k₁ s h₁
      obtain ⟨p₂, hold₂, hp₂, hne₂⟩ := hback q₂ k₂ s' h₂
      obtain ⟨rfl, rfl⟩ := hs.single hold₁ hold₂ hid hid' hu
      refine ⟨?_, rfl⟩
      rcases hp₁ with rfl | ⟨rfl, hk, rfl⟩ <;> rcases hp₂ with rfl | ⟨rfl, hk', hd⟩
      · rfl
      · exact absurd hk' (hne₁ hd)
      · exact absurd hk (hne₂ rfl)
      · rfl
    · rwa [show ((l.noted [.adopts key]).committed key p).cache.builtins = l.cache.builtins from
        Cache.builtins_commit _ _ _] at hb

theorem seekTarget {referrer : Option Referrer} (hasking : ∀ r ∈ referrer, asking r.id) (request : String)
    (isMain : Bool) (target : Target) :
    Follows (Freezes own asking) (Loader.seekTarget request referrer isMain target) := by
  refine (report _).bind fun _ => .bind (fun l => of_classification (classification l _ _ _)) fun found => ?_
  cases found with
  | hit id => exact (report _).bind fun _ => (link hasking request id).bind fun _ => .pure _
  | evaluate p id => exact .pure _
  | miss p => exact (addEntry _).bind fun _ => .pure _

theorem seek (hasking : ∀ id ∈ parent, asking id) (request : String) (isMain : Bool) :
    Follows (Freezes own asking) (Loader.seek request parent isMain) := by
  intro l
  have hreferrer : ∀ r ∈ l.referrer? parent, asking r.id := by
    intro r hr
    obtain ⟨id, hid, rfl⟩ := Option.map_eq_some_iff.mp hr
    exact hasking id hid
  have hnoted : ∀ l : Loader, ∀ events, Freezes own asking l (l.noted events) := fun l events =>
    of_same (.of_cache (.refl _) rfl) rfl rfl
  have hretried : Freezes own asking l (l.retried request parent isMain) := hnoted _ _
  rw [run_seek_eq]
  dsimp only
  split
  · exact hretried
  · next name _ =>
    have hbuiltin : Freezes own asking _ _ := builtin name (l.retried request parent isMain)
    rw [run_builtin] at hbuiltin
    have hlinked : Freezes own asking _ _ := link hreferrer request
      ((l.retried request parent isMain).builtinOf name).1 ((l.retried request parent isMain).builtinOf name).2
    rw [run_link] at hlinked
    exact hretried.trans (hbuiltin.trans hlinked)
  · next file _ =>
    have hpackaged : Freezes own asking (l.retried request parent isMain)
        ((l.retried request parent isMain).packaged file) := of_same (.of_cache (.refl _) rfl) rfl rfl
    exact hretried.trans (hpackaged.trans (seekTarget hreferrer request isMain _ _))

end Freezes

/-- A module that is to be compiled has an entry that is not loaded. -/
theorem unloaded_of_seekTarget {referrer : Option Referrer} {target : Target}
    (h : l.run (seekTarget request referrer isMain target) = (.ok (.needs job), l')) :
    (l'.graph.entry job.id).isLoaded = false ∧ job.referrer = referrer := by
  obtain ⟨-, hreferrer, -, -, hrun | ⟨l₁, -, hid, rfl⟩⟩ := needs_of_seekTarget h
  · refine ⟨?_, hreferrer⟩
    rw [(classification_of_run hrun).graph_eq]
    exact unloaded_of_classify (congrArg Prod.fst hrun)
  · exact ⟨hid ▸ congrArg Entry.isLoaded (Graph.entry_add_self l₁.graph _), hreferrer⟩

/-- A module that is to be compiled has an entry that is not loaded, and no slot but the one for it. -/
structure Lone (l : Loader) (job : Job) : Prop extends Vacant l job where
  unloaded : (l.graph.entry job.id).isLoaded = false
  single : ∀ {q k s}, l.cache.get? q k = some s → s.entry? = some job.id →
    job.partition = q ∧ job.target.key = k

theorem lone_of_seekTarget {referrer : Option Referrer} {target : Target} (hs : l.Sole)
    (h : l.run (seekTarget request referrer isMain target) = (.ok (.needs job), l')) :
    l'.Lone job ∧ job.referrer = referrer := by
  have hvacant := vacant_of_seekTarget hs.toGrounded h
  obtain ⟨hunloaded, hreferrer⟩ := unloaded_of_seekTarget h
  have hfrozen : Freezes (fun _ => False) (fun _ => True) l
      (l.run (seekTarget request referrer isMain target)).2 :=
    Freezes.seekTarget (fun _ _ => trivial) request isMain target l
  rw [h] at hfrozen
  have hs' := (hfrozen hs).sole
  refine ⟨{ hvacant with unloaded := hunloaded, single := fun {q k s} hget hid => ?_ }, hreferrer⟩
  obtain ⟨-, -, -, rfl, hrun | ⟨l₁, hrun, hsize, rfl⟩⟩ := needs_of_seekTarget h
  · -- the slot is ready, and as its entry is not loaded it has no other one
    exact hs'.single (classification_of_run hrun).evaluate.2.1 hget rfl hid hunloaded
  · -- the entry is new, so that no slot leads to it
    obtain ⟨rfl, -, -⟩ := (classification_of_run hrun).miss
    have hold : l.cache.get? q k = some s := hget
    exact absurd (hs.slot hold hid) (Nat.not_lt.mpr (Nat.le_of_eq hsize.symm))

theorem lone_of_seek (hs : l.Sole) (h : l.run (seek request parent isMain) = (.ok (.needs job), l')) :
    l'.Lone job ∧ ∀ r ∈ job.referrer, r.id ∈ parent := by
  rw [run_seek_eq] at h
  dsimp only at h
  split at h
  · cases h
  · cases h
  · next file _ =>
    have hs₁ : ((l.retried request parent isMain).packaged file).Sole :=
      ⟨⟨hs.slot, hs.builtin⟩, hs.unfinished, hs.single⟩
    obtain ⟨hlone, hreferrer⟩ := lone_of_seekTarget hs₁ h
    refine ⟨hlone, fun r hr => ?_⟩
    rw [hreferrer] at hr
    obtain ⟨id, hid, rfl⟩ := Option.map_eq_some_iff.mp hr
    exact hid

/-! ## Compiling a module -/

theorem Sole.occupied (hs : l.Sole) (hl : l.Lone job) : (l.occupied job).Sole := by
  have hentry := entry_occupied l job
  refine { hs.toGrounded.occupied hl.toVacant with
    unfinished := fun {p key id} h => ?_
    single := fun {p q key k s s' id} h h' hid hid' hu => ?_ }
  · rw [(hentry id).2.1]
    obtain ⟨-, ⟨⟩⟩ | ⟨-, h⟩ := slot_of_occupied h
    · exact hl.unloaded
    · exact hs.unfinished h
  · rw [(hentry id).2.1] at hu
    rcases slot_of_occupied h with ⟨heq, rfl⟩ | ⟨hne, h⟩ <;>
      rcases slot_of_occupied h' with ⟨heq', rfl⟩ | ⟨hne', h'⟩
    · exact ⟨heq.1.symm.trans heq'.1, heq.2.symm.trans heq'.2⟩
    · cases hid
      exact absurd (hl.single h' hid') hne'
    · cases hid'
      exact absurd (hl.single h hid) hne
    · exact hs.single h h' hid hid' hu

/-- A module that takes its place is a child of who asked for it, and nobody else gets a child. -/
theorem children_concluded (l : Loader) (job : Job) (h : ∀ r ∈ job.referrer, r.id ≠ id) :
    ((l.concluded job).graph.entry id).children = (l.graph.entry id).children := by
  have hlinked : ∀ l₁ : Loader, ((l₁.linked job.referrer job.request job.id).graph.entry id).children
      = (l₁.graph.entry id).children := by
    intro l₁
    cases hr : job.referrer with
    | none => rfl
    | some r => exact congrArg Entry.children (Graph.entry_update_of_ne _ _ (h r hr))
  have hconcealed : ∀ (l₁ : Loader) format,
      ((l₁.concealed job format).graph.entry id).children = (l₁.graph.entry id).children := by
    intro l₁ format
    have hsevered : ((l₁.graph.update job.id fun e => { e with parent := none }).entry id).children
        = (l₁.graph.entry id).children := by
      rw [Graph.entry_update]
      split <;> rfl
    unfold concealed
    dsimp only
    split
    · rfl
    · split <;> split <;> first | exact hsevered | rfl
  exact (hconcealed _ _).trans (hlinked ((l.settled job).noted [.enters job.target.key .linking]))

/-- The entry of a module that is to be compiled is not taken. -/
theorem Lone.ne_of_taken (hl : l.Lone job) (ht : l.Taken id) : id ≠ job.id := by
  rintro rfl
  rcases ht.taken with h | ⟨p, key, h⟩
  · rw [hl.unloaded] at h
    cases h
  · obtain ⟨rfl, rfl⟩ := hl.single h rfl
    exact hl.idle _ h

theorem Lone.taken_occupied (hl : l.Lone job) (ht : l.Taken id) : (l.occupied job).Taken id := by
  refine ⟨size_occupied l job ▸ ht.inRange, ht.taken.imp (fun h => (entry_occupied l job id).2.1.trans h) ?_⟩
  rintro ⟨p, key, h⟩
  refine ⟨p, key, ?_⟩
  rw [Loading, get?_occupied]
  split
  · next heq =>
    obtain ⟨rfl, rfl⟩ := heq
    exact absurd h (hl.idle id)
  · exact h

/-- After its compilation a module is loaded or has one slot still. -/
theorem Sole.concluded {l₂ l₃ : Loader} (hs : l₂.Sole) (hin : l₂.Loading job.partition job.target.key job.id)
    (hg : l₃.Grounded) {final : Partition}
    (hget : ∀ q k, l₃.cache.get? q k = if final = q ∧ job.target.key = k then some (.ready job.id)
      else if job.partition = q ∧ job.target.key = k then none else l₂.cache.get? q k)
    (hentry : ∀ id, id ≠ job.id → (l₃.graph.entry id).isLoaded = (l₂.graph.entry id).isLoaded) : l₃.Sole := by
  have hu₂ := hs.unfinished hin
  -- a slot there is leads to the module, or it was there before and leads to another entry
  have hcases : ∀ {p key s id}, l₃.cache.get? p key = some s → s.entry? = some id →
      (final = p ∧ job.target.key = key) ∧ id = job.id ∧ s = .ready job.id ∨
        id ≠ job.id ∧ l₂.cache.get? p key = some s := by
    intro p key s id h hid
    rw [hget] at h
    split at h
    · next heq =>
      cases h
      exact .inl ⟨heq, (Option.some.inj hid).symm, rfl⟩
    · split at h
      · cases h
      · next hne =>
        refine .inr ⟨fun heq => hne ?_, h⟩
        subst heq
        exact hs.single hin h rfl hid hu₂
  refine { hg with unfinished := fun h => ?_, single := fun h h' hid hid' hu => ?_ }
  · rcases hcases h rfl with ⟨-, -, hready⟩ | ⟨hne, h⟩
    · cases hready
    · exact (hentry _ hne).trans (hs.unfinished h)
  · rcases hcases h hid with ⟨heq, rfl, -⟩ | ⟨hne, h⟩ <;> rcases hcases h' hid' with ⟨heq', hid₂, -⟩ | ⟨hne', h'⟩
    · exact ⟨heq.1.symm.trans heq'.1, heq.2.symm.trans heq'.2⟩
    · exact absurd rfl hne'
    · exact absurd hid₂ hne
    · exact hs.single h h' hid hid' ((hentry _ hne).symm.trans hu)

namespace Freezes

theorem prepare {nested : NestedLoad}
    (hn : ∀ request id, Follows (Freezes (fun _ => False) (· = id)) (nested request id)) (id : EntryId)
    (filename : Path) : Follows (Freezes (· = id) fun _ => False) (Loader.prepare nested id filename) := by
  have hcompiles : Compiles id (Freezes (· = id) fun _ => False) := compiles rfl
  refine (hcompiles.beginCompile filename).bind fun c => ?_
  refine Follows.bind (ends_self.mp (hcompiles.runTask .self (fun request => ends_self.mpr ?_) filename
    (Task.within_of_all report (fun _ => trivial) (fun _ => trivial) c.task))) fun _ => .pure _
  exact fun l => (hn request id l).mono (fun _ h => h.elim) fun _ h => .inl h

/-- What a module in progress leaves behind, wherever its compilation ends. -/
theorem of_bracket {l₂ l₃ : Loader} (hl : l.Lone job)
    (h₂ : Frozen (· = job.id) (fun _ => False) (l.occupied job) l₂)
    (hs₃ : l₃.Sole) (hloading : ∀ p key id, l₃.Loading p key id ↔ l.Loading p key id)
    (hsize : l₂.graph.size ≤ l₃.graph.size) (hbuiltins : l₃.cache.builtins = l₂.cache.builtins)
    (hentry : ∀ id, id ≠ job.id → (l₂.graph.entry id).Spared (l₃.graph.entry id))
    (hchildren : ∀ id, id ≠ job.id → ¬ asking id →
      (l₃.graph.entry id).children = (l₂.graph.entry id).children) :
    Frozen (fun _ => False) asking l l₃ := by
  have hsize₂ : l.graph.size ≤ l₂.graph.size := size_occupied l job ▸ h₂.size
  refine ⟨hs₃, hloading, Nat.le_trans hsize₂ hsize, fun {name id} hget => ?_, fun {id} ht _ => ?_,
    fun {id} ht _ ha => ?_⟩
  · rw [hbuiltins] at hget
    have hold := h₂.builtin hget
    rwa [builtins_occupied, size_occupied] at hold
  · have hne := hl.ne_of_taken ht
    have hspared := h₂.entry (hl.taken_occupied ht) hne
    rw [(entry_occupied l job id).2.2 hne] at hspared
    exact hspared.trans (hentry id hne)
  · have hne := hl.ne_of_taken ht
    have hkept := h₂.children (hl.taken_occupied ht) hne fun h => h
    rw [(entry_occupied l job id).2.2 hne] at hkept
    exact (hchildren id hne ha).trans hkept

/-- A compilation writes to the module's entry, and then to that of who asked for it. -/
theorem perform {nested : NestedLoad} (hb : ∀ request id, Follows Balanced (nested request id))
    (hn : ∀ request id, Follows (Freezes (fun _ => False) (· = id)) (nested request id)) (hl : l.Lone job)
    (hasking : ∀ r ∈ job.referrer, asking r.id) :
    Freezes (fun _ => False) asking l (l.run (Loader.perform nested job)).2 := by
  intro hs
  have hbalanced := Balanced.perform hb hl.toVacant hs.toGrounded
  have hprepared := prepare hn job.id job.target.filename (l.occupied job) (hs.occupied hl)
  have hloading : ∀ r l₂, (l.occupied job).run (Loader.prepare nested job.id job.target.filename) = (r, l₂) →
      l₂.Grounded ∧ l₂.Loading job.partition job.target.key job.id := fun r l₂ =>
    Balanced.loading_of_prepare hb hs.toGrounded hl.toVacant
  rw [Balanced.run_perform hb hs.toGrounded hl.toVacant] at hbalanced ⊢
  generalize (l.occupied job).run (Loader.prepare nested job.id job.target.filename) = r
    at hbalanced hprepared hloading ⊢
  obtain ⟨e | c, l₂⟩ := r
  · obtain ⟨-, hin⟩ := hloading _ _ rfl
    obtain ⟨hg₃, hmarks⟩ := hbalanced
    have hgraph := graph_vacated l₂ job e
    have hold : ∀ {p key s id}, (l₂.vacated job e).cache.get? p key = some s → s.entry? = some id →
        l₂.cache.get? p key = some s := by
      intro p key s id h hid
      obtain ⟨-, rfl⟩ | ⟨-, h⟩ := slot_of_vacated h
      · cases hid
      · exact h
    refine of_bracket hl hprepared { hg₃ with
        unfinished := fun h => ?_
        single := fun h h' hid hid' hu => ?_ } hmarks (Nat.le_of_eq (by rw [hgraph]))
      (builtins_vacated l₂ job e) (fun id _ => by rw [hgraph]; exact .refl _) fun id _ _ => by rw [hgraph]
    · show ((l₂.vacated job e).graph.entry _).isLoaded = false
      rw [hgraph]
      exact hprepared.sole.unfinished (hold h rfl)
    · rw [show (l₂.vacated job e).graph = l₂.graph from hgraph] at hu
      exact hprepared.sole.single (hold h hid) (hold h' hid') hid hid' hu
  · obtain ⟨-, hin⟩ := hloading _ _ rfl
    obtain ⟨hg₃, hmarks⟩ := hbalanced
    have hmarked : (l₂.marked job.id job.target.filename c).Loading job.partition job.target.key job.id := hin
    have hspared : ∀ id, id ≠ job.id → (l₂.graph.entry id).Spared
        (((l₂.marked job.id job.target.filename c).concluded job).graph.entry id) := fun id hne => by
      have hentry := entry_concluded (l₂.marked job.id job.target.filename c) job id
      rwa [entry_marked l₂ job.target.filename c hne] at hentry
    have hsize : l₂.graph.size ≤ ((l₂.marked job.id job.target.filename c).concluded job).graph.size :=
      Nat.le_trans (evolves_marked l₂ _ _ c).graph.size (develops_concluded hmarked).size
    refine of_bracket hl hprepared
      (hprepared.sole.concluded hin hg₃ (get?_concluded hmarked) fun id hne => (hspared id hne).isLoaded)
      hmarks hsize (builtins_concluded (l₂.marked job.id job.target.filename c) job) hspared fun id hne ha => ?_
    have hreferrer : ∀ r ∈ job.referrer, r.id ≠ id := fun r hr hid => ha (hid ▸ hasking r hr)
    refine (children_concluded _ job hreferrer).trans ?_
    exact congrArg Entry.children (entry_marked l₂ job.target.filename c hne)

theorem answer {nested : NestedLoad} (hb : ∀ request id, Follows Balanced (nested request id))
    (hn : ∀ request id, Follows (Freezes (fun _ => False) (· = id)) (nested request id)) (request : String)
    (parent : Option EntryId) (isMain : Bool) :
    Follows (Freezes (fun _ => False) (· ∈ parent)) (Loader.answer nested request parent isMain) := fun l hs =>
  Follows.rel_answer (seek (fun _ h => h) request isMain l) (fun hr =>
    have ⟨hlone, hasking⟩ := lone_of_seek hs hr
    perform hb hn hlone hasking) hs

/-- Nested loads freeze what is taken, however deep they go. -/
theorem loadNested (limit : Nat) (request : String) (id : EntryId) :
    Follows (Freezes (fun _ => False) (· = id)) (Loader.loadNested limit request id) :=
  .loadNested (R := fun id => Freezes (fun _ => False) (· = id)) (fun _ => report) (fun limit ih request id l =>
    (answer (Balanced.loadNested limit) ih request (some id) false l).mono (fun _ h => h)
      fun _ h => .inr (Option.some.inj h).symm) limit request id

theorem load (request : String) (parent : Option EntryId) (isMain : Bool) :
    Follows (Freezes (fun _ => False) (· ∈ parent)) (Loader.load request parent isMain) :=
  Follows.get.bind fun _ =>
    .reported report (answer (Balanced.loadNested _) (loadNested _) request parent isMain) request

theorem withParsing (l : Loader) (parsing : Bool) : Freezes own asking l (l.withParsing parsing) :=
  of_slots (.withParsing l parsing) (fun p _ => by cases p <;> rfl) rfl (Nat.le_refl _) (fun _ _ => rfl)
    (fun _ _ _ => .refl _) fun _ _ _ _ => rfl

theorem discover (request : String) (parent : Option EntryId) :
    Follows (Freezes (fun _ => False) (· ∈ parent)) (Loader.discover request parent) := by
  intro l
  rw [run_discover]
  exact (withParsing l true).trans ((load request parent false _).trans (withParsing _ _))

end Freezes

/-! ## Inside of a call -/

/-- What is loaded stays as it is, apart from the children of some entries. -/
def Persists (asking : EntryId → Prop) (l l' : Loader) : Prop :=
  ∀ id, (l.graph.entry id).isLoaded = true → (l.graph.entry id).Spared (l'.graph.entry id) ∧
    (¬ asking id → (l'.graph.entry id).children = (l.graph.entry id).children)

namespace Persists

theorem of_graph (h : l'.graph = l.graph) : Persists asking l l' := fun _ _ => by
  rw [h]
  exact ⟨.refl _, fun _ => rfl⟩

theorem trans {l'' : Loader} (h : Persists asking l l') (h' : Persists asking l' l'') : Persists asking l l'' := by
  intro id hid
  obtain ⟨hspared, hchildren⟩ := h id hid
  obtain ⟨hspared', hchildren'⟩ := h' id (hspared.isLoaded.trans hid)
  exact ⟨hspared.trans hspared', fun ha => (hchildren' ha).trans (hchildren ha)⟩

/-- Nobody's children are asked for who is not loaded. -/
theorem mono {asking' : EntryId → Prop} (h : Persists asking l l')
    (ha : ∀ id, (l.graph.entry id).isLoaded = true → asking id → asking' id) : Persists asking' l l' :=
  fun id hid => ⟨(h id hid).1, fun hn => (h id hid).2 fun hasking => hn (ha id hid hasking)⟩

/-- What is frozen persists, if the entries that may be written to are not loaded. -/
theorem of_frozen (h : Frozen own asking l l') (ho : ∀ id, own id → (l.graph.entry id).isLoaded = false) :
    Persists asking l l' := by
  intro id hid
  have hown : ¬ own id := fun hown => by
    rw [ho id hown] at hid
    cases hid
  have ht : l.Taken id := ⟨lt_size_of_isLoaded hid, .inl hid⟩
  exact ⟨h.entry ht hown, h.children ht hown⟩

end Persists

end Loader

namespace Moment

open Loader

variable {asking : EntryId → Prop} {m m' first : Moment} {job : Job} {t : Task} {l : Loader}

/-- Who asks at a moment is not loaded yet, unless it may ask anyway. -/
structure Guarded (asking : EntryId → Prop) (m : Moment) : Prop where
  sole : m.loader.Sole
  asks : ∀ id ∈ m.parent, asking id ∨ ∃ p key, m.loader.Loading p key id

/-- What a moment leads to as long as the module is compiled that is asked for at it. -/
structure Midway (asking : EntryId → Prop) (m : Moment) (job : Job) (l : Loader) : Prop where
  sole : l.Sole
  marked : l.Loading job.partition job.target.key job.id
  loading : ∀ {p key id}, m.loader.Loading p key id → l.Loading p key id
  persists : m.loader.Persists asking l
  referrer : ∀ r ∈ job.referrer, r.id ∈ m.parent

theorem Midway.unloaded (h : m.Midway asking job l) : (l.graph.entry job.id).isLoaded = false :=
  h.sole.unfinished h.marked

/-- Who is loaded while a module is compiled did not ask for it, unless it may. -/
theorem Guarded.may_ask (hm : m.Guarded asking) (h : m.Midway asking job l) {id : EntryId} (hid : id ∈ m.parent)
    (hl : (l.graph.entry id).isLoaded = true) : asking id := by
  rcases hm.asks id hid with ha | ⟨p, key, hp⟩
  · exact ha
  · rw [h.sole.unfinished (h.loading hp)] at hl
    cases hl

theorem Guarded.midway (h : m.Guarded asking) (hm : m.Compiling job t l) : m.Midway asking job l := by
  obtain ⟨l₁, hseek, htask⟩ := hm.ran
  rw [run_seeking] at hseek
  have hs₀ : (m.loader.noted [.enters m.request .resolving]).Sole :=
    ⟨⟨h.sole.slot, h.sole.builtin⟩, h.sole.unfinished, h.sole.single⟩
  have hsought : Freezes (fun _ => False) (· ∈ m.parent) _ _ :=
    Freezes.seek (fun _ h => h) m.request m.isMain (m.loader.noted [.enters m.request .resolving])
  rw [hseek] at hsought
  have h₁ := hsought hs₀
  obtain ⟨hlone, hreferrer⟩ := lone_of_seek hs₀ hseek
  have hs₂ : (l₁.occupied job).Sole := h₁.sole.occupied hlone
  have hown : Compiles job.id (Freezes (· = job.id) fun _ => False) := Freezes.compiles rfl
  have hbegun := hown.beginCompile job.target.filename (l₁.occupied job)
  rw [run_beginCompile] at hbegun
  have hran : Freezes (· = job.id) (fun _ => False) _ l := rel_of_taskSteps hown Freezes.report
    (fun request l => (Freezes.loadNested m.limit request job.id l).mono (fun _ h => h.elim) fun _ h => .inl h) htask
  have h₃ := (hbegun.trans hran) hs₂
  have hmarked : (l₁.occupied job).Loading job.partition job.target.key job.id :=
    (get?_occupied l₁ job _ _).trans (if_pos ⟨rfl, rfl⟩)
  refine ⟨h₃.sole, (h₃.loading _ _ _).mpr hmarked, fun {p key id} hp => ?_, fun id hid => ?_, hreferrer⟩
  · refine (h₃.loading p key id).mpr ?_
    have hp₁ : l₁.Loading p key id := (h₁.loading p key id).mpr hp
    rw [Loading, get?_occupied]
    split
    · next heq =>
      obtain ⟨rfl, rfl⟩ := heq
      exact absurd hp₁ (hlone.idle id)
    · exact hp₁
  · have ht : (m.loader.noted [.enters m.request .resolving]).Taken id := ⟨lt_size_of_isLoaded hid, .inl hid⟩
    have ht₁ := h₁.taken ht fun h => h
    have hne := hlone.ne_of_taken ht₁
    have hspared := h₃.entry (hlone.taken_occupied ht₁) hne
    have hchildren := h₃.children (hlone.taken_occupied ht₁) hne fun h => h
    rw [(entry_occupied l₁ job id).2.2 hne] at hspared hchildren
    refine ⟨(h₁.entry ht fun h => h).trans hspared, fun ha => ?_⟩
    refine hchildren.trans (h₁.children ht (fun h => h) fun hparent => ?_)
    rcases h.asks id hparent with ha' | ⟨p, key, hp⟩
    · exact ha ha'
    · -- who is in progress is not loaded
      rw [h.sole.unfinished hp] at hid
      cases hid

/-- What is left of a task decides how the request ends for which the module is compiled. -/
theorem run_action_of_compiling (hs : m.loader.Sole) (hm : m.Compiling job t l) : ∃ c, m.loader.run m.action =
    match l.run (runTask (loadNested m.limit) job.id job.target.filename t) with
    | (.error e, l₂) => (.error e, (l₂.vacated job e).noted [.fails m.request e])
    | (.ok _, l₂) =>
      (.ok job.id, ((l₂.marked job.id job.target.filename c).concluded job).noted [.enters m.request .done]) := by
  obtain ⟨l₁, hseek, htask⟩ := hm.ran
  have hs₀ : (m.loader.noted [.enters m.request .resolving]).Sole :=
    ⟨⟨hs.slot, hs.builtin⟩, hs.unfinished, hs.single⟩
  have hfound := hseek
  rw [run_seeking] at hfound
  have hsought : Freezes (fun _ => False) (· ∈ m.parent) _ _ :=
    Freezes.seek (fun _ h => h) m.request m.isMain (m.loader.noted [.enters m.request .resolving])
  rw [hfound] at hsought
  obtain ⟨hlone, -⟩ := lone_of_seek hs₀ hfound
  have htasked := run_runTask_of_taskSteps htask
  dsimp only at htasked
  refine ⟨(l₁.occupied job).compilation job.id job.target.filename, ?_⟩
  rw [run_action, hseek]
  dsimp only
  rw [Balanced.run_perform (Balanced.loadNested m.limit) (hsought hs₀).sole.toGrounded hlone.toVacant, run_prepare,
    htasked]
  generalize l.run (runTask (loadNested m.limit) job.id job.target.filename t) = r
  obtain ⟨_ | _, _⟩ := r <;> rfl

/-- What is loaded while a module is compiled is still the same when the request for that module is answered. -/
theorem Guarded.persists (h : m.Guarded asking) (hm : m.Compiling job t l) :
    l.Persists asking (m.loader.run m.action).2 := by
  have hc := h.midway hm
  obtain ⟨c, hrun⟩ := run_action_of_compiling h.sole hm
  have hown : Compiles job.id (Freezes (· = job.id) fun _ => False) := Freezes.compiles rfl
  have htask : Follows (Freezes (· = job.id) fun _ => False)
      (runTask (loadNested m.limit) job.id job.target.filename t) :=
    ends_self.mp (hown.runTask .self (fun request => ends_self.mpr fun l =>
      (Freezes.loadNested m.limit request job.id l).mono (fun _ h => h.elim) fun _ h => .inl h) _
      (Task.within_of_all Freezes.report (fun _ => trivial) (fun _ => trivial) t))
  have hkept : l.Persists (fun _ => False) (l.run (runTask (loadNested m.limit) job.id job.target.filename t)).2 :=
    .of_frozen (htask l hc.sole) fun id hid => (show id = job.id from hid) ▸ hc.unloaded
  have hrest : l.Persists asking _ := hkept.mono fun _ _ h => h.elim
  rw [hrun]
  generalize l.run (runTask (loadNested m.limit) job.id job.target.filename t) = r at hrest ⊢
  obtain ⟨e | _, l₂⟩ := r
  · exact hrest.trans (.of_graph (graph_vacated l₂ job e))
  · -- the entry that is marked was not loaded, so that nobody else's is written to but that of who asked
    intro id hid
    obtain ⟨hspared, hchildren⟩ := hrest id hid
    have hne : id ≠ job.id := fun heq => by
      rw [heq, hc.unloaded] at hid
      cases hid
    have hentry := entry_concluded (l₂.marked job.id job.target.filename c) job id
    rw [entry_marked l₂ job.target.filename c hne] at hentry
    refine ⟨hspared.trans hentry, fun ha => ?_⟩
    have hreferrer : ∀ r ∈ job.referrer, r.id ≠ id := by
      rintro r hr rfl
      exact ha (h.may_ask hc (hc.referrer r hr) hid)
    have hlinked := children_concluded (l₂.marked job.id job.target.filename c) job hreferrer
    rw [entry_marked l₂ job.target.filename c hne] at hlinked
    exact hlinked.trans (hchildren ha)

/-- A module in progress asks for another one: who is loaded by then stays as it is until then, and what the nested
request leaves behind stays as it is until the outer one is answered. -/
theorem Guarded.of_asks (h : m.Guarded asking) (ha : m.Asks m') :
    m'.Guarded asking ∧ m.loader.Persists asking m'.loader ∧
      (m'.loader.run m'.action).2.Persists asking (m.loader.run m.action).2 := by
  obtain ⟨limit, job, request, next, l, hlimit, hm, rfl⟩ := asks_iff.mp ha
  have hc := h.midway hm
  refine ⟨⟨hc.sole, fun id hid => .inr ?_⟩, hc.persists, ?_⟩
  · obtain rfl : job.id = id := Option.some.inj hid
    exact ⟨_, _, hc.marked⟩
  obtain ⟨c, hrun⟩ := run_action_of_compiling h.sole hm
  have hnested : Moment.action ⟨limit, request, some job.id, false, job :: m.stack, l⟩
      = loadNested m.limit request job.id := by
    rw [hlimit]
    rfl
  rw [hnested]
  dsimp only
  cases hr : l.run (loadNested m.limit request job.id) with
  | mk r l₁ =>
    cases r with
    | error e =>
      have htask : l.run (runTask (loadNested m.limit) job.id job.target.filename (.require request next))
          = (.error e, l₁) := by
        rw [runTask, run_bind, hr]
        rfl
      rw [hrun, htask]
      exact .of_graph (graph_vacated l₁ job e)
    | ok child =>
      -- the task goes on from there
      have hstep : TaskStep (loadNested m.limit) job.id job.target.filename (.require request next, l)
          (next ⟨(l₁.graph.entry child).key, (l₁.graph.entry child).isLoaded,
            (l₁.graph.entry child).module.exports⟩, l₁) := by
        show l.run _ = _
        rw [stepTask, run_bind, hr]
        rfl
      obtain ⟨hseek, hoccupy, hbegin, htask⟩ := hm
      exact h.persists ⟨hseek, hoccupy, hbegin, htask.tail hstep⟩

theorem Guarded.of_reachable (h : first.Guarded asking) (ha : ReflTransGen Asks first m) :
    m.Guarded asking ∧ first.loader.Persists asking m.loader ∧
      (m.loader.run m.action).2.Persists asking (first.loader.run first.action).2 := by
  induction ha with
  | refl => exact ⟨h, .of_graph rfl, .of_graph rfl⟩
  | tail _ hstep ih =>
    obtain ⟨hguarded, hbefore, hafter⟩ := ih
    obtain ⟨hguarded', hbefore', hafter'⟩ := hguarded.of_asks hstep
    exact ⟨hguarded', hbefore.trans hbefore', hafter'.trans hafter⟩

end Moment

/-! ## Between calls -/

/-- The entry that a call names as the one that asks. -/
def Operation.parent? : Operation → Option EntryId
  | .load _ parent _ | .discover _ parent | .resolve _ parent => parent
  | _ => none

namespace Loader

variable {l l' : Loader} {id : EntryId} {op : Operation} {m : Moment}

/-- Only entries that are loaded are put into slots from outside. -/
def Considerate (l : Loader) : Operation → Prop
  | .replaceCached _ _ id => (l.graph.entry id).isLoaded = true
  | _ => True

/-- A module that is loaded and not builtin. -/
structure Finished (l : Loader) (id : EntryId) : Prop where
  loaded : (l.graph.entry id).isLoaded = true
  ordinary : ∀ name, l.cache.builtins.get? name ≠ some id

/-- Finished modules stay as they are, and get children only if they ask. -/
structure Preserves (asking : EntryId → Prop) (l l' : Loader) : Prop where
  sole : l'.Sole
  ordinary : ∀ {id}, l.Finished id → ∀ name, l'.cache.builtins.get? name ≠ some id
  entry : ∀ {id}, l.Finished id → (l.graph.entry id).Spared (l'.graph.entry id)
  children : ∀ {id}, l.Finished id → ¬ asking id → (l'.graph.entry id).children = (l.graph.entry id).children

theorem Preserves.finished {asking : EntryId → Prop} (h : Preserves asking l l') (hid : l.Finished id) :
    l'.Finished id :=
  ⟨(h.entry hid).isLoaded.trans hid.loaded, h.ordinary hid⟩

theorem Frozen.preserves {own asking : EntryId → Prop} (h : Frozen own asking l l')
    (ho : ∀ id, own id → ¬ l.Finished id) : Preserves asking l l' := by
  have htaken : ∀ {id}, l.Finished id → l.Taken id := fun hid =>
    ⟨lt_size_of_isLoaded hid.loaded, .inl hid.loaded⟩
  refine ⟨h.sole, fun hid name hb => ?_, fun hid => h.entry (htaken hid) fun hown => ho _ hown hid,
    fun hid => h.children (htaken hid) fun hown => ho _ hown hid⟩
  rcases h.builtin hb with hold | hnew
  · exact hid.ordinary name hold
  · exact absurd (htaken hid).inRange (Nat.not_lt.mpr hnew)

theorem Sole.of_fewer (h : l.Sole) (hg : l'.graph = l.graph) (hb : l'.cache.builtins = l.cache.builtins)
    (hs : ∀ {p key s}, l'.cache.get? p key = some s → l.cache.get? p key = some s) : l'.Sole := by
  have hgrounded := h.toGrounded.develop (hg ▸ .refl _) (fun hslot hid => hg ▸ h.slot (hs hslot) hid) hb
  refine { hgrounded with unfinished := fun hl => ?_, single := fun hslot hslot' hid hid' hu => ?_ }
  · rw [hg]
    exact h.unfinished (hs hl)
  · rw [hg] at hu
    exact h.single (hs hslot) (hs hslot') hid hid' hu

theorem Preserves.of_fewer {asking : EntryId → Prop} (h : l.Sole) (hg : l'.graph = l.graph)
    (hb : l'.cache.builtins = l.cache.builtins)
    (hs : ∀ {p key s}, l'.cache.get? p key = some s → l.cache.get? p key = some s) : Preserves asking l l' :=
  ⟨h.of_fewer hg hb hs, fun hid name => hb ▸ hid.ordinary name, fun _ => hg ▸ .refl _, fun _ _ => by rw [hg]⟩

/-- Only the entry of the builtin module that is registered is written to. -/
theorem Sole.preserves_registerBuiltin (h : l.Sole) (name : String) (exports : Json.Value) :
    Preserves (· ∈ none) l (l.after (.registerBuiltin name exports)) := by
  obtain ⟨hsize, hretains⟩ := l.retains_registerBuiltin name exports
  have hbalanced : Balanced l (l.after (.registerBuiltin name exports)) :=
    .of_cache ⟨Nat.le_of_eq hsize.symm, fun _ => .of_retains (hretains _)⟩ rfl
  have hentry : ∀ id, l.cache.builtins.get? name ≠ some id →
      (l.graph.entry id).Spared ((l.after (.registerBuiltin name exports)).graph.entry id) := by
    intro id hne
    simp only [Loader.after, registerBuiltin, run_modify]
    split
    · exact .refl _
    · next made hmade => exact .update_of_ne _ _ fun heq => hne (heq ▸ hmade)
  have hfreezes : Freezes (fun id => l.cache.builtins.get? name = some id) (· ∈ none) l _ :=
    .of_slots hbalanced (fun _ _ => rfl) rfl (Nat.le_of_eq hsize.symm) (fun id _ => (hretains id).loaded)
      (fun id _ hne => hentry id hne) fun id _ _ _ => (hretains id).children
  exact (hfreezes h).preserves fun id hmade hid => hid.ordinary name hmade

/-- A slot may be given to a module that is loaded. -/
theorem Sole.preserves_set {asking : EntryId → Prop} (h : l.Sole) (hloaded : (l.graph.entry id).isLoaded = true)
    (p : Partition) (key : String) : Preserves asking l { l with cache := l.cache.set p key (.ready id) } := by
  have hget := fun q k => Cache.get?_set l.cache p q key k (.ready id)
  have hbuiltins : (l.cache.set p key (.ready id)).builtins = l.cache.builtins := Cache.builtins_set _ _ _ _
  -- what is in a slot was there before, or is loaded
  have hslots : ∀ {q k s}, (l.cache.set p key (.ready id)).get? q k = some s →
      s = .ready id ∨ l.cache.get? q k = some s := by
    intro q k s hslot
    rw [hget] at hslot
    split at hslot
    · exact .inl (Option.some.inj hslot).symm
    · exact .inr hslot
  have hold : ∀ {q k s id'}, (l.cache.set p key (.ready id)).get? q k = some s → s.entry? = some id' →
      (l.graph.entry id').isLoaded = false → l.cache.get? q k = some s := by
    intro q k s id' hslot hid' hu
    rcases hslots hslot with rfl | hslot
    · cases hid'
      rw [hloaded] at hu
      cases hu
    · exact hslot
  refine ⟨⟨⟨fun {q k s id'} hslot hid' => ?_, fun hb => h.builtin (hbuiltins ▸ hb)⟩, fun {q k id'} hl => ?_,
    fun hslot hslot' hid hid' hu => h.single (hold hslot hid hu) (hold hslot' hid' hu) hid hid' hu⟩,
    fun hid name hb => hid.ordinary name (hbuiltins ▸ hb), fun _ => .refl _, fun _ _ => rfl⟩
  · rcases hslots hslot with rfl | hslot
    · cases hid'
      exact lt_size_of_isLoaded hloaded
    · exact h.slot hslot hid'
  · rcases hslots hl with heq | hl
    · cases heq
    · exact h.unfinished hl

theorem Sole.preserves_after (h : l.Sole) (hop : l.Considerate op) : Preserves (· ∈ op.parent?) l (l.after op) := by
  cases op with
  | load request parent isMain => exact (Freezes.load request parent isMain l h).preserves fun _ ho => ho.elim
  | discover request parent => exact (Freezes.discover request parent l h).preserves fun _ ho => ho.elim
  | resolve request parent =>
    rw [Loader.after, run_resolve]
    exact .of_fewer h rfl rfl fun hs => hs
  | invalidate key =>
    have hbuiltins : (l.cache.invalidate key).builtins = l.cache.builtins := by
      simp [Cache.invalidate, Partition.all]
    exact .of_fewer h rfl hbuiltins get?_of_invalidate
  | clearCache => exact .of_fewer h rfl rfl fun {p key s} hs => by cases p <;> cases hs
  | registerBuiltin name exports => exact h.preserves_registerBuiltin name exports
  | registerCompiler extension c => exact .of_fewer h rfl rfl fun hs => hs
  | replaceCached p key id => exact h.preserves_set hop p key
  | changeFiles fs => exact .of_fewer h rfl rfl fun hs => hs

theorem sole_of_empty (h : l.cache = .empty) : l.Sole := by
  have hget : ∀ p key, l.cache.get? p key = none := fun p key => by
    rw [h]
    cases p <;> rfl
  refine { (idle_of_empty h).toGrounded with
    unfinished := fun {p key _} hl => ?_
    single := fun {p _ key _ _ _ _} hslot => ?_ }
  · rw [Loading, hget] at hl
    cases hl
  · rw [hget] at hslot
    cases hslot

theorem Sole.finished_of_reachable (hs : l.Sole) (hid : l.Finished id) (h : Reachable (· = l) Considerate l') :
    l'.Sole ∧ l'.Finished id ∧ (l.graph.entry id).Spared (l'.graph.entry id) := by
  induction h with
  | start heq =>
    subst heq
    exact ⟨hs, hid, .refl _⟩
  | after _ hop ih =>
    obtain ⟨hs', hid', hspared⟩ := ih
    have hpreserves := hs'.preserves_after hop
    exact ⟨hpreserves.sole, hpreserves.finished hid', hspared.trans (hpreserves.entry hid')⟩

/-- A call answers its request from the moment at which it begins. -/
theorem graph_after_of_beginning (h : l.beginning? op = some m) : m.parent = op.parent? ∧
    m.loader.graph = l.graph ∧ (l.after op).graph = (m.loader.run m.action).2.graph ∧ (l.Sole → m.loader.Sole) := by
  unfold beginning? at h
  split at h
  · obtain rfl := Option.some.inj h
    refine ⟨rfl, rfl, ?_, fun hs => hs⟩
    rw [Loader.after, run_load_eq]
  · next request parent =>
    obtain rfl := Option.some.inj h
    refine ⟨rfl, rfl, ?_, fun hs =>
      (Freezes.withParsing l true hs : Frozen (fun _ => False) (fun _ => False) _ _).sole⟩
    rw [Loader.after, run_discover, run_load_eq]
    rfl
  · cases h

theorem Sole.persists_of_compiling (hs : l.Sole) (hm : l.ComesTo op m) {job : Job} {t : Task} {l' : Loader}
    (hc : m.Compiling job t l') :
    l.Persists (· ∈ op.parent?) l' ∧ l'.Persists (· ∈ op.parent?) (l.after op) := by
  obtain ⟨first, hfirst, hasks⟩ := hm
  obtain ⟨hparent, hgraph, hafter, hsole⟩ := graph_after_of_beginning hfirst
  have hguarded : first.Guarded (· ∈ op.parent?) := ⟨hsole hs, fun id hid => .inl (hparent ▸ hid)⟩
  obtain ⟨hm, hbefore, hrest⟩ := hguarded.of_reachable hasks
  have hstart : l.Persists (· ∈ op.parent?) first.loader := .of_graph hgraph
  have hend : (first.loader.run first.action).2.Persists (· ∈ op.parent?) (l.after op) := .of_graph hafter
  exact ⟨hstart.trans (hbefore.trans (hm.midway hc).persists), ((hm.persists hc).trans hrest).trans hend⟩

/-- A module that is loaded and not builtin keeps its key, its format, whether it was parsed, its package and its
module, that is its exports, id, filename, search paths and that it is loaded; and it gets children only in calls
that name it as their parent. This holds from call to call, whatever files and compilers there are, and inside of a
call as well: what is loaded at its beginning is as it was while any module is compiled, and what is loaded then is
so when the call ends. -/
theorem frozen_of_reachable (h : Reachable (fun l => l.cache = .empty) Considerate l) :
    (∀ id, (l.graph.entry id).isLoaded = true → (∀ name, l.cache.builtins.get? name ≠ some id) →
      ∀ l', Reachable (· = l) Considerate l' → (l.graph.entry id).Spared (l'.graph.entry id) ∧
        ∀ op, Considerate l' op → op.parent? ≠ some id →
          ((l'.after op).graph.entry id).children = (l'.graph.entry id).children) ∧
    ∀ op m job t l', l.ComesTo op m → m.Compiling job t l' →
      l.Persists (· ∈ op.parent?) l' ∧ l'.Persists (· ∈ op.parent?) (l.after op) := by
  have hs : l.Sole := h.invariant (fun _ => sole_of_empty) fun _ _ hl hop => (hl.preserves_after hop).sole
  refine ⟨fun id hid hb l' hr => ?_, fun op m job t l' hm hc => hs.persists_of_compiling hm hc⟩
  obtain ⟨hs', hfinished, hspared⟩ := hs.finished_of_reachable ⟨hid, hb⟩ hr
  exact ⟨hspared, fun op hop hparent => (hs'.preserves_after hop).children hfinished hparent⟩

/-- One of two modules that ask for each other is put into a slot of the other one's. -/
theorem frozen_circular :
    let l := (circular.after (.load "./a.js" none true)).after (.replaceCached .legacy "/app/b.js" 0)
    (∀ id, (l.graph.entry id).isLoaded = true → (∀ name, l.cache.builtins.get? name ≠ some id) →
      ∀ l', Reachable (· = l) Considerate l' → (l.graph.entry id).Spared (l'.graph.entry id) ∧
        ∀ op, Considerate l' op → op.parent? ≠ some id →
          ((l'.after op).graph.entry id).children = (l'.graph.entry id).children) ∧
    ∀ op m job t l', l.ComesTo op m → m.Compiling job t l' →
      l.Persists (· ∈ op.parent?) l' ∧ l'.Persists (· ∈ op.parent?) (l.after op) :=
  frozen_of_reachable (.after (.after (.start rfl) trivial)
    (show ((circular.after (.load "./a.js" none true)).graph.entry 0).isLoaded = true by decide +kernel))

end Loader
end ModGraph
