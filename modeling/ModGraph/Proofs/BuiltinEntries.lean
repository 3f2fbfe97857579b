import ModGraph.Proofs.Permanence

/-!
# Entries of builtin modules

The entry of a builtin module is loaded from the start. So it is never compiled, and all that a load writes to it are
the edges of requests that it makes itself (`Loader.Besides`). A relation between loaders that holds along every other
small change therefore holds along whole loads (`Loader.Sustains.load`). Nothing is assumed about the names of files,
and entries may have several slots; it only takes that slots lead to entries that there are.
-/

namespace ModGraph

open Relation (ReflTransGen)

namespace Loader

variable {R : Loader → Loader → Prop} {l l' : Loader} {job : Job} {own own' : EntryId → Prop} {strict : Prop}
  {request : String} {parent : Option EntryId} {isMain : Bool} {id : EntryId}

/-- An entry that is not that of a builtin module. -/
structure NonBuiltin (l : Loader) (id : EntryId) : Prop where
  inRange : id < l.graph.size
  nameless : ∀ name, l.cache.builtins.get? name ≠ some id

theorem Grounded.nonBuiltin (h : l.Grounded) (hid : id < l.graph.size) (hu : (l.graph.entry id).isLoaded = false) :
    l.NonBuiltin id := by
  refine ⟨hid, fun name hb => ?_⟩
  rw [(h.builtin hb).2] at hu
  cases hu

theorem NonBuiltin.of_same (h : l.NonBuiltin id) (hsize : l.graph.size ≤ l'.graph.size)
    (hb : l'.cache.builtins = l.cache.builtins) : l'.NonBuiltin id :=
  ⟨Nat.lt_of_lt_of_le h.inRange hsize, fun name => hb ▸ h.nameless name⟩

/-- A builtin module has a new entry, or the one that it had. -/
theorem builtins_of_builtinOf {name name' : String}
    (h : (l.builtinOf name).2.cache.builtins.get? name' = some id) :
    l.cache.builtins.get? name' = some id ∨
      name = name' ∧ l.cache.builtins.get? name = none ∧ id = l.graph.size := by
  unfold builtinOf at h
  cases hb : l.cache.builtins.get? name with
  | some made =>
    rw [hb] at h
    exact .inl h
  | none =>
    rw [hb] at h
    change (l.cache.builtins.insert name l.graph.size).get? name' = some id at h
    rw [Table.get?_insert] at h
    split at h
    · next heq => exact .inr ⟨heq, rfl, (Option.some.inj h).symm⟩
    · exact .inl h

/-- Builtin modules have entries that there are, each its own. -/
structure Enlisted (l : Loader) : Prop where
  inRange : ∀ {name id}, l.cache.builtins.get? name = some id → id < l.graph.size
  distinct : ∀ {name name' id}, l.cache.builtins.get? name = some id → l.cache.builtins.get? name' = some id →
    name = name'

namespace Enlisted

theorem of_empty (h : l.cache = .empty) : l.Enlisted := by
  have hnone : ∀ {name id}, l.cache.builtins.get? name ≠ some id := by
    intro name id hget
    rw [h] at hget
    cases hget
  exact ⟨fun hget => absurd hget hnone, fun hget => absurd hget hnone⟩

theorem of_same (h : l.Enlisted) (hb : l'.cache.builtins = l.cache.builtins) (hsize : l.graph.size ≤ l'.graph.size) :
    l'.Enlisted where
  inRange hget := Nat.lt_of_lt_of_le (h.inRange (hb ▸ hget)) hsize
  distinct hget hget' := h.distinct (hb ▸ hget) (hb ▸ hget')

theorem builtinOf (h : l.Enlisted) (name : String) : (l.builtinOf name).2.Enlisted := by
  have hsize : l.graph.size ≤ (l.builtinOf name).2.graph.size := by
    have hgrown := (Evolves.respects.builtin name l).graph.size
    rwa [run_builtin] at hgrown
  refine ⟨fun {name' id} hget => ?_, fun {name₁ name₂ id} h₁ h₂ => ?_⟩
  · rcases builtins_of_builtinOf hget with hold | ⟨rfl, hnone, rfl⟩
    · exact Nat.lt_of_lt_of_le (h.inRange hold) hsize
    · unfold Loader.builtinOf
      rw [hnone]
      exact (Graph.size_add _ _).symm ▸ Nat.lt_succ_self _
  · -- the number of an entry tells whether it is the new one
    rcases builtins_of_builtinOf h₁ with hold₁ | ⟨rfl, -, rfl⟩ <;> rcases builtins_of_builtinOf h₂ with hold₂ | ⟨rfl, -, hid⟩
    · exact h.distinct hold₁ hold₂
    · exact absurd (hid ▸ h.inRange hold₁) (Nat.lt_irrefl _)
    · exact absurd (h.inRange hold₂) (Nat.lt_irrefl _)
    · rfl

end Enlisted

/-- A builtin module that has no entry yet gets one as it is to be, and the others keep theirs. -/
theorem entry_builtinOf (h : l.Enlisted) {name name' : String}
    (hget : (l.builtinOf name).2.cache.builtins.get? name' = some id) :
    l.cache.builtins.get? name' = some id ∧ (l.builtinOf name).2.graph.entry id = l.graph.entry id ∨
      name = name' ∧ (l.builtinOf name).2.graph.entry id = l.builtinEntry name := by
  have hsame : ∀ id < l.graph.size, (l.builtinOf name).2.graph.entry id = l.graph.entry id := by
    intro id hid
    unfold builtinOf
    split
    · rfl
    · exact Graph.entry_add_of_lt _ _ hid
  rcases builtins_of_builtinOf hget with hold | ⟨rfl, hnone, rfl⟩
  · exact .inl ⟨hold, hsame id (h.inRange hold)⟩
  · refine .inr ⟨rfl, ?_⟩
    unfold builtinOf
    rw [hnone]
    exact Graph.entry_add_self _ _

/-- The small changes of a loader go along a relation, as far as they do not write to the entries of builtin modules.
Where it is strict, such an entry makes no requests either. -/
structure Sustains (strict : Prop) (R : Loader → Loader → Prop) : Prop extends IsPreorder Loader R where
  report : ∀ event, Follows R (report event)
  updateCache : ∀ {f}, (∀ c : Cache, (f c).builtins = c.builtins) → Follows R (updateCache f)
  updateEntry : ∀ {l id}, l.NonBuiltin id → ∀ {f}, (∀ e : Entry, e.Develops (f e)) →
    R l (l.run (updateEntry id f)).2
  link : ∀ {l} {r : Referrer}, (strict → l.NonBuiltin r.id) → ∀ request child,
    R l (l.run (link (some r) request child)).2
  addEntry : ∀ e, Follows R (addEntry e)
  builtin : ∀ name, Follows R (builtin name)
  package : ∀ {l request parent isMain file}, l.resolved request parent isMain = .ok (.file file) →
    R l (l.run (packageOfFile file)).2
  source : ∀ file, Follows R (sourceOf file)
  program : ∀ file, Follows R (programOf file)

/-- Along a relation, if own entries are not those of builtin modules; none becomes such an entry. -/
def Besides (own : EntryId → Prop) (R : Loader → Loader → Prop) (l l' : Loader) : Prop :=
  (∀ id, own id → l.NonBuiltin id) → (∀ id, l.NonBuiltin id → l'.NonBuiltin id) ∧ R l l'

/-- The same for a loader whose slots lead to entries that there are. -/
def Steadily (own : EntryId → Prop) (R : Loader → Loader → Prop) (l l' : Loader) : Prop :=
  l.Grounded → l'.Grounded ∧ Besides own R l l'

namespace Besides

instance [IsPreorder Loader R] : IsPreorder Loader (Besides own R) where
  refl l _ := ⟨fun _ h => h, Std.Refl.refl l⟩
  trans _ _ _ h h' hown :=
    have hl := h hown
    have hl' := h' fun id hid => hl.1 id (hown id hid)
    ⟨fun id hid => hl'.1 id (hl.1 id hid), IsTrans.trans _ _ _ hl.2 hl'.2⟩

theorem mono (h : Besides own R l l') (ho : ∀ id, own id → own' id) : Besides own' R l l' := fun hown =>
  h fun id hid => hown id (ho id hid)

theorem of_same (hsize : l.graph.size ≤ l'.graph.size) (hb : l'.cache.builtins = l.cache.builtins)
    (hR : (∀ id, own id → l.NonBuiltin id) → R l l') : Besides own R l l' := fun hown =>
  ⟨fun _ hid => hid.of_same hsize hb, hR hown⟩

end Besides

namespace Steadily

instance [IsPreorder Loader R] : IsPreorder Loader (Steadily own R) where
  refl l hg := ⟨hg, Std.Refl.refl (r := Besides own R) l⟩
  trans _ _ _ h h' hg :=
    have hl := h hg
    have hl' := h' hl.1
    ⟨hl'.1, IsTrans.trans (r := Besides own R) _ _ _ hl.2 hl'.2⟩

theorem of_balanced (hb : Balanced l l') (h : Besides own R l l') : Steadily own R l l' := fun hg => ⟨(hb hg).1, h⟩

end Steadily

/-- A module that needs to be compiled is not loaded, and it is asked for by who makes the request. -/
theorem asker_of_seek (h : l.run (seek request parent isMain) = (.ok (.needs job), l')) :
    (l'.graph.entry job.id).isLoaded = false ∧ ∀ r ∈ job.referrer, r.id ∈ parent := by
  rw [run_seek_eq] at h
  dsimp only at h
  split at h
  · cases h
  · cases h
  · obtain ⟨hunloaded, hreferrer⟩ := unloaded_of_seekTarget h
    refine ⟨hunloaded, fun r hr => ?_⟩
    rw [hreferrer] at hr
    obtain ⟨id, hid, rfl⟩ := Option.map_eq_some_iff.mp hr
    exact hid

namespace Sustains

variable (h : Sustains strict R)
include h

/-! ## Small changes -/

theorem besidesReport (event : Event) : Follows (Besides own R) (Loader.report event) := fun l =>
  .of_same (Nat.le_refl _) rfl fun _ => h.report event l

theorem besidesNoted (l : Loader) (events : List Event) : Besides own R l (l.noted events) := by
  have := h.toIsPreorder
  induction events with
  | nil => exact refl l
  | cons event rest ih => exact IsTrans.trans _ _ _ ih (h.besidesReport event (l.noted rest))

theorem besidesUpdateCache {f : Cache → Cache} (hf : ∀ c : Cache, (f c).builtins = c.builtins) :
    Follows (Besides own R) (Loader.updateCache f) := fun l =>
  .of_same (Nat.le_refl _) (hf _) fun _ => h.updateCache hf l

theorem besidesUpdateEntry (hown : own id) {f : Entry → Entry} (hf : ∀ e : Entry, e.Develops (f e)) :
    Follows (Besides own R) (Loader.updateEntry id f) := fun _ =>
  .of_same (Nat.le_of_eq (Graph.size_update _ _ _).symm) rfl fun ho => h.updateEntry (ho id hown) hf

theorem besidesLink {referrer : Option Referrer} (hown : strict → ∀ r ∈ referrer, own r.id) (request : String)
    (child : EntryId) : Follows (Besides own R) (Loader.link referrer request child) := by
  have := h.toIsPreorder
  cases referrer with
  | none => exact .pure _
  | some r =>
    exact fun l => .of_same (Nat.le_of_eq (Graph.size_update _ _ _).symm) rfl fun ho =>
      h.link (fun hs => ho r.id (hown hs r rfl)) request child

theorem besidesBuiltin (name : String) : Follows (Besides own R) (Loader.builtin name) := by
  intro l _
  refine ⟨fun id hid => ?_, h.builtin name l⟩
  have hsize := (Evolves.respects.builtin name l).graph.size
  rw [run_builtin] at hsize ⊢
  refine ⟨Nat.lt_of_lt_of_le hid.inRange hsize, fun name' hget => ?_⟩
  rcases builtins_of_builtinOf hget with hold | ⟨-, -, rfl⟩
  · exact hid.nameless name' hold
  · exact Nat.lt_irrefl _ hid.inRange

theorem compiles (hown : own id) : Compiles id (Besides own R) where
  toIsPreorder := have := h.toIsPreorder; inferInstance
  report event _ := h.besidesReport event
  updateEntry hf := h.besidesUpdateEntry hown fun e => .of_retains (hf e)
  source file l := by
    have hquiet := Quiet.reading.source file l
    exact .of_same (by rw [hquiet.graph]) (by rw [hquiet.cache]) fun _ => h.source file l
  program file l := by
    have hquiet := Quiet.reading.program file l
    exact .of_same (by rw [hquiet.graph]) (by rw [hquiet.cache]) fun _ => h.program file l

/-! ## Seeking a module -/

theorem besidesCommit (key : String) (p : Partition) : Follows (Besides own R) (commit key p) := by
  have := h.toIsPreorder
  refine Follows.get.bind fun _ => (h.besidesUpdateCache fun c => Cache.builtins_commit c key p).bind fun _ => ?_
  exact .onlyIf (h.besidesReport _)

theorem besidesClassify (key : String) (fixed : Option Format) (unexposed : Bool) :
    Follows (Besides own R) (classify key fixed unexposed) := by
  have := h.toIsPreorder
  intro l
  have hclass := classification l key fixed unexposed
  generalize l.run (classify key fixed unexposed) = r at hclass
  obtain ⟨found, l'⟩ := r
  cases hclass with
  | failed => exact refl _
  | busy _ events => exact h.besidesNoted l events
  | used _ _ => exact refl _
  | parsed _ _ => exact refl _
  | @adopted p id _ hslot _ =>
    have hmoved : Follows (Besides own R) (Loader.updateCache fun c => (c.commit key p).1) :=
      h.besidesUpdateCache fun c => Cache.builtins_commit c key p
    have hcommitted : Follows (Besides own R) (do
        Loader.updateCache fun c => (c.commit key p).1
        Loader.report (.commits key p)) := hmoved.bind fun _ => h.besidesReport _
    exact IsTrans.trans _ _ _ (h.besidesNoted l _) (hcommitted (l.noted [.adopts key]))
  | absent _ _ => exact refl _

theorem besidesSeekTarget {referrer : Option Referrer} (hown : strict → ∀ r ∈ referrer, own r.id) (request : String)
    (isMain : Bool) (target : Target) :
    Follows (Besides own R) (seekTarget request referrer isMain target) := by
  have := h.toIsPreorder
  refine (h.besidesReport _).bind fun _ => (h.besidesClassify _ _ _).bind fun found => ?_
  cases found with
  | hit id => exact (h.besidesReport _).bind fun _ => (h.besidesLink hown request id).bind fun _ => .pure _
  | evaluate p id => exact .pure _
  | miss p =>
    refine .bind (fun l => .of_same (Nat.le_of_lt (by simp)) rfl fun _ => h.addEntry _ l) fun _ => .pure _

theorem besidesSeek (hown : strict → ∀ id ∈ parent, own id) (request : String) (isMain : Bool) :
    Follows (Besides own R) (seek request parent isMain) := by
  have := h.toIsPreorder
  intro l
  have hreferrer : strict → ∀ r ∈ l.referrer? parent, own r.id := by
    intro hs r hr
    obtain ⟨id, hid, rfl⟩ := Option.map_eq_some_iff.mp hr
    exact hown hs id hid
  have hretried : Besides own R l (l.retried request parent isMain) := h.besidesNoted l _
  rw [run_seek_eq]
  dsimp only
  split
  · exact hretried
  · next name _ =>
    have hlinked : Follows (Besides own R) (do
        let id ← Loader.builtin name
        Loader.link (l.referrer? parent) request id) :=
      (h.besidesBuiltin name).bind fun id => h.besidesLink hreferrer request id
    have hl := hlinked (l.retried request parent isMain)
    rw [run_bind, run_builtin, andThen_ok, run_link] at hl
    exact IsTrans.trans _ _ _ hretried hl
  · next file hr =>
    have hfound : (l.retried request parent isMain).resolved request parent isMain = .ok (.file file) := hr
    have hpackaged : Besides own R (l.retried request parent isMain) ((l.retried request parent isMain).packaged file) := by
      refine .of_same (Nat.le_refl _) rfl fun _ => ?_
      have hl := h.package hfound
      rwa [run_packageOfFile] at hl
    exact IsTrans.trans _ _ _ hretried (IsTrans.trans _ _ _ hpackaged (h.besidesSeekTarget hreferrer request isMain _ _))

/-! ## Compiling a module -/

theorem besidesOccupy (hown : own job.id) : Follows (Besides own R) (occupy job) := by
  have := h.toIsPreorder
  refine (h.besidesUpdateCache fun c => Cache.builtins_set _ _ _ _).bind fun _ => ?_
  refine .bind (.onlyIf ?_) fun _ => h.besidesReport _
  refine .bind (h.besidesUpdateEntry hown fun e => ⟨rfl, rfl, fun he => he⟩) fun _ => ?_
  exact h.besidesUpdateCache fun c => rfl

theorem besidesVacate (job : Job) (e : LoadError) : Follows (Besides own R) (vacate job e) := by
  have := h.toIsPreorder
  refine .ite ((h.besidesReport _).bind fun _ => h.besidesUpdateCache fun c => Cache.builtins_set _ _ _ _) ?_
  refine Follows.get.bind fun _ => .onlyIf ?_
  exact (h.besidesUpdateCache fun c => Cache.builtins_delete _ _ _).bind fun _ => h.besidesReport _

theorem besidesConclude (hown : own job.id) (hreferrer : strict → ∀ r ∈ job.referrer, own r.id) :
    Follows (Besides own R) (conclude job) := by
  have := h.toIsPreorder
  have hfinish : ∀ p key, Follows (Besides own R) (Loader.updateCache fun c => c.finish p key) := fun p key =>
    h.besidesUpdateCache fun c => Cache.builtins_finish c p key
  have hsettle : ∀ format, Follows (Besides own R)
      (settle job.partition job.target.key job.target.package.isUnexposed format) := fun format =>
    Follows.get.bind fun _ => .ite ((h.besidesCommit _ _).bind fun _ => hfinish _ _) (hfinish _ _)
  have hconceal : ∀ format, Follows (Besides own R)
      (conceal job.referrer job.isMain job.target.package.isUnexposed job.target.key job.id format) := by
    intro format
    refine Follows.get.bind fun l => .onlyIf (.bind (.onlyIf ?_) fun _ => .onlyIf ?_)
    · exact (h.besidesReport _).bind fun _ => h.besidesUpdateCache fun c => rfl
    · exact h.besidesUpdateEntry hown fun e => ⟨rfl, rfl, fun he => he⟩
  refine Follows.bind (fun l => refl l) fun e => (hsettle _).bind fun _ => (h.besidesReport _).bind fun _ => ?_
  exact (h.besidesLink hreferrer _ _).bind fun _ => hconceal _

theorem steadilyReport (event : Event) : Follows (Steadily own R) (Loader.report event) := fun l =>
  .of_balanced (Balanced.report event l) (h.besidesReport event l)

theorem steadilyCompiles (id : EntryId) : Compiles id (Steadily (· = id) R) :=
  have hbesides : Compiles id (Besides (· = id) R) := h.compiles rfl
  { toIsPreorder := have := h.toIsPreorder; inferInstance
    report := fun event _ => h.steadilyReport event
    updateEntry := fun hf l => .of_balanced (Balanced.updateEntry id (fun e => .of_retains (hf e)) l)
      (hbesides.updateEntry hf l)
    source := fun file l => .of_balanced ((Balanced.compiles id).source file l) (hbesides.source file l)
    program := fun file l => .of_balanced ((Balanced.compiles id).program file l) (hbesides.program file l) }

/-- While a module is compiled, nothing but its own entry is written to. -/
theorem steadilyCompile {nested : NestedLoad} (hn : ∀ request id, Follows (Steadily (· = id) R) (nested request id))
    (id : EntryId) (filename : Path) : Follows (Steadily (· = id) R) (compile nested id filename) := by
  have hf : ∀ e : Entry, e.Develops (e.setLoaded true) := fun _ => ⟨rfl, rfl, fun _ => rfl⟩
  refine (h.steadilyCompiles id).compile h.steadilyReport (fun l => ?_) (fun request => hn request id) filename
  have hbesides : Follows (Besides (· = id) R) (Loader.updateEntry id fun e => e.setLoaded true) :=
    h.besidesUpdateEntry (by rfl) hf
  exact .of_balanced (Balanced.updateEntry id hf l) (hbesides l)

/-- A compilation writes to the module's entry, and then to that of who asked for it. -/
theorem steadilyPerform {nested : NestedLoad} (hb : ∀ request id, Follows Balanced (nested request id))
    (hn : ∀ request id, Follows (Steadily (· = id) R) (nested request id)) (hv : l.Vacant job)
    (hjob : l.NonBuiltin job.id) (hreferrer : strict → ∀ r ∈ job.referrer, own r.id) :
    Steadily own R l (l.run (perform nested job)).2 := by
  have := h.toIsPreorder
  intro hg
  refine ⟨(Balanced.perform hb hv hg).1, fun hown => ?_⟩
  let own' (id : EntryId) : Prop := id = job.id ∨ own id
  have hwhole : Besides own' R l (l.run (perform nested job)).2 := by
    have hoccupied : Besides own' R l (l.occupied job) := by
      have hl : Besides own' R l (l.run (occupy job)).2 := h.besidesOccupy (.inl rfl) l
      rwa [run_occupy] at hl
    have hcompiled : Besides own' R (l.occupied job) _ :=
      (h.steadilyCompile hn job.id job.target.filename (l.occupied job) (hg.occupied hv)).2.mono fun _ => .inl
    unfold perform
    rw [run_bind, run_occupy, andThen_ok, run_bind, run_onError]
    generalize (l.occupied job).run (compile nested job.id job.target.filename) = r at hcompiled ⊢
    refine IsTrans.trans _ _ _ hoccupied (IsTrans.trans _ _ _ hcompiled ?_)
    obtain ⟨e | _, l₂⟩ := r
    · have hvacated : Besides own' R l₂ _ := h.besidesVacate job e l₂
      dsimp only
      generalize l₂.run (vacate job e) = r at hvacated ⊢
      obtain ⟨_ | _, _⟩ := r <;> exact hvacated
    · exact ((h.besidesConclude (.inl rfl) fun hs r hr => .inr (hreferrer hs r hr)).bind fun _ => .pure job.id) l₂
  exact hwhole fun id hid => hid.elim (fun heq => heq ▸ hjob) (hown id)

/-! ## Answering requests -/

theorem steadilyAnswer {nested : NestedLoad} (hb : ∀ request id, Follows Balanced (nested request id))
    (hn : ∀ request id, Follows (Steadily (· = id) R) (nested request id))
    (hown : strict → ∀ id ∈ parent, own id) (request : String) (isMain : Bool) :
    Follows (Steadily own R) (answer nested request parent isMain) := by
  have := h.toIsPreorder
  intro l hg
  have hseek : Steadily own R l _ :=
    .of_balanced (Balanced.seek request parent isMain l) (h.besidesSeek hown request isMain l)
  refine Follows.rel_answer hseek (fun {l₁ job} hr => ?_) hg
  have hvacant := vacant_of_seek hg hr
  obtain ⟨hunloaded, hreferrer⟩ := asker_of_seek hr
  rw [hr] at hseek
  exact h.steadilyPerform hb hn hvacant ((hseek hg).1.nonBuiltin hvacant.inRange hunloaded) fun hs r hrr =>
    hown hs r.id (hreferrer r hrr)

/-- Nested loads write to no entry of a builtin module, however deep they go. -/
theorem steadilyLoadNested (limit : Nat) (request : String) (id : EntryId) :
    Follows (Steadily (· = id) R) (loadNested limit request id) := by
  have := h.toIsPreorder
  refine .loadNested (R := fun id => Steadily (· = id) R) (fun _ => h.steadilyReport)
    (fun limit ih request id => ?_) limit request id
  exact h.steadilyAnswer (Balanced.loadNested limit) ih (fun _ _ ho => (Option.some.inj ho).symm) request false

theorem steadilyAction (m : Moment) (hown : strict → ∀ id ∈ m.parent, own id) :
    Steadily own R m.loader (m.loader.run m.action).2 :=
  have := h.toIsPreorder
  Follows.reported h.steadilyReport
    (h.steadilyAnswer (Balanced.loadNested _) (h.steadilyLoadNested _) hown m.request m.isMain) m.request m.loader

theorem steadilyLoad (hown : strict → ∀ id ∈ parent, own id) (request : String) (isMain : Bool) :
    Follows (Steadily own R) (load request parent isMain) := by
  have := h.toIsPreorder
  exact Follows.get.bind fun _ => .reported h.steadilyReport
    (h.steadilyAnswer (Balanced.loadNested _) (h.steadilyLoadNested _) hown request isMain) request

/-- What the small changes of a loader go along a load goes along. -/
theorem load (hg : l.Grounded) (hparent : strict → ∀ id ∈ parent, l.NonBuiltin id) (request : String) (isMain : Bool) :
    R l (l.run (Loader.load request parent isMain)).2 := by
  let own (id : EntryId) : Prop := strict ∧ id ∈ parent
  have hload : Steadily own R l _ := h.steadilyLoad (fun hs _ hid => ⟨hs, hid⟩) request isMain l
  exact ((hload hg).2 fun id hid => hparent hid.1 id hid.2).2

theorem withParsing (l : Loader) (parsing : Bool) : R l (l.withParsing parsing) :=
  h.updateCache (f := fun c => { c with parsing := parsing }) (fun _ => rfl) l

theorem discover (hg : l.Grounded) (hparent : strict → ∀ id ∈ parent, l.NonBuiltin id) (request : String) :
    R l (l.run (Loader.discover request parent)).2 := by
  have := h.toIsPreorder
  have hload := h.load (Balanced.withParsing l true hg).1
    (fun hs id hid => (hparent hs id hid).of_same (Nat.le_refl _) rfl) request false
  rw [run_discover]
  exact IsTrans.trans _ _ _ (h.withParsing l true) (IsTrans.trans _ _ _ hload (h.withParsing _ _))

/-! ## Inside of a call -/

/-- A module that is compiled has an entry of its own, and so far all went along. -/
theorem compiling {m : Moment} {t : Task} (hg : m.loader.Grounded)
    (hparent : strict → ∀ id ∈ m.parent, m.loader.NonBuiltin id) (hm : m.Compiling job t l) :
    l.Grounded ∧ l.NonBuiltin job.id ∧ R m.loader l := by
  have := h.toIsPreorder
  obtain ⟨l₁, hseek, htask⟩ := hm.ran
  let own (id : EntryId) : Prop := strict ∧ id ∈ m.parent
  rw [run_bind, run_report, andThen_ok] at hseek
  have hnoted : Steadily own R m.loader (m.loader.noted [.enters m.request .resolving]) :=
    h.steadilyReport (.enters m.request .resolving) m.loader
  have hsought : Steadily own R (m.loader.noted [.enters m.request .resolving]) l₁ := by
    have hbesides : Follows (Besides own R) (seek m.request m.parent m.isMain) :=
      h.besidesSeek (fun hs _ hid => ⟨hs, hid⟩) m.request m.isMain
    have hl := Steadily.of_balanced (Balanced.seek m.request m.parent m.isMain _)
      (hbesides (m.loader.noted [.enters m.request .resolving]))
    rwa [show (m.loader.noted [.enters m.request .resolving]).run _ = _ from hseek] at hl
  have hvacant := vacant_of_seek (hnoted hg).1 hseek
  obtain ⟨hg₁, hbesides⟩ := (IsTrans.trans _ _ _ hnoted hsought : Steadily own R m.loader l₁) hg
  have hjob : l₁.NonBuiltin job.id := hg₁.nonBuiltin hvacant.inRange (asker_of_seek hseek).1
  have hoccupied : Besides (· = job.id) R l₁ (l₁.occupied job) := by
    have hfollows : Follows (Besides (· = job.id) R) (occupy job) := h.besidesOccupy (by rfl)
    have hl := hfollows l₁
    rwa [run_occupy] at hl
  have hbegun := (h.steadilyCompiles job.id).beginCompile job.target.filename (l₁.occupied job)
  rw [run_beginCompile] at hbegun
  have hran : Steadily (· = job.id) R _ _ := Moment.rel_of_taskSteps (h.steadilyCompiles job.id) h.steadilyReport
    (fun request => h.steadilyLoadNested m.limit request job.id) htask
  obtain ⟨hg', hran'⟩ := (IsTrans.trans _ _ _ hbegun hran : Steadily (· = job.id) R (l₁.occupied job) l)
    (hg₁.occupied hvacant)
  obtain ⟨hkept, hR⟩ := (IsTrans.trans _ _ _ hoccupied hran' : Besides (· = job.id) R l₁ l) fun _ heq => heq ▸ hjob
  exact ⟨hg', hkept _ hjob, IsTrans.trans _ _ _ (hbesides fun id hid => hparent hid.1 id hid.2).2 hR⟩

theorem of_asks {m m' : Moment} (hg : m.loader.Grounded)
    (hparent : strict → ∀ id ∈ m.parent, m.loader.NonBuiltin id) (ha : ReflTransGen Moment.Asks m m') :
    m'.loader.Grounded ∧ (strict → ∀ id ∈ m'.parent, m'.loader.NonBuiltin id) ∧ R m.loader m'.loader := by
  have := h.toIsPreorder
  induction ha with
  | refl => exact ⟨hg, hparent, refl _⟩
  | tail _ hstep ih =>
    obtain ⟨hg', hparent', hR⟩ := ih
    obtain ⟨limit, job, request, next, l, -, hm, rfl⟩ := Moment.asks_iff.mp hstep
    obtain ⟨hl, hjob, hR'⟩ := h.compiling hg' hparent' hm
    exact ⟨hl, fun _ id hid => Option.some.inj hid ▸ hjob, IsTrans.trans _ _ _ hR hR'⟩

end Sustains

end Loader
end ModGraph
