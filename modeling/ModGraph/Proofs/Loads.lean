import ModGraph.Proofs.CallStack

/-!
# What holds along a load

A load seeks modules, reads files, writes to the entries of modules in progress, and ends compilations.
If each of these goes along a relation, so does the load (`Loads.load`, `Loads.discover`), in a loader
whose slots lead to entries with their keys. The induction on the limit on nesting is done here once;
what is to be shown about a compilation is only what its end adds (`Loads.fails`, `Loads.succeeds`).
-/

namespace ModGraph

open Relation (ReflTransGen)

namespace Loader

variable {R E : Loader → Loader → Prop} {own : Option Job} {l l' l₂ : Loader} {job : Job} {limit : Nat}

/-- A module that a request needs compiled, in the loader in which the request was looked for. -/
def Due (l : Loader) (job : Job) : Prop :=
  ∃ l₀ request parent isMain, Consistent l₀ ∧
    l₀.run (seek request parent isMain) = (.ok (.needs job), l)

/-- What a load consists of goes along a relation, and along another one where it fails. -/
structure Loads (R E : Loader → Loader → Prop) : Prop extends Outcomes R E where
  /-- Failing is still failing after a cleaning up. -/
  trail : ∀ {l l' l''}, E l l' → R l' l'' → E l l''
  report : ∀ event, Follows R (report event)
  /-- The compiler of a module in progress reads the module's file. -/
  source : ∀ {l key p id}, l.Consistent → l.InProgress key p id → R l (l.run (sourceOf (keyFile key))).2
  program : ∀ {l key p id}, l.Consistent → l.InProgress key p id → R l (l.run (programOf (keyFile key))).2
  seek : ∀ {l}, l.Consistent → ∀ request parent isMain, R l (l.run (seek request parent isMain)).2
  /-- The compiler of a module in progress writes to the module's entry. -/
  write : ∀ {l key p id}, l.Consistent → l.InProgress key p id → ∀ {f}, (∀ e : Entry, e.Retains (f e)) →
    R l { l with graph := l.graph.update id f }
  fails : ∀ {l l₂ job limit e}, l.Consistent → l.Due job →
    (l.occupied job).run (prepare (loadNested limit) job.id job.target.filename) = (.error e, l₂) →
    E (l.occupied job) l₂ → E l (l₂.vacated job e)
  succeeds : ∀ {l l₂ job limit c}, l.Consistent → l.Due job →
    (l.occupied job).run (prepare (loadNested limit) job.id job.target.filename) = (.ok c, l₂) →
    R (l.occupied job) l₂ → R l ((l₂.marked job.id job.target.filename c).concluded job)

/-- Along a relation, and all entries that are held are spared, apart from that of a module in progress. -/
def Safely (own : Option Job) (R : Loader → Loader → Prop) (l l' : Loader) : Prop :=
  l.Consistent → (∀ job ∈ own, l.InProgress job.target.key job.partition job.id) →
    Spared (fun id => ∃ job ∈ own, job.id = id) l l' ∧ R l l'

theorem Due.ready (h : l.Due job) : l.Ready job := by
  obtain ⟨l₀, request, parent, isMain, hc, hseek⟩ := h
  exact ready_of_seek hc hseek

/-- The target of a module that is due was resolved, and since then only its package was looked up. -/
theorem Due.resolved (h : l.Due job) :
    ∃ (l₀ : Loader) (request : String) (parent : Option EntryId) (isMain : Bool) (file : Path),
      l₀.Consistent ∧ l₀.resolved request parent isMain = .ok (.file file) ∧
        job.target = l₀.target request file ∧ Elsewhere (l₀.packaged file) l := by
  obtain ⟨l₀, request, parent, isMain, hc, hseek⟩ := h
  obtain ⟨file, hfile, htarget, -, -, -, hclass⟩ := needs_of_seek hc.toOrderly hseek
  refine ⟨l₀, request, parent, isMain, file, hc, hfile, htarget, ?_⟩
  have hclassifying : Elsewhere (l₀.packaged file) (l₀.classifying request parent isMain file) :=
    ⟨rfl, rfl, rfl, rfl, rfl⟩
  have hclassified := hclassifying.trans (.classified _ job.target.key job.target.fixed
    job.target.package.isUnexposed)
  rcases hclass with ⟨-, rfl⟩ | ⟨-, -, rfl⟩
  · exact hclassified
  · exact hclassified.trans ⟨rfl, rfl, rfl, rfl, rfl⟩

theorem Due.keyFile_key (h : l.Due job) : keyFile job.target.key = job.target.filename := by
  obtain ⟨l₀, request, parent, isMain, file, hc, hfile, htarget, -⟩ := h.resolved
  obtain ⟨q, hq⟩ := resolve_of_resolution hfile
  rw [htarget]
  exact keyFile_cacheKey (Resolver.unmarked_of_resolve hq hc.unmarked.names) request

/-- The package of a module that is due is still what is found for its file. -/
theorem Due.package (h : l.Due job) : l.packageOf job.target.filename = job.target.package := by
  obtain ⟨l₀, request, parent, isMain, file, -, -, htarget, helse⟩ := h.resolved
  rw [htarget, helse.packageOf]
  exact packageOf_packaged l₀ file

/-- A module that is due has a slot already, and was parsed, or it has none, and its entry is new. -/
theorem Due.parsed_or_new (h : l.Due job) :
    l.cache.slot? job.target.key = some (job.partition, .ready job.id) ∨
      l.cache.slot? job.target.key = none ∧ job.partition = newPartition job.target.fixed ∧
        l.graph.entry job.id = newEntry job.referrer job.target := by
  obtain ⟨l₀, request, parent, isMain, hc, hseek⟩ := h
  obtain ⟨file, -, -, -, hreferrer, -, hclass⟩ := needs_of_seek hc.toOrderly hseek
  dsimp only at hclass
  rcases hclass with ⟨hclass, rfl⟩ | ⟨hclass, hid, rfl⟩
  · obtain ⟨-, -, -, -, -, hslot⟩ := slot_of_classified (hc.classifying request parent isMain file) hclass
    exact .inl hslot
  · obtain ⟨heq, hslot, hpartition⟩ := slot_of_missed hclass
    refine .inr ⟨?_, hpartition.symm, ?_⟩
    · rw [heq]
      exact hslot
    · rw [hid, ← hreferrer]
      exact Graph.entry_add_self _ _

theorem Due.fixed (h : l.Due job) : job.target.fixed = Format.ofPath? job.target.filename := by
  obtain ⟨l₀, request, parent, isMain, file, -, -, htarget, -⟩ := h.resolved
  rw [htarget]
  rfl

theorem Due.canonical (h : l.Due job) (hfs : FileSystem.Proper l.files.workingDirectory) :
    job.target.filename.Canonical := by
  obtain ⟨l₀, request, parent, isMain, file, -, hfile, htarget, helse⟩ := h.resolved
  obtain ⟨q, hq⟩ := resolve_of_resolution hfile
  have hfiles : l.files = l₀.files := congrArg World.files helse.world
  rw [htarget]
  exact Resolver.canonical_of_resolve (hfiles ▸ hfs) hq

/-- A module whose compiler is done is still in progress. -/
theorem Ready.inProgress_of_prepare (hr : l.Ready job) (hc : l.Consistent) {r : Except LoadError Compilation}
    (h : (l.occupied job).run (prepare (loadNested limit) job.id job.target.filename) = (r, l₂)) :
    l₂.Consistent ∧ l₂.InProgress job.target.key job.partition job.id := by
  have hspared := Spares.prepare (Spares.loadNested limit) job.id job.target.filename (l.occupied job)
    (hr.consistent_occupied hc)
  rw [h] at hspared
  exact ⟨hspared.consistent, (hspared.progress _ _ _).mpr ((hr.slot?_occupied _).trans (if_pos rfl))⟩

/-- The slot of a module that is compiled is its own. -/
theorem Ready.own_occupied (hr : l.Ready job) : ∀ j ∈ some job,
    (l.occupied job).InProgress j.target.key j.partition j.id := by
  rintro _ ⟨⟩
  exact (hr.slot?_occupied _).trans (if_pos rfl)

namespace Safely

theorem of_spares (hs : Spares (fun _ => False) l l') (hR : l.Consistent → R l l') : Safely own R l l' :=
  fun hc _ => ⟨Spares.mono (fun _ hf => hf.elim) hs hc, hR hc⟩

theorem refl [IsPreorder Loader R] (l : Loader) : Safely own R l l :=
  of_spares (Spares.refl l) fun _ => Std.Refl.refl l

theorem step {R' R'' : Loader → Loader → Prop} {l'' : Loader} (h : Safely own R l l')
    (h' : Safely own R' l' l'') (htrans : R l l' → R' l' l'' → R'' l l'') : Safely own R'' l l'' := by
  intro hc hown
  obtain ⟨hs, hR⟩ := h hc hown
  obtain ⟨hs', hR'⟩ := h' hs.consistent fun job hjob => (hs.progress _ _ _).mpr (hown job hjob)
  have hspares : Spares (fun id => ∃ job ∈ own, job.id = id) l l'' := Spares.trans (fun _ => hs) fun _ => hs'
  exact ⟨hspares hc, htrans hR hR'⟩

instance [IsPreorder Loader R] : IsPreorder Loader (Safely own R) where
  refl := refl
  trans _ _ _ h h' := h.step h' (IsTrans.trans _ _ _)

theorem outcomes (h : Outcomes R E) : Outcomes (Safely own R) (Safely own E) where
  toIsPreorder := have := h.toIsPreorder; inferInstance
  weaken hR hc hown := ⟨(hR hc hown).1, h.weaken (hR hc hown).2⟩
  absorb hR hE := hR.step hE h.absorb

theorem spared (h : Safely none R l l') (hc : l.Consistent) : Spared (fun _ => False) l l' :=
  Spares.mono (fun _ ⟨_, hj, _⟩ => nomatch hj) (fun _ => (h hc fun _ hj => nomatch hj).1) hc

theorem rel (h : Safely none R l l') (hc : l.Consistent) : R l l' := (h hc fun _ hj => nomatch hj).2

/-- A module in progress does not mind what writes to no entry that is held. -/
theorem mono (h : Safely none R l l') : Safely own R l l' := of_spares h.spared h.rel

theorem ends_mono {α : Type} {action : LoadM α} (h : Ends (Safely none R) (Safely none E) action) :
    Ends (Safely own R) (Safely own E) action := by
  intro l
  have hl := h l
  generalize l.run action = r at hl ⊢
  obtain ⟨_ | _, l'⟩ := r
  · exact mono hl
  · exact mono hl

end Safely

namespace Loads

variable (h : Loads R E)
include h

theorem noted (l : Loader) (event : Event) : Safely own R l (l.noted [event]) :=
  .of_spares (Spares.report event l) fun _ => h.report event l

theorem compiles (hfile : keyFile job.target.key = job.target.filename) :
    CompilesFile job.id job.target.filename (Safely (some job) R) := by
  have := h.toIsPreorder
  have hspares : CompilesFile job.id job.target.filename (Spares fun id => ∃ j ∈ some job, j.id = id) :=
    (Spares.compiles ⟨job, rfl, rfl⟩).file _
  refine { report := fun event _ l => h.noted l event, updateEntry := ?_, source := ?_, program := ?_ }
  · exact fun hf l hc hown => ⟨hspares.updateEntry hf l hc, h.write hc (hown job rfl) hf⟩
  · exact fun l hc hown => ⟨hspares.source l hc, hfile ▸ h.source hc (hown job rfl)⟩
  · exact fun l hc hown => ⟨hspares.program l hc, hfile ▸ h.program hc (hown job rfl)⟩

/-- The compiler of a module runs while its slot is marked. -/
theorem prepare (hn : ∀ request id, Ends (Safely none R) (Safely none E) (loadNested limit request id))
    (hfile : keyFile job.target.key = job.target.filename) :
    Ends (Safely (some job) R) (Safely (some job) E)
      (Loader.prepare (loadNested limit) job.id job.target.filename) := by
  have ho : Outcomes (Safely (some job) R) (Safely (some job) E) := Safely.outcomes h.toOutcomes
  have := ho.toIsPreorder
  have hcompiles := h.compiles hfile
  refine .bind ho (.of_follows ho hcompiles.beginCompile) fun c => .bind ho ?_ fun _ =>
    .of_follows ho (.pure _)
  exact hcompiles.runTask ho (fun request => Safely.ends_mono (hn request job.id))
    (Task.within_of_all (fun event l => h.noted l event) (fun _ => trivial) (fun _ => trivial) c.task)

/-- A compilation goes along the relation of its outcome. -/
theorem perform (hn : ∀ request id, Ends (Safely none R) (Safely none E) (loadNested limit request id))
    (hc : l.Consistent) (hd : l.Due job) :
    match l.run (Loader.perform (loadNested limit) job) with
    | (.ok _, l') => R l l'
    | (.error _, l') => E l l' := by
  have hr := hd.ready
  have hprepared := h.prepare hn hd.keyFile_key (l.occupied job)
  have hown := hr.own_occupied
  rw [Spares.run_perform (Spares.loadNested limit) hc hr]
  generalize hrun : (l.occupied job).run (Loader.prepare (loadNested limit) job.id job.target.filename) = r
    at hprepared
  obtain ⟨e | c, l₂⟩ := r
  · exact h.fails hc hd hrun (hprepared (hr.consistent_occupied hc) hown).2
  · exact h.succeeds hc hd hrun (hprepared (hr.consistent_occupied hc) hown).2

theorem answer (hn : ∀ request id, Ends (Safely none R) (Safely none E) (loadNested limit request id))
    (request : String) (parent : Option EntryId) (isMain : Bool) :
    Ends (Safely none R) (Safely none E)
      (Loader.answer (loadNested limit) request parent isMain) := by
  intro l
  have hspares : Spares (fun _ => False) l _ :=
    Spares.answer (Tidy.loadNested limit) (Spares.loadNested limit) request parent isMain l
  have hseek : l.Consistent → R l _ := fun hc => h.seek hc request parent isMain
  unfold Loader.answer at hspares ⊢
  rw [run_bind] at hspares ⊢
  generalize hrun : l.run (Loader.seek request parent isMain) = r at hspares hseek ⊢
  obtain ⟨e | found, l₁⟩ := r
  · exact .of_spares hspares fun hc => h.weaken (hseek hc)
  · cases found with
    | found id => exact .of_spares hspares hseek
    | needs job =>
      dsimp only [andThen_ok] at hspares ⊢
      have hperform : l.Consistent → _ := fun hc => by
        have hc₁ : l₁.Consistent := by
          have hsought := hc.sought request parent isMain
          rwa [hrun] at hsought
        exact h.perform hn hc₁ ⟨l, request, parent, isMain, hc, hrun⟩
      generalize l₁.run (Loader.perform (loadNested limit) job) = r at hspares hperform ⊢
      obtain ⟨e | id, l₂⟩ := r
      · exact .of_spares hspares fun hc => h.absorb (hseek hc) (hperform hc)
      · exact .of_spares hspares fun hc => h.toIsPreorder.trans _ _ _ (hseek hc) (hperform hc)

theorem reported {action : LoadM EntryId} (ha : Ends (Safely own R) (Safely own E) action)
    (request : String) : Ends (Safely own R) (Safely own E) (Loader.reported request action) := by
  intro l
  have hl := ha (l.noted [.enters request .resolving])
  have hentered : Safely own R l _ := h.noted l (.enters request .resolving)
  rw [run_reported]
  generalize (l.noted [.enters request .resolving]).run action = r at hl ⊢
  obtain ⟨e | id, l₁⟩ := r
  · exact (hentered.step hl h.absorb).step (h.noted l₁ _) h.trail
  · exact (hentered.step hl (h.toIsPreorder.trans _ _ _)).step (h.noted l₁ _) (h.toIsPreorder.trans _ _ _)

/-- Nested loads go along, however deep they go. -/
theorem loadNested (limit : Nat) (request : String) (id : EntryId) :
    Ends (Safely none R) (Safely none E) (loadNested limit request id) := by
  induction limit generalizing request id with
  | zero => exact fun l => .of_spares (Spares.refl l) fun _ => h.weaken (h.toIsPreorder.refl l)
  | succ limit ih => exact h.reported (h.answer ih request (some id) false) request

theorem load (request : String) (parent : Option EntryId) (isMain : Bool) :
    Ends (Safely none R) (Safely none E) (load request parent isMain) := by
  intro l
  have hl := h.reported (h.answer (h.loadNested (l.nestingBound request)) request parent isMain) request l
  unfold Loader.load
  rwa [run_bind, run_get, andThen_ok]

/-- A discovery is a load in a parse-only pass, which begins and ends along the relation. -/
theorem discover (hp : ∀ l parsing, R l (l.withParsing parsing)) (request : String)
    (parent : Option EntryId) : Ends (Safely none R) (Safely none E) (discover request parent) := by
  intro l
  have hparsing : ∀ l parsing, Safely none R l (l.withParsing parsing) := fun l parsing =>
    .of_spares (Spares.setParsing parsing l) fun _ => hp l parsing
  have hl := h.load request parent false (l.withParsing true)
  rw [run_discover]
  dsimp only
  generalize (l.withParsing true).run (Loader.load request parent false) = r at hl ⊢
  obtain ⟨e | id, l₁⟩ := r
  · exact ((hparsing l true).step hl h.absorb).step (hparsing l₁ _) h.trail
  · exact ((hparsing l true).step hl (h.toIsPreorder.trans _ _ _)).step (hparsing l₁ _)
      (h.toIsPreorder.trans _ _ _)

end Loads

/-- What goes along two relations goes along both. -/
theorem Loads.and {R' E' : Loader → Loader → Prop} (h : Loads R E) (h' : Loads R' E') :
    Loads (fun l l' => R l l' ∧ R' l l') fun l l' => E l l' ∧ E' l l' where
  refl l := ⟨h.toIsPreorder.refl l, h'.toIsPreorder.refl l⟩
  trans _ _ _ h₁ h₂ := ⟨h.toIsPreorder.trans _ _ _ h₁.1 h₂.1, h'.toIsPreorder.trans _ _ _ h₁.2 h₂.2⟩
  weaken hR := ⟨h.weaken hR.1, h'.weaken hR.2⟩
  absorb hR hE := ⟨h.absorb hR.1 hE.1, h'.absorb hR.2 hE.2⟩
  trail hE hR := ⟨h.trail hE.1 hR.1, h'.trail hE.2 hR.2⟩
  report event l := ⟨h.report event l, h'.report event l⟩
  source hc hin := ⟨h.source hc hin, h'.source hc hin⟩
  program hc hin := ⟨h.program hc hin, h'.program hc hin⟩
  seek hc request parent isMain := ⟨h.seek hc request parent isMain, h'.seek hc request parent isMain⟩
  write hc hin _ hf := ⟨h.write hc hin hf, h'.write hc hin hf⟩
  fails hc hd hrun hE := ⟨h.fails hc hd hrun hE.1, h'.fails hc hd hrun hE.2⟩
  succeeds hc hd hrun hR := ⟨h.succeeds hc hd hrun hR.1, h'.succeeds hc hd hrun hR.2⟩

/-! ## Inside of a load -/

/-- A moment begins with looking for what the request leads to. -/
theorem run_seeking (m : Moment) :
    m.loader.run (do
        Loader.report (.enters m.request .resolving)
        Loader.seek m.request m.parent m.isMain)
      = (m.loader.noted [.enters m.request .resolving]).run (seek m.request m.parent m.isMain) := by
  rw [run_bind, run_report, andThen_ok]
  rfl

/-- Where a task does not ask for a module, or has no room to, it does not matter how deep requests may
nest. -/
theorem stepTask_own {id : EntryId} {filename : Path} {t : Task}
    (h : ∀ request next, t = .require request next → limit = 0) :
    stepTask (Loader.loadNested limit) id filename t = stepTask (Loader.loadNested 0) id filename t := by
  cases t with
  | require request next => rw [h request next rfl]
  | _ => rfl

namespace Loads

variable (h : Loads R E) (hfile : keyFile job.target.key = job.target.filename)
include h hfile

theorem stepTask (limit : Nat) (t : Task) : Ends (Safely (some job) R) (Safely (some job) E)
    (Loader.stepTask (Loader.loadNested limit) job.id job.target.filename t) :=
  (h.compiles hfile).stepTask (Safely.outcomes h.toOutcomes)
    (fun request => Safely.ends_mono (h.loadNested limit request job.id))
    (Task.within_of_all (fun event l => h.noted l event) (fun _ => trivial) (fun _ => trivial) t)

/-- An instruction that asks for nothing goes along even if it fails. -/
theorem stepTask_own {t : Task} (ht : ∀ request next, t = .require request next → limit = 0) :
    Follows (Safely (some job) R)
      (Loader.stepTask (Loader.loadNested limit) job.id job.target.filename t) := by
  have := h.toIsPreorder
  rw [Loader.stepTask_own ht]
  refine ends_self.mp ((h.compiles hfile).stepTask .self (fun request => ends_self.mpr (.throw _)) ?_)
  exact Task.within_of_all (fun event l => h.noted l event) (fun _ => trivial) (fun _ => trivial) t

theorem taskSteps {a b : Task × Loader}
    (hs : ReflTransGen (Moment.TaskStep (Loader.loadNested limit) job.id job.target.filename) a b) :
    Safely (some job) R a.2 b.2 := by
  have := h.toIsPreorder
  induction hs with
  | refl => exact Safely.refl _
  | @tail b _ _ hbc ih =>
    have hstep := h.stepTask hfile limit b.1 b.2
    rw [hbc] at hstep
    exact IsTrans.trans _ _ _ ih hstep

end Loads

namespace Loads

/-- The module that a request needs compiled is due. -/
theorem due_of_seek {m : Moment} (hc : m.loader.Consistent)
    (hseek : m.loader.run (do
        Loader.report (.enters m.request .resolving)
        Loader.seek m.request m.parent m.isMain) = (.ok (.needs job), l)) : l.Consistent ∧ l.Due job := by
  have hnoted := hc.noted [.enters m.request .resolving]
  rw [run_seeking] at hseek
  have hsought := hnoted.sought m.request m.parent m.isMain
  rw [hseek] at hsought
  exact ⟨hsought, _, _, _, _, hnoted, hseek⟩

/-- On the way to an instruction of a module that is compiled: the module was found to be due, its slot was
marked, and everything before the instruction went along. -/
theorem compiling (h : Loads R E) {m : Moment} {t : Task} (hc : m.loader.Consistent)
    (hm : m.Compiling job t l) :
    ∃ l₁, R m.loader l₁ ∧ l₁.Consistent ∧ l₁.Due job ∧
      Spared (· = job.id) (l₁.occupied job) l ∧ R (l₁.occupied job) l := by
  have := h.toIsPreorder
  cases hm with
  | @intro c _ l₁ l₂ l₃ _ hseek hoccupy hbegin htask =>
    obtain ⟨hc₁, hdue⟩ := due_of_seek hc hseek
    have hr := hdue.ready
    have hentered : Safely none R m.loader _ := h.noted m.loader (.enters m.request .resolving)
    rw [run_seeking] at hseek
    have hsought : R (m.loader.noted [.enters m.request .resolving]) l₁ := by
      have hR₁ := h.seek (hc.noted [.enters m.request .resolving]) m.request m.parent m.isMain
      rwa [hseek] at hR₁
    rw [run_occupy] at hoccupy
    cases hoccupy
    have hbegun := (h.compiles hdue.keyFile_key).beginCompile (l₁.occupied job)
    rw [hbegin] at hbegun
    have hran : Safely (some job) R (l₁.occupied job) l :=
      IsTrans.trans _ _ _ hbegun (h.taskSteps hdue.keyFile_key htask)
    obtain ⟨hs, hR⟩ := hran (hr.consistent_occupied hc₁) hr.own_occupied
    have hspared : Spares (· = job.id) (l₁.occupied job) l :=
      Spares.mono (fun _ ⟨_, hj, hid⟩ => by cases hj; exact hid.symm) fun _ => hs
    exact ⟨l₁, IsTrans.trans _ _ _ (hentered.rel hc) hsought, hc₁, hdue,
      hspared (hr.consistent_occupied hc₁), hR⟩

end Loads

theorem Ends.follows (ho : Outcomes R E) {α : Type} {action : LoadM α} (h : Ends R E action) :
    Follows E action := by
  intro l
  have hl := h l
  generalize l.run action = r at hl ⊢
  obtain ⟨_ | _, l'⟩ := r
  · exact hl
  · exact ho.weaken hl

namespace Loads

variable (h : Loads R E) (hc : l.Consistent)
include h hc

/-- What holds where a load fails holds of every load. -/
theorem follows_load (request : String) (parent : Option EntryId) (isMain : Bool) :
    E l (l.run (Loader.load request parent isMain)).2 :=
  ((h.load request parent isMain).follows (Safely.outcomes h.toOutcomes) l).rel hc

theorem follows_discover (hp : ∀ l parsing, R l (l.withParsing parsing)) (request : String)
    (parent : Option EntryId) : E l (l.run (Loader.discover request parent)).2 :=
  ((h.discover hp request parent).follows (Safely.outcomes h.toOutcomes) l).rel hc

end Loads
end Loader
end ModGraph
