import ModGraph.Proofs.CallStack
import ModGraph.Proofs.ShippedCompilers
import ModGraph.Proofs.Transparency

/-!
# Errors of nested loads

A request that nothing matches fails with an error that tells which file made it; only a request that comes from
outside has no such file. Errors stay in slots and come up again for whoever asks for these, so that a nested load
fails with an error of a request from outside only if there was one before. While all errors in slots tell who asked,
nested loads fail with such errors only (`Loader.Attributed.keeps_loadNested`), and so does the compilation of the
main module, whose own request is over by then (`Loader.Attributed.keeps_perform`). Nothing is assumed about the names
of files.
-/

namespace ModGraph

open Source (Program)

/-- An error that, if it is about a request that nothing matches, tells who made the request. -/
def LoadError.Attributed (e : LoadError) : Prop := ∀ request, e ≠ .moduleNotFound request none

namespace Loader

variable {l l' : Loader} {job : Job} {key request : String} {parent : Option EntryId} {isMain : Bool} {id : EntryId}

/-! ## Reading -/

/-- A source cannot be had when the file cannot be read. -/
theorem error_of_sourceOf {file : Path} {e : LoadError} (h : (l.run (sourceOf file)).1 = .error e) :
    ∃ fault, e = .io file fault := by
  cases hs : l.sources.get? file.components with
  | some text =>
    rw [run_sourceOf_of_get? hs] at h
    cases h
  | none =>
    rw [run_sourceOf_of_none hs] at h
    cases hr : l.reader l.files file with
    | error fault =>
      rw [hr] at h
      cases h
      exact ⟨fault, rfl⟩
    | ok text =>
      rw [hr] at h
      cases h

/-- A source cannot be scanned when it is no program, whatever is stored. -/
theorem error_of_scanSource {file : Path} {source : String} {e : LoadError}
    (h : (l.run (scanSource file source)).1 = .error e) : ∃ fault, e = .compile file fault := by
  cases hc : l.codeCache? with
  | none =>
    rw [run_scanSource_bare hc] at h
    exact error_of_scanOf h
  | some cache =>
    obtain ⟨events, hlookup⟩ := run_storedProgram hc file (Digest.ofText source)
    unfold scanSource at h
    rw [run_bind, hlookup, andThen_ok] at h
    cases hp : (cache.lookup l.files file (Digest.ofText source)).program? with
    | some p =>
      rw [hp] at h
      cases h
    | none =>
      rw [hp] at h
      dsimp only at h
      cases hscan : Program.scan source with
      | error e =>
        rw [hscan] at h
        cases h
        exact ⟨_, rfl⟩
      | ok p =>
        obtain ⟨events', hstore⟩ := run_storeProgram (l := l.storing _ events) hc file (Digest.ofText source) p
        rw [hscan] at h
        dsimp only at h
        rw [run_bind, hstore] at h
        cases h

/-- A program cannot be had when the file cannot be read or its text is no program. -/
theorem error_of_programOf {file : Path} {e : LoadError} (h : (l.run (programOf file)).1 = .error e) :
    (∃ fault, e = .io file fault) ∨ ∃ fault, e = .compile file fault := by
  cases hp : l.programs.get? file.components with
  | some p =>
    rw [run_programOf_of_get? hp] at h
    cases h
  | none =>
    rw [run_programOf_of_none hp] at h
    have hsource : ∀ e, (l.run (sourceOf file)).1 = .error e → _ := fun e => error_of_sourceOf
    generalize l.run (sourceOf file) = r at h hsource
    obtain ⟨e' | text, l₁⟩ := r
    · cases h
      exact .inl (hsource e rfl)
    dsimp only at h
    have hscan : ∀ e, (l₁.run (scanSource file text)).1 = .error e → _ := fun e => error_of_scanSource
    generalize l₁.run (scanSource file text) = r at h hscan
    obtain ⟨e' | p, l₂⟩ := r
    · cases h
      exact .inr (hscan e rfl)
    · cases h

/-! ## Poisoned slots -/

/-- No slot is poisoned that was not. -/
def Unspoilt (l l' : Loader) : Prop :=
  ∀ p key e, l'.cache.get? p key = some (.poisoned e) → l.cache.get? p key = some (.poisoned e)

namespace Unspoilt

instance : IsPreorder Loader Unspoilt where
  refl _ _ _ _ h := h
  trans _ _ _ h h' p key e he := h p key e (h' p key e he)

theorem of_cache (h : l'.cache = l.cache) : Unspoilt l l' := fun _ _ _ he => h ▸ he

theorem report (event : Event) : Follows Unspoilt (Loader.report event) := fun _ => of_cache rfl

theorem link (referrer : Option Referrer) (request : String) (child : EntryId) :
    Follows Unspoilt (Loader.link referrer request child) := fun l => by
  rw [run_link]
  exact of_cache (cache_linked _ _ _ _)

theorem of_classification {r : Except LoadError CacheLookup} (h : Classification l key r l') : Unspoilt l l' := by
  cases h with
  | failed => exact refl l
  | busy => exact of_cache rfl
  | used => exact refl l
  | parsed => exact refl l
  | absent => exact refl l
  | @adopted p id hp hs hfree =>
    intro q k e he
    rw [get?_committed (l := l.noted [.adopts key]) hs rfl p q k] at he
    split at he
    · cases he
    · split at he
      · cases he
      · exact he

theorem seekTarget (request : String) (referrer : Option Referrer) (isMain : Bool) (target : Target) :
    Follows Unspoilt (Loader.seekTarget request referrer isMain target) := by
  refine (report _).bind fun _ => .bind (fun l => of_classification (classification l _ _ _)) fun found => ?_
  cases found with
  | hit id => exact (report _).bind fun _ => (link referrer request id).bind fun _ => .pure _
  | evaluate p id => exact .pure _
  | miss p => exact .bind (fun l => of_cache rfl) fun _ => .pure _

theorem seek (request : String) (parent : Option EntryId) (isMain : Bool) :
    Follows Unspoilt (Loader.seek request parent isMain) := by
  intro l
  rw [run_seek_eq]
  dsimp only
  split
  · exact of_cache rfl
  · next name _ =>
    intro p key e he
    have hget : ∀ n, (l.cache.setBuiltin name n).get? p key = l.cache.get? p key := fun n => by cases p <;> rfl
    rw [cache_linked] at he
    unfold builtinOf at he
    split at he
    · exact he
    · exact (hget _).symm.trans he
  · next file _ => exact seekTarget request _ isMain _ ((l.retried request parent isMain).packaged file)

end Unspoilt

/-! ## Errors that tell who asked -/

/-- A loader with the compilers that come with it, in which all errors in slots tell who asked. -/
structure Attributed (l : Loader) : Prop extends Grounded l where
  shipped : l.compilers.Shipped
  poisoned : ∀ {p key e}, l.cache.get? p key = some (.poisoned e) → e.Attributed

namespace Attributed

theorem of_unspoilt (h : l.Attributed) (hg : l'.Grounded) (hc : l'.compilers = l.compilers) (hu : Unspoilt l l') :
    l'.Attributed :=
  { hg with
    shipped := hc ▸ h.shipped
    poisoned := fun he => h.poisoned (hu _ _ _ he) }

/-- What leaves the cache alone adds no errors to it. -/
theorem follows {α : Type} {action : LoadM α} (hb : Follows Balanced action) (he : Follows Evolves action)
    (hq : ∀ l : Loader, (l.run action).2.cache = l.cache) :
    Follows (fun l l' => l.Attributed → l'.Attributed) action := fun l h =>
  h.of_unspoilt (hb l h.toGrounded).1 (he l).compilers (.of_cache (hq l))

theorem follows_report (event : Event) : Follows (fun l l' => l.Attributed → l'.Attributed) (report event) :=
  follows (.report event) (.report event) fun _ => rfl

theorem instructs (id : EntryId) (file : Path) : Instructs id file fun l l' => l.Attributed → l'.Attributed :=
  have hb := Balanced.compiles id
  have he := Evolves.respects.compiles id
  { refl := fun _ h => h
    trans := fun _ _ _ h h' => h' ∘ h
    report := fun event _ => follows_report event
    updateEntry := fun hf =>
      follows (hb.updateEntry fun e => (hf e).retains) (he.updateEntry fun e => (hf e).retains) fun _ => rfl
    source := follows (hb.source file) (he.source file) fun l => (Quiet.reading.source file l).cache
    program := follows (hb.program file) (he.program file) fun l => (Quiet.reading.program file l).cache }

theorem keeps_source (id : EntryId) (file : Path) :
    Keeps Attributed (fun _ => True) LoadError.Attributed (sourceOf file) :=
  Keeps.of_errors (instructs id file).source fun _ h => by
    obtain ⟨fault, rfl⟩ := error_of_sourceOf h
    exact nofun

theorem keeps_program (id : EntryId) (file : Path) :
    Keeps Attributed (fun _ => True) LoadError.Attributed (programOf file) :=
  Keeps.of_errors (instructs id file).program fun _ h => by
    obtain ⟨fault, rfl⟩ | ⟨fault, rfl⟩ := error_of_programOf h
    · exact nofun
    · exact nofun

/-- A target cannot be sought when its slot is poisoned. -/
theorem error_of_seekTarget {referrer : Option Referrer} {target : Target} {e : LoadError}
    (h : (l.run (seekTarget request referrer isMain target)).1 = .error e) :
    ∃ p, l.cache.get? p target.key = some (.poisoned e) := by
  rw [run_seekTarget_eq] at h
  generalize hrun : (l.noted [.enters target.key .classifying]).run (classify _ _ _) = r at h
  obtain ⟨e' | c, l₁⟩ := r
  · cases h
    exact (classification_of_run hrun).error
  · cases c with
    | hit id => cases h
    | evaluate p id => cases h
    | miss p => cases h

theorem follows_seek (request : String) (parent : Option EntryId) (isMain : Bool) :
    Follows (fun l l' => l.Attributed → l'.Attributed) (seek request parent isMain) := fun l h =>
  h.of_unspoilt (Balanced.seek request parent isMain l h.toGrounded).1
    (Evolves.respects.seek request parent isMain l).compilers (Unspoilt.seek request parent isMain l)

/-- What a request of a module leads to is not found, or its slot is poisoned; both tell who asked. -/
theorem keeps_seek (request : String) (id : EntryId) (isMain : Bool) :
    Keeps Attributed (fun _ => True) LoadError.Attributed (seek request (some id) isMain) := by
  refine Keeps.of_errors (follows_seek request (some id) isMain) fun {l e} hl h => ?_
  rw [run_seek_eq] at h
  dsimp only at h
  split at h
  · next e' hr =>
    cases h
    obtain rfl := error_of_resolution hr
    exact fun _ heq => Option.some_ne_none _ (LoadError.moduleNotFound.inj heq).2
  · cases h
  · obtain ⟨p, hslot⟩ := error_of_seekTarget h
    exact hl.poisoned hslot

/-! ## Compilations -/

/-- Preparing a compilation fails for the file, or with an error of a nested load. -/
theorem keeps_prepare {nested : NestedLoad}
    (hn : ∀ request, Keeps Attributed (fun _ => True) LoadError.Attributed (nested request id)) (file : Path) :
    Keeps Attributed (fun _ => True) LoadError.Attributed (prepare nested id file) := by
  have hbegin : Keeps Attributed (fun c => c.task.Within
      (fun event => Follows (fun l l' => l.Attributed → l'.Attributed) (report event)) (fun _ => True)
      LoadError.Attributed) LoadError.Attributed (beginCompile id file) := by
    intro l hl
    have hbalanced := (Balanced.compiles id).beginCompile file l hl.toGrounded
    have hevolves := (Evolves.respects.compiles id).beginCompile file l
    rw [run_beginCompile] at hbalanced hevolves ⊢
    refine ⟨hl.of_unspoilt hbalanced.1 hevolves.compilers (.of_cache rfl), ?_⟩
    exact Compiler.within_of_isShipped (fun _ => nofun) (hl.shipped.forPath file)
      (fun _ _ => follows_report _) fun _ => nofun
  have hprogram : Keeps Attributed (fun p => ∀ request ∈ p.requests, True) LoadError.Attributed (programOf file) := by
    simpa using keeps_program id file
  exact hbegin.bind fun c hc => (Keeps.runTask (instructs id file) (keeps_source id file) hprogram
    (fun request _ => hn request) hc).bind fun _ _ => .pure trivial

/-- A compilation of a module fails with an error of its file or of its requests. -/
theorem keeps_perform {limit : Nat}
    (hn : ∀ request id, Keeps Attributed (fun _ => True) LoadError.Attributed (loadNested limit request id))
    (hl : l.Attributed) (hv : l.Vacant job) :
    match l.run (perform (loadNested limit) job) with
    | (.ok _, l') => l'.Attributed
    | (.error e, l') => l'.Attributed ∧ e.Attributed := by
  have hbalanced := Balanced.perform (Balanced.loadNested limit) hv hl.toGrounded
  have hevolves := Evolves.respects.perform (Evolves.respects.loadNested limit) job l
  have hg := hl.toGrounded.occupied hv
  have hoccupied : (l.occupied job).Attributed := by
    refine hl.of_unspoilt hg ?_ fun p key e he => ?_
    · unfold occupied
      split <;> rfl
    · obtain ⟨-, ⟨⟩⟩ | ⟨-, he⟩ := slot_of_occupied he
      exact he
  have hprepared := keeps_prepare (fun request => hn request job.id) job.target.filename _ hoccupied
  rw [Balanced.run_perform (Balanced.loadNested limit) hl.toGrounded hv] at hbalanced hevolves ⊢
  generalize hr : (l.occupied job).run (prepare (loadNested limit) job.id job.target.filename) = r
    at hprepared hbalanced hevolves ⊢
  obtain ⟨e | c, l₂⟩ := r
  · obtain ⟨hl₂, he⟩ := hprepared
    refine ⟨{ hbalanced.1 with shipped := hevolves.compilers ▸ hl.shipped, poisoned := fun hslot => ?_ }, he⟩
    obtain ⟨-, ⟨⟩⟩ | ⟨-, hslot⟩ := slot_of_vacated hslot
    · exact he
    · exact hl₂.poisoned hslot
  · refine { hbalanced.1 with shipped := hevolves.compilers ▸ hl.shipped, poisoned := fun {p key e} hslot => ?_ }
    have hin : (l₂.marked job.id job.target.filename c).Loading job.partition job.target.key job.id :=
      (Balanced.loading_of_prepare (Balanced.loadNested limit) hl.toGrounded hv hr).2
    obtain ⟨-, ⟨⟩⟩ | ⟨-, hslot⟩ := slot_of_concluded hin hslot
    exact hprepared.1.poisoned hslot

/-! ## Nested loads -/

theorem keeps_answer {limit : Nat}
    (hn : ∀ request id, Keeps Attributed (fun _ => True) LoadError.Attributed (loadNested limit request id))
    (request : String) (id : EntryId) (isMain : Bool) :
    Keeps Attributed (fun _ => True) LoadError.Attributed (answer (loadNested limit) request (some id) isMain) :=
  (keeps_seek request id isMain).answer fun hl hseek hl' => keeps_perform hn hl' (vacant_of_seek hl.toGrounded hseek)

/-- While all errors in slots tell who asked, nested loads fail with such errors only. -/
theorem keeps_loadNested (limit : Nat) (request : String) (id : EntryId) :
    Keeps Attributed (fun _ => True) LoadError.Attributed (loadNested limit request id) := by
  induction limit generalizing request id with
  | zero => exact .throw nofun
  | succ limit ih => exact (keeps_answer ih request id false).reported follows_report request

end Attributed

end Loader
end ModGraph
