import ModGraph.Proofs.FileOperations
import ModGraph.Proofs.Loads

/-!
# Reading again

A loader looks up packages and programs whenever it compiles a module, and what it forgot in the meantime
it reads again. While only the loader itself touches the files, that should give the same
(`Loader.Unchanging`). Without a code cache it does, as then the loader only reads
(`Loader.Sees.unchanging`); a code cache has to lie where no module is, and to give back what was stored.
-/

namespace ModGraph

open Relation (ReflTransGen)
open Source (Program)

/-! ## The working directory -/

namespace FileSystem

variable {fs fs' : FileSystem} {p : Path}

theorem workingDirectory_removeFile (h : fs.removeFile p = .ok fs') :
    fs'.workingDirectory = fs.workingDirectory := by
  obtain ⟨loc, node, -, -, -, rfl⟩ := removeFile_eq_ok h
  rfl

theorem workingDirectory_writeBytes {content : ByteArray} (h : fs.writeBytes p content = .ok fs') :
    fs'.workingDirectory = fs.workingDirectory := by
  obtain ⟨loc, -, -, rfl⟩ := writeBytes_eq_ok h
  rfl

theorem workingDirectory_ensureDirectory (h : fs.ensureDirectory p = .ok fs') :
    fs'.workingDirectory = fs.workingDirectory := by
  obtain rfl | ⟨name, above, -, rfl⟩ := ensureDirectory_eq_ok h
  · rfl
  · rfl

theorem workingDirectory_ensureDirectories (dirs : List Path) :
    (fs.ensureDirectories dirs).1.workingDirectory = fs.workingDirectory :=
  @ensureDirectories_induction fs (·.workingDirectory = fs.workingDirectory) dirs
    (fun _ _ h hok => (workingDirectory_ensureDirectory hok).trans h) rfl

end FileSystem

namespace Loader

variable {l l' : Loader} {w : World} {package : Path → PackageContext}
  {program : Path → Except LoadError Program} {job : Job}

/-- The working directory stays where it is. -/
def Stays (l l' : Loader) : Prop := l'.files.workingDirectory = l.files.workingDirectory

namespace Stays

instance : IsPreorder Loader Stays where
  refl _ := rfl
  trans _ _ _ h h' := h'.trans h

theorem lookup (l : Loader) (cache : CodeCache) (path : Path) (digest : String) :
    Stays l { l with files := CodeCache.afterLookup l.files (cache.lookup l.files path digest) } := by
  show (CodeCache.afterLookup l.files (cache.lookup l.files path digest)).workingDirectory = _
  obtain heq | hremove := cache.afterLookup_cases l.files path digest
  · rw [heq]
  · rw [FileSystem.workingDirectory_removeFile hremove]

theorem store (l : Loader) (cache : CodeCache) (path : Path) (digest : String) (p : Program) :
    Stays l { l with files := (cache.store l.files path digest p).1 } := by
  have hmade : (l.files.makeDirectories cache.dir).1.workingDirectory = l.files.workingDirectory :=
    FileSystem.workingDirectory_ensureDirectories _
  obtain heq | hwrite := cache.store_cases l.files path digest p
  · exact (congrArg (·.workingDirectory) heq).trans hmade
  · exact (FileSystem.workingDirectory_writeBytes hwrite).trans hmade

theorem reading : Reading Stays where
  toIsPreorder := inferInstance
  report _ _ := fun _ => rfl
  remember _ _ _ := rfl
  lookup _ _ _ := lookup _ _ _ _
  store _ _ _ _ := store _ _ _ _ _

end Stays

/-! ## Packages and programs -/

/-- What a loader does that looks at files, or forgets what it saw. -/
inductive Rereads : Loader → Loader → Prop where
  | package {l : Loader} {file : Path} (hf : file.Canonical) : Rereads l (l.packaged file)
  | source {l : Loader} {file : Path} (hf : file.Canonical) : Rereads l (l.run (sourceOf file)).2
  | program {l : Loader} {file : Path} (hf : file.Canonical) : Rereads l (l.run (programOf file)).2
  | invalidate (l : Loader) (key : String) : Rereads l (l.after (.invalidate key))
  | clearCache (l : Loader) : Rereads l (l.after .clearCache)
  | elsewhere {l l' : Loader} (h : Elsewhere l l') : Rereads l l'

/-- Files have these packages and programs, however often a loader reads them. -/
def Recites (package : Path → PackageContext) (program : Path → Except LoadError Program) (l : Loader) : Prop :=
  ∀ l', ReflTransGen Rereads l l' → ∀ file : Path, file.Canonical →
    l'.packageOf file = package file ∧ (l'.run (programOf file)).1 = program file

/-- However often a loader reads the files, it finds the same packages and programs. -/
def Unchanging (l : Loader) : Prop := ∃ package program, l.Recites package program

theorem Recites.rereads (h : l.Recites package program) (hr : Rereads l l') : l'.Recites package program :=
  fun l'' hr' => h l'' (.head hr hr')

theorem Recites.packageOf (h : l.Recites package program) {file : Path} (hf : file.Canonical) :
    l.packageOf file = package file := (h l .refl file hf).1

theorem Recites.programOf (h : l.Recites package program) {file : Path} (hf : file.Canonical) :
    (l.run (programOf file)).1 = program file := (h l .refl file hf).2

/-- What a loader remembers of a world may be forgotten. -/
theorem Sees.forgets (h : l.Sees w) (hw : l'.world = l.world) (hc : l'.codeCache? = l.codeCache?)
    (hp : l'.packages = l.packages)
    (hsources : ∀ {file text}, l'.sources.get? file = some text → l.sources.get? file = some text)
    (hprograms : ∀ {file p}, l'.programs.get? file = some p → l.programs.get? file = some p) : l'.Sees w where
  world := hw.trans h.world
  codeCache := hc.trans h.codeCache
  packages := hp ▸ h.packages
  source hf hget := h.source hf (hsources hget)
  program hf hget := h.program hf (hprograms hget)

theorem Sees.rereads (h : l.Sees w) (hr : Rereads l l') : l'.Sees w := by
  have herase : ∀ {α : Type} {t : Table (List Path.Component) α} {a b : List Path.Component} {x : α},
      (t.erase a).get? b = some x → t.get? b = some x := by
    intro α t a b x hget
    rw [Table.get?_erase] at hget
    split at hget
    · cases hget
    · exact hget
  cases hr with
  | package hf => exact (h.packaged hf).2
  | source hf => exact (h.run_sourceOf hf).2
  | program hf => exact (h.run_programOf hf).2
  | invalidate key => exact h.forgets rfl rfl rfl herase herase
  | clearCache => exact h.forgets rfl rfl rfl (fun hget => by cases hget) fun hget => by cases hget
  | elsewhere he => exact h.elsewhere he

/-- A loader that only reads finds what there is. -/
theorem Sees.recites (h : l.Sees w) : l.Recites w.package w.program := by
  intro l' hr file hf
  have hl' : l'.Sees w := by
    induction hr with
    | refl => exact h
    | tail _ hstep ih => exact ih.rereads hstep
  exact ⟨(hl'.packaged hf).1, (hl'.run_programOf hf).1⟩

theorem Sees.unchanging (h : l.Sees w) : l.Unchanging := ⟨w.package, w.program, h.recites⟩

/-! ## Along a load -/

/-- A loader that finds the same whenever it reads, all of whose slots are for files with canonical paths. -/
structure Rereadable (package : Path → PackageContext) (program : Path → Except LoadError Program)
    (l : Loader) : Prop where
  recites : l.Recites package program
  proper : FileSystem.Proper l.files.workingDirectory
  canonical : ∀ {p key s}, l.cache.get? p key = some s → (keyFile key).Canonical

namespace Rereadable

theorem rereads (h : l.Rereadable package program) (hr : Rereads l l') (hs : Stays l l')
    (hslot : ∀ {p key s}, l'.cache.get? p key = some s →
      (∃ q s', l.cache.get? q key = some s') ∨ (keyFile key).Canonical) :
    l'.Rereadable package program where
  recites := h.recites.rereads hr
  proper := by
    rw [hs]
    exact h.proper
  canonical hk := by
    rcases hslot hk with ⟨q, s', hk'⟩ | hf
    · exact h.canonical hk'
    · exact hf

theorem elsewhere (h : l.Rereadable package program) (he : Elsewhere l l')
    (hslot : ∀ {p key s}, l'.cache.get? p key = some s →
      (∃ q s', l.cache.get? q key = some s') ∨ (keyFile key).Canonical) :
    l'.Rereadable package program :=
  h.rereads (.elsewhere he) (congrArg (fun w : World => w.files.workingDirectory) he.world) hslot

/-- Where the slots stay as they are, their files are as good as before. -/
theorem same (h : l.Rereadable package program) (he : Elsewhere l l')
    (hslot : ∀ p, l'.cache.slots p = l.cache.slots p) : l'.Rereadable package program := by
  refine h.elsewhere he fun {p key s} hk => .inl ⟨p, s, ?_⟩
  rw [Cache.get?, ← hslot]
  exact hk

theorem canonical_of_resolved (h : l.Rereadable package program) {request : String} {parent : Option EntryId}
    {isMain : Bool} {file : Path} (hr : l.resolved request parent isMain = .ok (.file file)) :
    file.Canonical := by
  obtain ⟨q, hq⟩ := resolve_of_resolution hr
  exact Resolver.canonical_of_resolve h.proper hq

/-- What is rereadable stays so. -/
def Lasts (package : Path → PackageContext) (program : Path → Except LoadError Program) (l l' : Loader) : Prop :=
  l.Rereadable package program → l'.Rereadable package program

namespace Lasts

instance : IsPreorder Loader (Lasts package program) where
  refl _ h := h
  trans _ _ _ h h' := h' ∘ h

theorem seeks : Seeks (Lasts package program) where
  toIsPreorder := inferInstance
  noted _ _ _ h := h.same ⟨rfl, rfl, rfl, rfl, rfl⟩ fun _ => rfl
  packaged {l request parent isMain file} hr h :=
    h.rereads (.package (h.canonical_of_resolved hr)) rfl fun {p key s} hk => .inl ⟨p, s, hk⟩
  linked l referrer request child h := by
    refine h.same (.linked _ _ _ _) fun p => ?_
    cases referrer <;> rfl
  builtinOf l name h := by
    refine h.same (.builtinOf _ _) fun p => ?_
    unfold Loader.builtinOf
    split
    · rfl
    · cases p <;> rfl
  classified l key h := by
    refine h.elsewhere (.classified _ _ _ _) fun {p k s} hk => .inl ?_
    rcases get?_classified hk with hk | ⟨rfl, id, rfl, hk, -⟩
    · exact ⟨p, s, hk⟩
    · exact ⟨.discovery, .ready id, hk⟩
  added _ _ h := h.same ⟨rfl, rfl, rfl, rfl, rfl⟩ fun _ => rfl

end Lasts

/-- The slot of a module that is due is for a canonical path, too. -/
theorem occupied (h : l.Rereadable package program) (hd : l.Due job) :
    (l.occupied job).Rereadable package program := by
  refine h.elsewhere (.occupied l job) fun {p key s} hk => ?_
  obtain ⟨⟨-, rfl⟩, -⟩ | ⟨-, hk⟩ := slot_of_occupied hk
  · right
    rw [hd.keyFile_key]
    exact hd.canonical h.proper
  · exact .inl ⟨p, s, hk⟩

/-- Wherever a compilation ends, files are read as before. -/
theorem of_ended (h : l.Rereadable package program) (hin : l.InProgress job.target.key job.partition job.id)
    (he : Elsewhere l l')
    (hslot : ∀ {q k s}, l'.cache.get? q k = some s → job.target.key = k ∨ l.cache.get? q k = some s) :
    l'.Rereadable package program := by
  refine h.elsewhere he fun {q k s} hk => .inl ?_
  rcases hslot hk with rfl | hk
  · exact ⟨_, _, Cache.get?_of_slot? hin⟩
  · exact ⟨q, s, hk⟩

theorem withParsing (h : l.Rereadable package program) (parsing : Bool) :
    (l.withParsing parsing).Rereadable package program :=
  h.same ⟨rfl, rfl, rfl, rfl, rfl⟩ fun p => by cases p <;> rfl

theorem loads : Loads (Lasts package program) (Lasts package program) where
  toOutcomes := .self
  trail h h' := h' ∘ h
  report _ := fun _ h => h.same ⟨rfl, rfl, rfl, rfl, rfl⟩ fun _ => rfl
  source {l key p id} _ hin h := by
    have hquiet := Quiet.reading.source (keyFile key) l
    refine h.rereads (.source (h.canonical (Cache.get?_of_slot? hin))) (Stays.reading.source _ l) ?_
    rw [hquiet.cache]
    exact fun {p k s} hk => .inl ⟨p, s, hk⟩
  program {l key p id} _ hin h := by
    have hquiet := Quiet.reading.program (keyFile key) l
    refine h.rereads (.program (h.canonical (Cache.get?_of_slot? hin))) (Stays.reading.program _ l) ?_
    rw [hquiet.cache]
    exact fun {p k s} hk => .inl ⟨p, s, hk⟩
  seek hc request parent isMain := Lasts.seeks.seek hc.toOrderly request parent isMain
  write _ _ _ _ h := h.same ⟨rfl, rfl, rfl, rfl, rfl⟩ fun _ => rfl
  fails {l l₂ job limit e} hc hd hrun h hl := by
    obtain ⟨-, hin⟩ := hd.ready.inProgress_of_prepare hc hrun
    refine (h (hl.occupied hd)).of_ended hin (.vacated l₂ job e) fun {q k s} hk => ?_
    exact (slot_of_vacated hk).imp (fun h => h.1.2) fun h => h.2
  succeeds {l l₂ job limit c} hc hd hrun h hl := by
    obtain ⟨-, hin⟩ := hd.ready.inProgress_of_prepare hc hrun
    refine (h (hl.occupied hd)).of_ended hin ((Elsewhere.marked l₂ job.id job.target.filename c).trans
      (.concluded _ job)) fun {q k s} hk => ?_
    exact (slot_of_concluded (l := l₂.marked job.id job.target.filename c) (Cache.get?_of_slot? hin) hk).imp
      (fun h => h.1.2) fun h => h.2

end Rereadable

/-- A loader that sees a world, and whose slots are for files with canonical paths. -/
structure Watching (w : World) (l : Loader) : Prop extends Rereadable w.package w.program l where
  sees : l.Sees w

namespace Watching

/-- Who watches a world keeps on watching it. -/
def Lasts (w : World) (l l' : Loader) : Prop := l.Watching w → l'.Watching w

instance : IsPreorder Loader (Lasts w) where
  refl _ h := h
  trans _ _ _ h h' := h' ∘ h

theorem elsewhere (h : l.Watching w) (hr : l'.Rereadable w.package w.program) (he : Elsewhere l l') :
    l'.Watching w := ⟨hr, h.sees.elsewhere he⟩

theorem seeks : Seeks (Lasts w) where
  toIsPreorder := inferInstance
  noted l _ he h := h.elsewhere (Rereadable.Lasts.seeks.noted l he h.toRereadable) ⟨rfl, rfl, rfl, rfl, rfl⟩
  packaged hr h :=
    ⟨Rereadable.Lasts.seeks.packaged hr h.toRereadable, (h.sees.packaged (h.canonical_of_resolved hr)).2⟩
  linked l referrer request child h :=
    h.elsewhere (Rereadable.Lasts.seeks.linked l referrer request child h.toRereadable) (.linked _ _ _ _)
  builtinOf l name h := h.elsewhere (Rereadable.Lasts.seeks.builtinOf l name h.toRereadable) (.builtinOf _ _)
  classified l key h := h.elsewhere (Rereadable.Lasts.seeks.classified l key h.toRereadable) (.classified _ _ _ _)
  added l e h := h.elsewhere (Rereadable.Lasts.seeks.added l e h.toRereadable) ⟨rfl, rfl, rfl, rfl, rfl⟩

theorem occupied (h : l.Watching w) (hd : l.Due job) : (l.occupied job).Watching w :=
  h.elsewhere (h.toRereadable.occupied hd) (.occupied l job)

theorem loads : Loads (Lasts w) (Lasts w) where
  toOutcomes := .self
  trail h h' := h' ∘ h
  report event := fun l h =>
    h.elsewhere (Rereadable.loads.report event l h.toRereadable) ⟨rfl, rfl, rfl, rfl, rfl⟩
  source hc hin h := ⟨Rereadable.loads.source hc hin h.toRereadable,
    (h.sees.run_sourceOf (h.canonical (Cache.get?_of_slot? hin))).2⟩
  program hc hin h := ⟨Rereadable.loads.program hc hin h.toRereadable,
    (h.sees.run_programOf (h.canonical (Cache.get?_of_slot? hin))).2⟩
  seek hc request parent isMain := seeks.seek hc.toOrderly request parent isMain
  write hc hin _ hf h := h.elsewhere (Rereadable.loads.write hc hin hf h.toRereadable) ⟨rfl, rfl, rfl, rfl, rfl⟩
  fails hc hd hrun h hl := by
    have h₂ := h (hl.occupied hd)
    exact h₂.elsewhere (Rereadable.loads.fails hc hd hrun (fun _ => h₂.toRereadable) hl.toRereadable)
      (.vacated _ _ _)
  succeeds hc hd hrun h hl := by
    have h₂ := h (hl.occupied hd)
    exact h₂.elsewhere (Rereadable.loads.succeeds hc hd hrun (fun _ => h₂.toRereadable) hl.toRereadable)
      ((Elsewhere.marked _ _ _ _).trans (.concluded _ _))

end Watching
end Loader
end ModGraph
