import ModGraph.Proofs.Operations
import ModGraph.Proofs.Reading
import ModGraph.Proofs.StoredBlobs

/-!
# Transparency of the code cache

Loaders that share a directory of stored programs never get another program from it than the one they
would have scanned. A history of such loaders is a series of turns (`History`): one of them asks for a
program or reads a source, or does something that leaves sources and files alone; and at any time somebody
may change the file system, delete stored programs or cut them off. What a load does is a series of turns
(`History.after`), so all this may also happen in the middle of a load. Every turn keeps the directory in
order (`History.inOrder`), and what is asked for is then what the source says
(`run_programOf_eq_of_history`).
-/

namespace ModGraph

open FileSystem (Fault)
open Source (Program)

namespace Loader

variable {l l' : Loader} {cache : CodeCache} {home : Location} {texts : Set String} {file : Path} {source : String}

/-! ## With a code cache -/

/-- The loader after files changed and events were reported. -/
def storing (l : Loader) (files : FileSystem) (events : List Event) : Loader :=
  { l with files := files, journal := events ++ l.journal }

@[simp] theorem files_storing (l : Loader) (files : FileSystem) (events : List Event) :
    (l.storing files events).files = files := rfl

theorem storing_storing (l : Loader) (files files' : FileSystem) (events events' : List Event) :
    (l.storing files events).storing files' events' = l.storing files' (events' ++ events) := by
  simp [storing]

theorem run_storedProgram (hc : l.codeCache? = some cache) (file : Path) (digest : String) :
    ∃ events, l.run (storedProgram? file digest) = (.ok (cache.lookup l.files file digest).program?,
      l.storing (CodeCache.afterLookup l.files (cache.lookup l.files file digest)) events) := by
  unfold storedProgram?
  rw [run_bind, run_get, andThen_ok, hc]
  dsimp only
  rw [run_bind, run_get, andThen_ok, run_bind, run_modify, andThen_ok]
  cases cache.lookup l.files file digest with
  | absent => exact ⟨[], rfl⟩
  | hit p => exact ⟨[.usesStored file], rfl⟩
  | spoilt blob reason => exact ⟨[.discardsStored blob reason], rfl⟩

theorem run_storeProgram (hc : l.codeCache? = some cache) (file : Path) (digest : String) (p : Program) :
    ∃ events, l.run (storeProgram file digest p) =
      (.ok (), l.storing (cache.store l.files file digest p).1 events) := by
  unfold storeProgram
  rw [run_bind, run_get, andThen_ok, hc]
  dsimp only
  rw [run_bind, run_get, andThen_ok]
  generalize cache.store l.files file digest p = stored
  obtain ⟨files, outcome⟩ := stored
  dsimp only
  rw [run_bind, run_modify, andThen_ok]
  cases outcome with
  | ok => exact ⟨[], rfl⟩
  | error fault => exact ⟨[.cannotStore file fault], rfl⟩

/-- With a directory in order, a look-up and a scan come to the same. -/
theorem run_scanSource (hc : l.codeCache? = some cache) (file : Path) (source : String) :
    ∃ result files events, l.run (scanSource file source) = (result, l.storing files events) ∧
      ∀ {home texts}, CodeCache.Storable texts → source ∈ texts → cache.Held home texts l.files →
        result = scanOf file source ∧ cache.Held home texts files := by
  obtain ⟨events, hlookup⟩ := run_storedProgram hc file (Digest.ofText source)
  unfold scanSource
  rw [run_bind, hlookup, andThen_ok]
  cases hp : (cache.lookup l.files file (Digest.ofText source)).program? with
  | some p =>
    refine ⟨.ok p, _, events, rfl, fun ht hs h => ⟨?_, h.afterLookup file source⟩⟩
    rw [scanOf, h.scan_of_hit ht hs (CodeCache.lookup_eq_hit hp)]
    rfl
  | none =>
    unfold scanOf
    cases hscan : Program.scan source with
    | error e => exact ⟨_, _, events, rfl, fun _ _ h => ⟨rfl, h.afterLookup file source⟩⟩
    | ok p =>
      obtain ⟨events', hstore⟩ := run_storeProgram (l := l.storing _ events) hc file (Digest.ofText source) p
      dsimp only
      rw [run_bind, hstore, storing_storing, files_storing]
      exact ⟨_, _, events' ++ events, rfl, fun _ hs h => ⟨rfl, (h.afterLookup file source).store hs hscan file⟩⟩

/-- Scanning a source touches stored programs, and nothing else. -/
theorem exists_storing_of_scanSource (l : Loader) (file : Path) (source : String) :
    ∃ found files events, l.run (scanSource file source) = (found, l.storing files events) := by
  cases hc : l.codeCache? with
  | none => exact ⟨_, l.files, [], run_scanSource_bare hc file source⟩
  | some cache =>
    obtain ⟨found, files, events, hrun, -⟩ := run_scanSource hc file source
    exact ⟨found, files, events, hrun⟩

/-! ## Loaders in order -/

/-- Every source that a loader remembers is one of these. -/
def Within (texts : Set String) (l : Loader) : Prop :=
  ∀ {file source}, l.sources.get? file = some source → source ∈ texts

theorem within_of_values (h : ∀ source ∈ l.sources.values, source ∈ texts) : l.Within texts :=
  fun hs => h _ (Table.mem_values hs)

/-- A loader with this code cache, whose programs are those of its sources. -/
structure Sound (cache : CodeCache) (l : Loader) : Prop where
  codeCache : l.codeCache? = some cache
  programs : ∀ {file p}, l.programs.get? file = some p →
    ∃ source, l.sources.get? file = some source ∧ Program.scan source = .ok p

theorem Reads.sound {found : Except LoadError String} (h : Reads file l found l') (hl : l.Sound cache) :
    l'.Sound cache where
  codeCache := h.codeCache.trans hl.codeCache
  programs hp := by
    rw [h.programs] at hp
    obtain ⟨source, hsource, hscan⟩ := hl.programs hp
    exact ⟨source, h.keeps hsource, hscan⟩

theorem Sound.remembering {p : Program} (h : l.Sound cache) (hs : l.sources.get? file.components = some source)
    (hscan : Program.scan source = .ok p) : (l.remembering file p).Sound cache := by
  refine ⟨h.codeCache, fun {other q} hq => ?_⟩
  change (l.programs.insert file.components p).get? other = some q at hq
  rw [Table.get?_insert] at hq
  split at hq
  · next heq =>
    cases hq
    exact ⟨source, heq ▸ hs, hscan⟩
  · exact h.programs hq

/-- What a loader is asked for is what the source says, and all stays in order. -/
theorem run_programOf (ht : CodeCache.Storable texts) (hl : l.Sound cache) (hheld : cache.Held home texts l.files)
    (hw : (l.run (programOf file)).2.Within texts) :
    (l.run (programOf file)).1 = l.scanned file ∧ (l.run (programOf file)).2.Sound cache ∧
      cache.Held home texts (l.run (programOf file)).2.files := by
  cases hp : l.programs.get? file.components with
  | some p =>
    obtain ⟨source, hsource, hscan⟩ := hl.programs hp
    rw [run_programOf_of_get? hp, scanned, sourceText, hsource]
    exact ⟨(scanOf_eq_ok.mpr hscan).symm, hl, hheld⟩
  | none =>
    have hreads := reads_sourceOf l file
    rw [run_programOf_of_none hp] at hw ⊢
    generalize l.run (sourceOf file) = r at hreads hw ⊢
    obtain ⟨found, l₁⟩ := r
    obtain rfl : found = l.sourceText file := hreads.found
    have hl₁ := hreads.sound hl
    have hheld₁ : cache.Held home texts l₁.files := hreads.files.symm ▸ hheld
    unfold scanned
    cases htext : l.sourceText file with
    | error e => exact ⟨rfl, hl₁, hheld₁⟩
    | ok source =>
      have hlearnt := hreads.learns htext
      obtain ⟨result, files, events, hrun, hscan⟩ := run_scanSource hl₁.codeCache file source
      rw [htext] at hw
      dsimp only at hw ⊢
      rw [hrun] at hw ⊢
      have hs : source ∈ texts := by
        cases result with
        | error e => exact hw hlearnt
        | ok p => exact hw hlearnt
      obtain ⟨rfl, hfiles⟩ := hscan ht hs hheld₁
      have hstored : (l₁.storing files events).Sound cache := ⟨hl₁.codeCache, hl₁.programs⟩
      change _ = scanOf file source ∧ _
      cases hresult : scanOf file source with
      | error e => exact ⟨rfl, hstored, hfiles⟩
      | ok p => exact ⟨rfl, hstored.remembering hlearnt (scanOf_eq_ok.mp hresult), hfiles⟩

/-! ## Histories -/

/-- The file system stays as it is, and of what is remembered files may be forgotten. -/
structure Forgets (l l' : Loader) : Prop where
  codeCache : l'.codeCache? = l.codeCache?
  files : l'.files = l.files
  remembered : ∀ file, l'.sources.get? file = l.sources.get? file ∧ l'.programs.get? file = l.programs.get? file ∨
    l'.sources.get? file = none ∧ l'.programs.get? file = none

/-- What a loader does at once, as far as its code cache is concerned. -/
inductive Turn (l : Loader) : Loader → Prop where
  | program (file : Path) : Turn l (l.run (programOf file)).2
  | source (file : Path) : Turn l (l.run (sourceOf file)).2
  | other {l' : Loader} (h : Forgets l l') : Turn l l'

/-- Loaders that share a code cache, and the file system behind what they did. -/
inductive History (cache : CodeCache) (home : Location) (texts : Set String) : List Loader → FileSystem → Prop where
  /-- No blob is there yet. -/
  | begins {fs : FileSystem} (h : cache.Vacant home fs) : History cache home texts [] fs
  /-- Another loader starts. -/
  | opens {ls : List Loader} {fs : FileSystem} {l : Loader} (h : History cache home texts ls fs)
      (hc : l.codeCache? = some cache) (hs : l.sources = .empty) (hp : l.programs = .empty) :
      History cache home texts (l :: ls) fs
  /-- One of the loaders does something. -/
  | turns {before behind : List Loader} {fs : FileSystem} {l l' : Loader}
      (h : History cache home texts (before ++ l :: behind) fs) (ht : Turn { l with files := fs } l')
      (hw : l'.Within texts) : History cache home texts (before ++ l' :: behind) l'.files
  /-- Somebody else changes the file system. -/
  | disturbs {ls : List Loader} {fs fs' : FileSystem} (h : History cache home texts ls fs)
      (hd : cache.Disturbed home fs fs') : History cache home texts ls fs'

theorem Turn.inOrder (ht : CodeCache.Storable texts) (h : Turn l l') (hl : l.Sound cache)
    (hheld : cache.Held home texts l.files) (hw : l'.Within texts) :
    l'.Sound cache ∧ cache.Held home texts l'.files := by
  cases h with
  | program file => exact (run_programOf ht hl hheld hw).2
  | source file =>
    have hreads := reads_sourceOf l file
    exact ⟨hreads.sound hl, hreads.files.symm ▸ hheld⟩
  | other h =>
    refine ⟨⟨h.codeCache.trans hl.codeCache, fun {file p} hp => ?_⟩, h.files.symm ▸ hheld⟩
    obtain ⟨hsources, hprograms⟩ | ⟨-, hnone⟩ := h.remembered file
    · rw [hsources]
      exact hl.programs (hprograms ▸ hp)
    · rw [hnone] at hp
      cases hp

/-- Throughout a history the loaders and the directory are in order. -/
theorem History.inOrder {ls : List Loader} {fs : FileSystem} (ht : CodeCache.Storable texts)
    (h : History cache home texts ls fs) : (∀ l ∈ ls, l.Sound cache) ∧ cache.Held home texts fs := by
  induction h with
  | begins h => exact ⟨fun _ hl => (List.not_mem_nil hl).elim, h.held texts⟩
  | @opens ls fs l _ hc hs hp ih =>
    refine ⟨fun l' hl' => ?_, ih.2⟩
    obtain rfl | hl' := List.mem_cons.mp hl'
    · exact ⟨hc, fun {file p} h => by rw [hp] at h; cases h⟩
    · exact ih.1 l' hl'
  | @turns before behind fs l l' _ hturn hw ih =>
    have hl := ih.1 l (List.mem_append_right _ List.mem_cons_self)
    obtain ⟨hsound, hheld⟩ := hturn.inOrder ht ⟨hl.codeCache, hl.programs⟩ ih.2 hw
    refine ⟨fun other hother => ?_, hheld⟩
    simp only [List.mem_append, List.mem_cons] at hother ih
    obtain hother | rfl | hother := hother
    · exact ih.1 other (.inl hother)
    · exact hsound
    · exact ih.1 other (.inr (.inr hother))
  | disturbs _ hd ih => exact ⟨ih.1, ih.2.disturbed hd⟩

/-! ## Loads are histories -/

theorem History.within {ls : List Loader} {fs : FileSystem} (h : History cache home texts ls fs) :
    ∀ l ∈ ls, l.Within texts := by
  induction h with
  | begins => exact fun _ hl => (List.not_mem_nil hl).elim
  | opens _ _ hs _ ih =>
    intro l hl
    obtain rfl | hl := List.mem_cons.mp hl
    · exact fun {file source} h => by rw [hs] at h; cases h
    · exact ih l hl
  | turns _ _ hw ih =>
    intro other hother
    simp only [List.mem_append, List.mem_cons] at hother ih
    obtain hother | rfl | hother := hother
    · exact ih other (.inl hother)
    · exact hw
    · exact ih other (.inr (.inr hother))
  | disturbs _ _ ih => exact ih

/-- What is remembered stays so, and it takes turns to come from the one to the other. -/
structure Carries (cache : CodeCache) (home : Location) (texts : Set String) (l l' : Loader) : Prop where
  keeps : ∀ {file source}, l.sources.get? file = some source → l'.sources.get? file = some source
  history : l'.Within texts → ∀ {before behind}, History cache home texts (before ++ l :: behind) l.files →
    History cache home texts (before ++ l' :: behind) l'.files

namespace Carries

theorem trans {l'' : Loader} (h : Carries cache home texts l l') (h' : Carries cache home texts l' l'') :
    Carries cache home texts l l'' where
  keeps hs := h'.keeps (h.keeps hs)
  history hw _ _ hh := h'.history hw (h.history (fun hs => hw (h'.keeps hs)) hh)

instance : IsPreorder Loader (Carries cache home texts) where
  refl _ := ⟨id, fun _ {_ _} h => h⟩
  trans _ _ _ := trans

theorem of_turn (hs : ∀ {file source}, l.sources.get? file = some source → l'.sources.get? file = some source)
    (h : Turn l l') : Carries cache home texts l l' := ⟨hs, fun hw {_ _} hh => hh.turns h hw⟩

theorem of_eq (hc : l'.codeCache? = l.codeCache?) (hf : l'.files = l.files) (hs : l'.sources = l.sources)
    (hp : l'.programs = l.programs) : Carries cache home texts l l' :=
  of_turn (fun h => by rw [hs]; exact h) (.other ⟨hc, hf, fun _ => .inl ⟨by rw [hs], by rw [hp]⟩⟩)

theorem program (file : Path) : Follows (Carries cache home texts) (programOf file) := by
  intro l
  refine of_turn (fun {other text} h => ?_) (.program file)
  cases hp : l.programs.get? file.components with
  | some p =>
    rw [run_programOf_of_get? hp]
    exact h
  | none =>
    have hreads := reads_sourceOf l file
    rw [run_programOf_of_none hp]
    generalize l.run (sourceOf file) = r at hreads
    obtain ⟨e | source, l₁⟩ := r
    · exact hreads.keeps h
    · -- whether there is a code cache or not, scanning leaves the sources alone
      obtain ⟨result, files, events, hrun⟩ := exists_storing_of_scanSource l₁ file source
      dsimp only
      rw [hrun]
      cases result <;> exact hreads.keeps h

theorem respects : Respects (Carries cache home texts) where
  toIsPreorder := inferInstance
  report _ := fun _ => of_eq rfl rfl rfl rfl
  addEntry _ := fun _ => of_eq rfl rfl rfl rfl
  updateEntry _ _ _ := fun _ => of_eq rfl rfl rfl rfl
  updateCache _ := fun _ => of_eq rfl rfl rfl rfl
  builtin name := by
    intro l
    unfold Loader.builtin
    rw [run_bind, run_get, andThen_ok]
    cases l.cache.builtins.get? name <;> exact of_eq rfl rfl rfl rfl
  package _ := fun _ => of_eq rfl rfl rfl rfl
  source file := fun l => of_turn (reads_sourceOf l file).keeps (.source file)
  program := program

theorem discover (request : String) (parent : Option EntryId) :
    Follows (Carries cache home texts) (Loader.discover request parent) := by
  intro l
  have hbegin : Carries cache home texts l (l.withParsing true) := of_eq rfl rfl rfl rfl
  have hload : Carries cache home texts _ _ := respects.load request parent false (l.withParsing true)
  rw [run_discover]
  generalize (l.withParsing true).run (Loader.load request parent false) = r at hload ⊢
  exact (hbegin.trans hload).trans (of_eq rfl rfl rfl rfl)

end Carries

/-- A loader takes notice of the files. -/
theorem History.notices {before behind : List Loader} {fs : FileSystem}
    (h : History cache home texts (before ++ l :: behind) fs) :
    History cache home texts (before ++ { l with files := fs } :: behind) fs :=
  h.turns (.other ⟨rfl, rfl, fun _ => .inl ⟨rfl, rfl⟩⟩) (h.within l (List.mem_append_right _ List.mem_cons_self))

/-- What a loader does when it is asked for something is a series of turns. -/
theorem History.after {before behind : List Loader} {op : Operation}
    (h : History cache home texts (before ++ l :: behind) l.files) (hop : ∀ files, op ≠ .changeFiles files)
    (hw : (l.after op).Within texts) :
    History cache home texts (before ++ l.after op :: behind) (l.after op).files := by
  cases op with
  | load request parent isMain => exact (Carries.respects.load request parent isMain l).history hw h
  | discover request parent => exact (Carries.discover request parent l).history hw h
  | resolve request parent =>
    refine Carries.history ?_ hw h
    rw [Loader.after, run_resolve]
    exact .of_eq rfl rfl rfl rfl
  | changeFiles files => exact absurd rfl (hop files)
  | invalidate key =>
    refine h.turns (.other ⟨rfl, rfl, fun file => ?_⟩) hw
    have herase : ∀ {α : Type} (t : Table (List Path.Component) α) (k : List Path.Component),
        (t.erase k).get? file = if k = file then none else t.get? file := fun t k => Table.get?_erase t k file
    by_cases heq : Path.components ⟨(splitQuery key).1⟩ = file
    · exact .inr ⟨(herase _ _).trans (if_pos heq), (herase _ _).trans (if_pos heq)⟩
    · exact .inl ⟨(herase _ _).trans (if_neg heq), (herase _ _).trans (if_neg heq)⟩
  | clearCache => exact h.turns (.other ⟨rfl, rfl, fun _ => .inr ⟨rfl, rfl⟩⟩) hw
  | registerBuiltin | registerCompiler | replaceCached =>
    exact h.turns (.other ⟨rfl, rfl, fun _ => .inl ⟨rfl, rfl⟩⟩) hw

/-- Whatever loaders did before with a directory of stored programs, and whatever was deleted or cut off
there: what one of them is asked for is what it would be without stored programs, and without those that it
remembers. -/
theorem run_programOf_eq_of_history {ls : List Loader} {fs : FileSystem} (ht : CodeCache.Storable texts)
    (h : History cache home texts ls fs) (hl : l ∈ ls) (file : Path)
    (hw : ({ l with files := fs }.run (programOf file)).2.Within texts) :
    ({ l with files := fs }.run (programOf file)).1 =
      ({ l with files := fs, codeCache? := none, programs := .empty }.run (programOf file)).1 := by
  obtain ⟨hsound, hheld⟩ := h.inOrder ht
  have hl : Sound cache { l with files := fs } := ⟨(hsound l hl).codeCache, (hsound l hl).programs⟩
  have hscanned : { l with files := fs }.scanned file =
      { l with files := fs, codeCache? := none, programs := .empty }.scanned file := rfl
  obtain ⟨hresult, -, -⟩ := run_programOf ht hl hheld hw
  rw [hresult, hscanned]
  exact (result_programOf_bare rfl (Table.get?_empty _)).symm

/-- A directory with one module. -/
def unstoredFiles : FileSystem where
  nodes := ⟨[
    (["app"], .directory),
    (["main.js", "app"], .file "exports.a = 1".toUTF8)]⟩
  workingDirectory := ["app"]

/-- A loader that keeps programs in a directory that is missing yet. -/
def sharing : Loader := { ofConfig (.default ⟨none, none⟩) unstoredFiles with codeCache? := some ⟨⟨"/cache"⟩⟩ }

/-- The loader after it loaded the module. -/
def stocked : Loader := sharing.after (.load "./main.js" none true)

/-- The content of what is at a place, if that is a file. -/
def contentOf? : Node → Option ByteArray
  | .file content => some content
  | _ => none

/-- The files after that, with what was stored cut off. -/
def cutOffFiles : FileSystem :=
  stocked.files.put ["b6b132202a2fbbef-68e4a48b50813eee.json", "cache"] (.file "\x7b\"statements\":[".toUTF8)

theorem run_programOf_cutOff :
    let l := { sharing with files := cutOffFiles }
    CodeCache.Storable {"exports.a = 1"} ∧
    History ⟨⟨"/cache"⟩⟩ ["cache"] {"exports.a = 1"} [sharing, stocked] cutOffFiles ∧
    (l.run (programOf ⟨"/app/main.js"⟩)).2.Within {"exports.a = 1"} ∧
    (l.run (programOf ⟨"/app/main.js"⟩)).1 =
      ({ l with codeCache? := none, programs := .empty }.run (programOf ⟨"/app/main.js"⟩)).1 := by
  intro l
  -- everything that has to be run is run once
  obtain ⟨hnumbers, hstored, hplace, hstocked, hasked⟩ :
      (Program.scan "exports.a = 1").toOption.elim [] Program.numbers = [.integer 1] ∧
      (stocked.files.node? ["b6b132202a2fbbef-68e4a48b50813eee.json", "cache"]).bind contentOf? =
        some ("\x7b\"statements\":[".toUTF8 ++
          "\x7b\"Assign\":\x7b\"name\":\"a\",\"value\":\x7b\"Literal\":1\x7d\x7d\x7d]\x7d".toUTF8) ∧
      CodeCache.place ⟨⟨"/cache"⟩⟩ stocked.files = .ok ["cache"] ∧
      stocked.sources.values = ["exports.a = 1"] ∧
      (l.run (programOf ⟨"/app/main.js"⟩)).2.sources.values = ["exports.a = 1"] := by
    decide +kernel
  have hwithin : ∀ {l : Loader}, l.sources.values = ["exports.a = 1"] → l.Within {"exports.a = 1"} := fun h =>
    within_of_values fun source hs => List.mem_singleton.mp (h ▸ hs)
  have hstorable : CodeCache.Storable {"exports.a = 1"} := by
    refine ⟨fun a ha b hb _ => ha.trans hb.symm, fun a ha p hp n hn => ?_⟩
    rw [ha] at hp
    rw [hp] at hnumbers
    have hone : n ∈ [Json.Number.integer 1] := by rwa [← hnumbers]
    obtain rfl := List.mem_singleton.mp hone
    exact ⟨by decide, by decide⟩
  have hvacant : CodeCache.Vacant ⟨⟨"/cache"⟩⟩ ["cache"] sharing.files := by
    refine ⟨FileSystem.rooted_of_keys (by decide), CodeCache.at_of_plain (by decide) fun front hfront target => ?_,
      fun path source => ?_⟩
    · obtain rfl | ⟨rest, rfl, hrest⟩ := List.prefix_cons_iff.mp hfront
      · exact nofun
      · obtain rfl := List.prefix_nil.mp hrest
        exact nofun
    · simp [FileSystem.node?, Table.get?, Table.find?, sharing, ofConfig, unstoredFiles]
  have hstocks : History ⟨⟨"/cache"⟩⟩ ["cache"] {"exports.a = 1"} [stocked] stocked.files := by
    have hopened : History ⟨⟨"/cache"⟩⟩ ["cache"] {"exports.a = 1"} ([] ++ sharing :: []) sharing.files :=
      .opens (.begins hvacant) rfl rfl rfl
    have hop : ∀ files, Operation.load "./main.js" none true ≠ .changeFiles files := by rintro files ⟨⟩
    exact hopened.after hop (hwithin hstocked)
  have hdisturbed : CodeCache.Disturbed ⟨⟨"/cache"⟩⟩ ["cache"] stocked.files cutOffFiles := by
    have hrooted := (hstocks.inOrder hstorable).2.rooted
    cases hnode : stocked.files.node? ["b6b132202a2fbbef-68e4a48b50813eee.json", "cache"] with
    | none => rw [hnode] at hstored; cases hstored
    | some node =>
      rw [hnode] at hstored
      cases node with
      | file content => exact .write hrooted hplace hnode fun _ => ⟨_, (Option.some.inj hstored).symm⟩
      | directory => cases hstored
      | link target => cases hstored
  have hhistory : History ⟨⟨"/cache"⟩⟩ ["cache"] {"exports.a = 1"} [sharing, stocked] cutOffFiles :=
    .opens (.disturbs hstocks hdisturbed) rfl rfl rfl
  exact ⟨hstorable, hhistory, hwithin hasked,
    run_programOf_eq_of_history hstorable hhistory List.mem_cons_self _ (hwithin hasked)⟩

end Loader
end ModGraph
