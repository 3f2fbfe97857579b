import ModGraph.Proofs.Confluence
import ModGraph.Proofs.Renumbering

/-!
# A cleared loader and a new one

Whatever a loader was asked for without a parent, while the files stayed as they were: after its cache was cleared it
answers like a loader that has just been made, with the same configuration, compilers and builtin modules
(`Loader.replays_of_cleared`).

The two do not have the same entries, as the cleared loader keeps those that it made before. So the new loader is run
next to it, and the numbers of their entries are matched up as they are made: each part of a load does the same in
both (`Loader.Concurring`), and so do the calls, one after the other.
-/

namespace ModGraph

open Json (Value)

/-- What is found in two caches corresponds. -/
inductive CacheLookup.Alike (r : Numbering) : CacheLookup → CacheLookup → Prop where
  | hit {i a : EntryId} (h : r i a) : CacheLookup.Alike r (.hit i) (.hit a)
  | evaluate (p : Partition) {i a : EntryId} (h : r i a) : CacheLookup.Alike r (.evaluate p i) (.evaluate p a)
  | miss (p : Partition) : CacheLookup.Alike r (.miss p) (.miss p)

namespace Loader

/-- Modules that correspond are to be compiled for the same request. -/
structure Job.Alike (r : Numbering) (j j' : Job) : Prop where
  request : j'.request = j.request
  referrer : Option.Rel (Referrer.Alike r) j.referrer j'.referrer
  isMain : j'.isMain = j.isMain
  target : j'.target = j.target
  partition : j'.partition = j.partition
  id : r j.id j'.id

/-- Two requests come to the same before anything is compiled. -/
inductive Finding.Alike (r : Numbering) : Finding → Finding → Prop where
  | found {i a : EntryId} (h : r i a) : Finding.Alike r (.found i) (.found a)
  | needs {j j' : Job} (h : Job.Alike r j j') : Finding.Alike r (.needs j) (.needs j')

variable {r s : Numbering} {l l' : Loader} {i a : EntryId} {f f' : Option Referrer} {job job' : Job}

namespace Concurring

/-! ## Seeking a module -/

theorem lookup (p : Partition) (key : String) :
    Concurring r CacheLookup.Alike (Loader.lookup p key) (Loader.lookup p key) := by
  refine get.bind fun s _ l l' hm => ?_
  have hget := hm.cache.get? p key
  rw [hm.cache.parsing]
  generalize l.cache.get? p key = x at hget
  generalize l'.cache.get? p key = y at hget
  cases hget with
  | none => exact pure fun _ _ => .miss p
  | some hxy =>
    cases hxy with
    | poisoned e => exact throw e
    | loading hia => exact (report _ _).andThen fun _ _ => pure fun _ ht => .hit (ht _ _ hia)
    | @ready i a hia =>
      -- entries that are alike are loaded to the same extent
      dsimp only
      rw [(hm.entry hia).spared.isLoaded]
      split
      · exact pure fun _ ht => .hit (ht _ _ hia)
      · exact pure fun _ ht => .evaluate p (ht _ _ hia)

theorem classify (key : String) (fixed : Option Format) (unexposed : Bool) :
    Concurring r CacheLookup.Alike (Loader.classify key fixed unexposed) (Loader.classify key fixed unexposed) := by
  refine get.bind fun s _ l l' hm => ?_
  have hget := hm.cache.get? .discovery key
  rw [hm.cache.has, hm.cache.has, hm.cache.parsing]
  split
  · exact lookup _ _
  · split
    · exact lookup _ _
    · generalize l.cache.get? .discovery key = x at hget
      generalize l'.cache.get? .discovery key = y at hget
      cases hget with
      | none => exact pure fun _ _ => .miss _
      | some hxy =>
        cases hxy with
        | poisoned e => exact throw e
        | loading hia => exact pure fun _ ht => .hit (ht _ _ hia)
        | @ready i a hia =>
          dsimp only
          rw [(hm.entry hia).spared.format]
          split
          · exact pure fun _ ht => .hit (ht _ _ hia)
          · exact (report _ _).andThen fun _ _ => (commit _ _).andThen fun _ _ => lookup _ _

theorem seekTarget (request : String) (hf : Option.Rel (Referrer.Alike r) f f') (isMain : Bool) (target : Target) :
    Concurring r Finding.Alike (Loader.seekTarget request f isMain target)
      (Loader.seekTarget request f' isMain target) := by
  refine (report _ _).andThen fun _ _ => (classify _ _ _).bind fun s hs found found' hfound => ?_
  have hfs : Option.Rel (Referrer.Alike s) f f' := optionRel_mono hf fun _ _ h => h.mono hs
  cases hfound with
  | hit hia =>
    exact (report _ _).andThen fun _ _ => (link hfs request hia).andThen fun _ _ => pure fun _ ht => .found (ht _ _ hia)
  | evaluate p hia =>
    exact pure fun _ ht => .needs
      ⟨rfl, optionRel_mono hfs fun _ _ h => h.mono ht, rfl, rfl, rfl, ht _ _ hia⟩
  | miss p =>
    -- the new entries get corresponding parents
    have hnew : ∀ e : Entry, e.children = .empty → Entry.Alike s { e with parent := f.map Referrer.id }
        { e with parent := f'.map Referrer.id } := fun e he => ⟨⟨rfl, rfl, rfl, rfl, rfl⟩, he ▸ .empty⟩
    refine (addEntry (hnew _ rfl)).bind fun t ht i a hia => ?_
    exact pure fun u hu => .needs
      ⟨rfl, optionRel_mono hfs fun _ _ h => h.mono fun _ _ h => hu _ _ (ht _ _ h), rfl, rfl, rfl, hu _ _ hia⟩

theorem seek (request : String) {parent parent' : Option EntryId} (hp : Option.Rel r parent parent') (isMain : Bool) :
    Concurring r Finding.Alike (Loader.seek request parent isMain) (Loader.seek request parent' isMain) := by
  refine (referrers hp).bind fun s _ f f' hf => ?_
  refine (resolveSpecifier _ hf isMain).bind fun t ht found found' hfound => ?_
  obtain ⟨rfl, hcanonical⟩ := hfound
  have hft : Option.Rel (Referrer.Alike t) f f' := optionRel_mono hf fun _ _ h => h.mono ht
  cases found with
  | builtin name =>
    refine (builtin name).bind fun u hu i a hia => ?_
    have hfu : Option.Rel (Referrer.Alike u) f f' := optionRel_mono hft fun _ _ h => h.mono hu
    exact (link hfu request hia).andThen fun _ _ => pure fun _ hv => .found (hv _ _ hia)
  | file filename =>
    refine (packageOfFile (hcanonical filename rfl)).bind fun u hu package _ hpackage => ?_
    subst hpackage
    exact seekTarget request (optionRel_mono hft fun _ _ h => h.mono hu) isMain _

/-! ## Compiling a module -/

theorem occupy (hj : Job.Alike r job job') : Concurring r Any (Loader.occupy job) (Loader.occupy job') := by
  obtain ⟨request, f, isMain, target, p, i⟩ := job
  obtain ⟨request', f', isMain', target', p', a⟩ := job'
  obtain ⟨rfl, -, rfl, rfl, rfl, hia⟩ := hj
  refine (updateCache (fun _ hs _ _ hc => hc.set p' target'.key (.loading (hs _ _ hia)))
    (fun _ => Cache.builtins_set _ _ _ _) fun _ => Cache.builtins_set _ _ _ _).andThen fun _ _ => ?_
  refine (onlyIf Iff.rfl ?_).andThen fun _ _ => report _ _
  have hnamed : Concurring r Any (Loader.updateEntry i fun e => { e with module := { e.module with id := "." } })
      (Loader.updateEntry a fun e => { e with module := { e.module with id := "." } }) :=
    changeEntry hia fun _ _ _ => rfl
  exact hnamed.andThen fun _ _ => updateCache
    (fun _ hs _ _ hc => hc.withMain (.some (hs _ _ hia)) (.some (hs _ _ hia))) (fun _ => rfl) fun _ => rfl

theorem vacate (hj : Job.Alike r job job') (e : LoadError) :
    Concurring r Any (Loader.vacate job e) (Loader.vacate job' e) := by
  unfold Loader.vacate
  rw [hj.partition, hj.target]
  split
  · exact poison _ _ _
  · exact rollback _

theorem settle (p : Partition) (key : String) (unexposed : Bool) (format : Format) :
    Concurring r Any (Loader.settle p key unexposed format) (Loader.settle p key unexposed format) := by
  have hfinish : ∀ p, Concurring r Any (Loader.updateCache fun c => c.finish p key)
      (Loader.updateCache fun c => c.finish p key) := fun p =>
    updateCache (fun _ _ _ _ hc => hc.finish p key) (fun _ => Cache.builtins_finish _ _ _)
      fun _ => Cache.builtins_finish _ _ _
  refine get.bind fun s hs l l' hm => ?_
  rw [hm.cache.parsing]
  split
  · exact (commit _ _).andThen fun _ _ => (hfinish _).mono hs
  · exact (hfinish _).mono hs

theorem conceal (hf : Option.Rel (Referrer.Alike r) f f') (isMain unexposed : Bool) (key : String) (hia : r i a)
    (format : Format) :
    Concurring r Any (Loader.conceal f isMain unexposed key i format)
      (Loader.conceal f' isMain unexposed key a format) := by
  have hsevers : severs f' format = severs f format := by
    cases hf with
    | none => rfl
    | some hf => simp [severs, hf.format, hf.package]
  have hhidden : Concurring r Any (do
      Loader.report (.hidesMain key)
      Loader.updateCache fun c => { c with legacyMain? := none }) (do
      Loader.report (.hidesMain key)
      Loader.updateCache fun c => { c with legacyMain? := none }) :=
    (report _ _).andThen fun _ _ => updateCache
      (fun _ _ _ _ hc => hc.withMain hc.main .none) (fun _ => rfl) fun _ => rfl
  have hsevered : Concurring r Any (Loader.updateEntry i fun e => { e with parent := none })
      (Loader.updateEntry a fun e => { e with parent := none }) :=
    updateEntry hia fun s _ e e' he =>
      ⟨⟨he.spared.key, he.spared.format, he.spared.parsed, he.spared.module, he.spared.package⟩, he.children⟩
  refine get.bind fun s hs l l' hm => onlyIf (by rw [hm.cache.parsing]) ?_
  refine (onlyIf Iff.rfl (hhidden.mono hs)).andThen fun _ _ => ?_
  exact onlyIf (by rw [hsevers]) (hsevered.mono hs)

theorem conclude (hj : Job.Alike r job job') : Concurring r Any (Loader.conclude job) (Loader.conclude job') := by
  obtain ⟨request, f, isMain, target, p, i⟩ := job
  obtain ⟨request', f', isMain', target', p', a⟩ := job'
  obtain ⟨rfl, hf, rfl, rfl, rfl, hia⟩ := hj
  refine (getEntry hia).bind fun s hs e e' he => ?_
  have hfs : Option.Rel (Referrer.Alike s) f f' := optionRel_mono hf fun _ _ h => h.mono hs
  dsimp only
  rw [he.spared.format]
  exact (settle _ _ _ _).andThen fun _ _ => (report _ _).andThen fun _ _ =>
    (link hfs _ (hs _ _ hia)).andThen fun _ _ => conceal hfs _ _ _ (hs _ _ hia) _

theorem dependency (hia : r i a) : Concurring r Same (Loader.dependency i) (Loader.dependency a) := by
  refine (getEntry hia).bind fun s _ e e' he => pure fun _ _ => ?_
  rw [he.spared.key, he.spared.isLoaded, he.spared.module]

theorem setFormat (hia : r i a) (format : Format) :
    Concurring r Any (Loader.setFormat i format) (Loader.setFormat a format) := by
  refine (getEntry hia).bind fun s hs e e' he => ?_
  refine (onlyIf (by rw [he.spared.isLoaded]) (report _ _)).andThen fun _ _ => ?_
  refine changeEntry (hs _ _ hia) fun e _ _ => ?_
  cases hloaded : e.module.loaded <;> simp [Entry.setFormat, Entry.isLoaded, hloaded]

theorem beginCompile (hia : r i a) (filename : Path) :
    Concurring r Same (Loader.beginCompile i filename) (Loader.beginCompile a filename) := by
  refine get.bind fun s hs l l' hm => ?_
  obtain ⟨-, hformat, -, hmodule, hpackage⟩ := (hm.entry (hs _ _ hia)).spared
  dsimp only
  rw [hformat, hmodule, hpackage, hm.resolver, hm.compilers, hm.cache.parsing]
  refine (changeEntry (hs _ _ hia) fun _ _ _ => rfl).andThen fun _ _ => ?_
  refine (onlyIf Iff.rfl (changeEntry (hs _ _ hia) fun _ _ _ => rfl)).andThen fun _ _ => ?_
  exact (report _ _).andThen fun _ _ => pure fun _ _ => rfl

theorem endCompile (hia : r i a) (filename : Path) (c : Compilation) :
    Concurring r Any (Loader.endCompile i filename c) (Loader.endCompile a filename c) := by
  refine get.bind fun s hs l l' hm => ?_
  rw [(hm.entry (hs _ _ hia)).spared.format, hm.resolver]
  refine (onlyIf Iff.rfl (changeEntry (hs _ _ hia) fun _ _ _ => rfl)).andThen fun _ _ => ?_
  split
  · exact changeEntry (hs _ _ hia) fun _ _ _ => rfl
  · exact changeEntry (hs _ _ hia) fun _ _ _ => rfl

/-- A task does the same to entries that correspond, if what it asks for is loaded in the same way. -/
theorem runTask {nested nested' : NestedLoad}
    (hn : ∀ (s : Numbering) request i a, s i a → Concurring s Numbered (nested request i) (nested' request a))
    (hia : r i a) (filename : Path) (t : Task) :
    Concurring r Any (Loader.runTask nested i filename t) (Loader.runTask nested' a filename t) := by
  induction t generalizing r with
  | done => exact pure fun _ _ => trivial
  | fail e => exact throw e
  | setFormat format next ih => exact (setFormat hia format).andThen fun _ _ => ih hia
  | report event next ih => exact (report _ _).andThen fun _ _ => ih hia
  | readSource next ih =>
    refine (sourceOf filename).bind fun s hs text _ htext => ?_
    subst htext
    exact ih text (hs _ _ hia)
  | readProgram next ih =>
    refine (programOf filename).bind fun s hs p _ hp => ?_
    subst hp
    exact ih p (hs _ _ hia)
  | require request next ih =>
    refine (hn r request i a hia).bind fun s hs child child' hchild => ?_
    refine (dependency hchild).bind fun t ht d _ hd => ?_
    subst hd
    exact ih d (ht _ _ (hs _ _ hia))
  | setExports v next ih =>
    exact (changeEntry hia fun _ _ _ => rfl).andThen fun _ _ => ih hia
  | setExport name v next ih =>
    exact (changeEntry hia fun _ _ _ => rfl).andThen fun _ _ => ih hia

/-! ## Loads -/

section Nested

variable {nested nested' : NestedLoad}
  (hn : ∀ (s : Numbering) request i a, s i a → Concurring s Numbered (nested request i) (nested' request a))
include hn

theorem compile (hia : r i a) (filename : Path) :
    Concurring r Any (Loader.compile nested i filename) (Loader.compile nested' a filename) := by
  refine (beginCompile hia filename).bind fun s hs c _ hc => ?_
  subst hc
  exact (runTask hn (hs _ _ hia) filename c.task).andThen fun _ _ => endCompile (hs _ _ hia) filename c

theorem perform (hj : Job.Alike r job job') :
    Concurring r Numbered (Loader.perform nested job) (Loader.perform nested' job') := by
  refine (occupy hj).andThen fun _ _ => ?_
  have hcompiled : Concurring r Any
      (Loader.onError (Loader.compile nested job.id job.target.filename) (Loader.vacate job))
      (Loader.onError (Loader.compile nested' job'.id job'.target.filename) (Loader.vacate job')) := by
    rw [hj.target]
    exact (compile hn hj.id job.target.filename).onError (vacate hj)
  exact hcompiled.andThen fun _ _ => (conclude hj).andThen fun _ _ => pure fun _ hs => hs _ _ hj.id

theorem answer (request : String) {parent parent' : Option EntryId} (hp : Option.Rel r parent parent') (isMain : Bool) :
    Concurring r Numbered (Loader.answer nested request parent isMain)
      (Loader.answer nested' request parent' isMain) := by
  refine (seek request hp isMain).bind fun s _ found found' hfound => ?_
  cases hfound with
  | found hia => exact pure fun _ ht => ht _ _ hia
  | needs hj => exact perform hn hj

end Nested

theorem reported {x y : LoadM EntryId} (h : Concurring r Numbered x y) (request : String) :
    Concurring r Numbered (Loader.reported request x) (Loader.reported request y) := by
  refine (report _ _).andThen fun _ _ => (h.onError fun e => report _ _).bind fun s _ i a hia => ?_
  exact (report _ _).andThen fun _ _ => pure fun _ ht => ht _ _ hia

/-- Nested loads concur, however deep they go. -/
theorem loadNested (limit : Nat) (request : String) (hia : r i a) :
    Concurring r Numbered (Loader.loadNested limit request i) (Loader.loadNested limit request a) := by
  induction limit generalizing r request i a with
  | zero => exact throw _
  | succ limit ih =>
    exact reported (answer (fun s request i a hs => ih request hs) request (.some hia) false) request

theorem load (request : String) {parent parent' : Option EntryId} (hp : Option.Rel r parent parent') (isMain : Bool) :
    Concurring r Numbered (Loader.load request parent isMain) (Loader.load request parent' isMain) := by
  refine get.bind fun s hs l l' hm => ?_
  -- the bound goes by texts and programs, not by entries
  have hlimit : l'.nestingBound request = l.nestingBound request := by
    unfold nestingBound textBound textsAtHand
    rw [hm.sources, hm.programs, hm.compilers, hm.files]
  rw [hlimit]
  exact reported (answer (fun t request i a ht => loadNested _ request ht) request
    (optionRel_mono hp hs) isMain) request

/-! ## Calls -/

theorem setParsing (parsing : Bool) : Concurring r Any (Loader.setParsing parsing) (Loader.setParsing parsing) :=
  updateCache (fun _ _ _ _ hc => hc.withParsing parsing) (fun _ => rfl) fun _ => rfl

theorem discover (request : String) {parent parent' : Option EntryId} (hp : Option.Rel r parent parent') :
    Concurring r Numbered (Loader.discover request parent) (Loader.discover request parent') := by
  refine get.bind fun s hs l l' hm => ?_
  rw [hm.cache.parsing]
  refine (setParsing true).andThen fun _ _ => ?_
  refine ((load request (optionRel_mono hp hs) false).onError fun _ => setParsing _).bind fun t ht i a hia => ?_
  exact (setParsing _).andThen fun _ _ => pure fun _ hu => hu _ _ hia

theorem resolve (request : String) {parent parent' : Option EntryId} (hp : Option.Rel r parent parent') :
    Concurring r Same (Loader.resolve request parent) (Loader.resolve request parent') := by
  refine (referrers hp).bind fun s _ f f' hf => (resolveSpecifier _ hf false).bind fun t ht found found' hfound => ?_
  obtain ⟨rfl, -⟩ := hfound
  cases found with
  | builtin name => exact pure fun _ _ => rfl
  | file filename => exact pure fun _ _ => rfl

theorem invalidate (key : String) : Concurring r Same (Loader.invalidate key) (Loader.invalidate key) := by
  have hbuiltins : ∀ c : Cache, (c.invalidate key).builtins = c.builtins := fun c => by
    simp [Cache.invalidate, Partition.all]
  have hdropped : Concurring r Any (Loader.updateCache fun c => c.invalidate key)
      (Loader.updateCache fun c => c.invalidate key) :=
    updateCache (fun _ _ _ _ hc => hc.invalidate key) hbuiltins hbuiltins
  have hforgotten : Concurring r Any
      (modify fun l => { l with
        sources := l.sources.erase (Path.mk (splitQuery key).1).components
        programs := l.programs.erase (Path.mk (splitQuery key).1).components } : LoadM Unit)
      (modify fun l => { l with
        sources := l.sources.erase (Path.mk (splitQuery key).1).components
        programs := l.programs.erase (Path.mk (splitQuery key).1).components }) :=
    modified fun _ _ _ _ hm => { hm with
      sources := congrArg (Table.erase · _) hm.sources, programs := congrArg (Table.erase · _) hm.programs }
  have hparts : Loader.invalidate key = do
      let l ← (MonadState.get : LoadM Loader)
      Loader.updateCache fun c => c.invalidate key
      modify fun l => { l with
        sources := l.sources.erase (Path.mk (splitQuery key).1).components
        programs := l.programs.erase (Path.mk (splitQuery key).1).components }
      return l.cache.hasAny key := rfl
  rw [hparts]
  exact get.bind fun s hs l l' hm => (hdropped.mono hs).andThen fun _ _ =>
    (hforgotten.mono hs).andThen fun _ _ => pure fun _ _ => (hm.cache.hasAny key).symm

end Concurring

/-! ## One call after the other -/

/-- A call that names no parent. -/
inductive Call where
  | load (request : String) (isMain : Bool)
  | discover (request : String)
  | resolve (request : String)
  | invalidate (key : String)

/-- What a call gives. -/
inductive Reply where
  | entry (id : EntryId)
  | key (key : String)
  | dropped (known : Bool)

/-- Calls give the same, or corresponding entries. -/
inductive Reply.Alike (r : Numbering) : Reply → Reply → Prop where
  | entry {i a : EntryId} (h : r i a) : Reply.Alike r (.entry i) (.entry a)
  | key (key : String) : Reply.Alike r (.key key) (.key key)
  | dropped (known : Bool) : Reply.Alike r (.dropped known) (.dropped known)

/-- What a call does. -/
def Call.action : Call → LoadM Reply
  | .load request isMain => do return .entry (← Loader.load request none isMain)
  | .discover request => do return .entry (← Loader.discover request none)
  | .resolve request => do return .key (← Loader.resolve request none)
  | .invalidate key => do return .dropped (← Loader.invalidate key)

theorem Concurring.action (call : Call) : Concurring r Reply.Alike call.action call.action := by
  cases call with
  | load request isMain => exact (load request .none isMain).bind fun _ _ _ _ h => pure fun _ ht => .entry (ht _ _ h)
  | discover request => exact (discover request .none).bind fun _ _ _ _ h => pure fun _ ht => .entry (ht _ _ h)
  | resolve request =>
    refine (resolve request .none).bind fun _ _ key _ h => ?_
    subst h
    exact pure fun _ _ => .key key
  | invalidate key =>
    refine (invalidate key).bind fun _ _ known _ h => ?_
    subst h
    exact pure fun _ _ => .dropped known

/-- Two loaders give the same replies to some calls, one after the other: the same errors, or corresponding entries.
After each call they have the same modules, in slots under the same keys. -/
def Replays (r : Numbering) : List Call → Loader → Loader → Prop
  | [], _, _ => True
  | call :: rest, l, l' => ∃ s : Numbering, (∀ i a, r i a → s i a) ∧
      SameOutcome (Reply.Alike s) (l.run call.action).1 (l'.run call.action).1 ∧
      Renumbers s (l.run call.action).2 (l'.run call.action).2 ∧
      (∀ p, (l'.run call.action).2.cache.keys p = (l.run call.action).2.cache.keys p) ∧
      (l'.run call.action).2.cache.poisonedKeys = (l.run call.action).2.cache.poisonedKeys ∧
      Replays s rest (l.run call.action).2 (l'.run call.action).2

theorem Concurs.replays (h : Concurs r l l') (calls : List Call) : Replays r calls l l' := by
  induction calls generalizing r l l' with
  | nil => trivial
  | cons call rest ih =>
    obtain ⟨s, hs, hm, hsame⟩ := Concurring.action call r (fun _ _ h => h) l l' h
    exact ⟨s, hs, hsame, hm.toRenumbers, hm.cache.keys, hm.cache.poisonedKeys, ih hm⟩

/-- A cleared loader concurs with a new one. No entries correspond yet; those of builtin modules that the cleared loader
has are as the new one would make them. -/
theorem concurs_of_cleared {fresh : Loader} (hidle : l.Idle) (hl : l.Enduring) (hfresh : fresh.Fresh)
    (hworld : fresh.world = l.world) (hcompilers : fresh.compilers = l.compilers) (hbare : fresh.codeCache? = none) :
    Concurs (fun _ _ => False) fresh (l.after .clearCache) := by
  have hnone : ∀ name, fresh.cache.builtins.get? name = none := fun name => by
    rw [hfresh.cache]
    rfl
  have hfiles : fresh.files = l.files := congrArg World.files hworld
  have huntried : fresh.Untried := { hfresh with
    bare := hbare
    proper := by
      rw [hfiles]
      exact hl.proper }
  refine {
    cache := ?_, inRange := nofun, left := nofun, right := nofun, entry := nofun
    world := hworld.symm, compilers := hcompilers.symm, bare := hbare, bare' := hl.bare
    proper := huntried.proper, recalls := huntried.enduring.recalls, recalls' := hworld ▸ hl.recalls
    sources := hfresh.sources.symm, programs := hfresh.programs.symm
    builtin := fun hb => ?_, spare := fun {name a} hb _ => ?_
    distinct := fun hb hb' _ _ => hl.distinct hb hb' }
  · rw [hfresh.cache]
    exact ⟨fun p => by cases p <;> exact .empty, .none, .none, hidle.parsing⟩
  · rw [hnone] at hb
    cases hb
  · obtain ⟨hspared, hchildren⟩ := hl.pristine hb
    refine ⟨(hl.builtin hb).1, fun _ => id, ?_⟩
    rw [builtinEntry_congr hworld]
    exact ⟨hspared, hchildren ▸ .empty⟩

/-- After its cache was cleared, a loader gives the same replies as a new one with the same configuration, compilers
and builtin modules, whatever it was asked for before. -/
theorem replays_of_cleared {fresh : Loader} (h : Reachable Untried Undirected l) (hfresh : fresh.Fresh)
    (hworld : fresh.world = l.world) (hcompilers : fresh.compilers = l.compilers) (hbare : fresh.codeCache? = none)
    (calls : List Call) : Replays (fun _ _ => False) calls fresh (l.after .clearCache) := by
  obtain ⟨hidle, hl⟩ := enduring_of_reachable h
  exact (concurs_of_cleared hidle hl hfresh hworld hcompilers hbare).replays calls

/-- A loader with a builtin module is asked for it, and for two modules that ask for each other. After its cache was
cleared, it still has the builtin module's entry; a new loader has none. -/
theorem replays_circular :
    let fresh := circular.after (.registerBuiltin "host" (.string "here"))
    let l := (fresh.after (.load "host" none false)).after (.load "./a.js" none true)
    (l.after .clearCache).cache.builtins.get? "host" = some 0 ∧ fresh.cache.builtins.get? "host" = none ∧
      Replays (fun _ _ => False) [.load "./b.js" false, .load "host" false, .discover "./a.js", .invalidate "/app/b.js",
        .resolve "./missing.js"] fresh (l.after .clearCache) := by
  intro fresh l
  have huntried : circular.Untried := { fresh_ofConfig _ _ with bare := rfl, proper := proper_app }
  have hhost : Reachable Untried Undirected (fresh.after (.load "host" none false)) :=
    .after (.after (.start huntried) rfl) rfl
  have hfirst : fresh.Evolves (fresh.after (.load "host" none false)) := Evolves.respects.load "host" none false fresh
  have hsecond : (fresh.after (.load "host" none false)).Evolves l := Evolves.respects.load "./a.js" none true _
  have hworld : l.world = fresh.world :=
    (hsecond.world (enduring_of_reachable hhost).2.bare).trans (hfirst.world rfl)
  have hload : Reachable Untried Undirected l := .after hhost (show Undirected _ (.load "./a.js" none true) from rfl)
  exact ⟨by decide +kernel, rfl, replays_of_cleared hload ⟨rfl, rfl, rfl, rfl, rfl, rfl⟩ hworld.symm
      (hsecond.compilers.trans hfirst.compilers).symm rfl _⟩

end Loader
end ModGraph
