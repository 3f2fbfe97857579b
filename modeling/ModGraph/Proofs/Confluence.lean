import ModGraph.Proofs.Evaluation
import ModGraph.Proofs.Termination

/-!
# Loads give outcomes

On graphs without circles a load gives what the file comes to, exports or an error, whatever was loaded
before and however that went. A slot that is there tells the outcome; where there is none, the module is
evaluated while nested loads do the same for what it asks for (`Loader.serves_loadNested`); and what is left
behind, a ready slot, a poisoned one or none, tells the outcome again. A slot in progress is never met, as
its file would ask for itself.
-/

namespace ModGraph

open Json (Value)
open Loader (Job)
open Relation (ReflTransGen TransGen)

namespace Loader

variable {w : World} {l l' : Loader} {request : String} {parent : Option EntryId} {isMain : Bool}
  {job : Job} {file : Path}

/-! ## Seeking -/

namespace Reflects

theorem linked (h : l.Reflects w) (referrer : Option Referrer) (request : String) (child : EntryId) :
    (l.linked referrer request child).Reflects w := by
  have hspares : Spares (fun _ => False) l (l.linked referrer request child) := Spares.linked l _ _ _
  have hspared := hspares h.toConsistent
  cases referrer with
  | none => exact h
  | some r =>
    refine h.of_slots hspared.consistent (h.sees.elsewhere ⟨rfl, rfl, rfl, rfl, rfl⟩) rfl rfl hspared.size ?_
      (fun hk => .inl ⟨_, hk⟩) fun hb => .inl hb
    intro id hid hloaded
    exact (hspared.entry ⟨hid, .inl hloaded⟩ not_false).module

theorem module_linked (l : Loader) (referrer : Option Referrer) (request : String) (child id : EntryId) :
    ((l.linked referrer request child).graph.entry id).module = (l.graph.entry id).module := by
  cases referrer with
  | none => rfl
  | some r =>
    have hspared := Entry.Spared.update l.graph r.id (f := fun e => e.addChild request child)
      (fun e => ⟨rfl, rfl, rfl, rfl, rfl⟩) id
    exact hspared.module

theorem added (h : l.Reflects w) (e : Entry) :
    ({ l with graph := (l.graph.add e).1 } : Loader).Reflects w := by
  have hspares : Spares (fun _ => False) l { l with graph := (l.graph.add e).1 } := Spares.seeks.added l e
  have hspared := hspares h.toConsistent
  refine h.of_slots hspared.consistent (h.sees.elsewhere ⟨rfl, rfl, rfl, rfl, rfl⟩) rfl rfl hspared.size ?_
    (fun hk => .inl ⟨_, hk⟩) fun hb => .inl hb
  intro id hid _
  exact congrArg Entry.module (Graph.entry_add_of_lt _ _ hid)

theorem packaged (h : l.Reflects w) (hf : file.Canonical) : (l.packaged file).Reflects w :=
  h.of_graph (Tidy.packaged l file) (h.sees.packaged hf).2 rfl rfl rfl

theorem classified (h : l.Reflects w) (key : String) (fixed : Option Format) (unexposed : Bool) :
    (l.classified key fixed unexposed).2.Reflects w := by
  have hspares : Spares (fun _ => False) l (l.classified key fixed unexposed).2 :=
    Spares.classified key fixed unexposed
  have hspared := hspares h.toConsistent
  have hslot := slot?_classified h.exclusive key fixed unexposed
  obtain ⟨cache, events, heq, hbuiltins, hparsing, -⟩ := l.classified_frame key fixed unexposed
  rw [heq] at hspared hslot ⊢
  refine h.of_slots hspared.consistent (h.sees.elsewhere ⟨rfl, rfl, rfl, rfl, rfl⟩) rfl hparsing
    (Nat.le_refl _) (fun _ _ => rfl) (fun {k p s} hk => .inl ?_) fun hb => .inl (hbuiltins ▸ hb)
  have hsame := hslot k
  rw [hk, Option.map_some] at hsame
  obtain ⟨⟨p', s'⟩, hk', rfl⟩ := Option.map_eq_some_iff.mp hsame.symm
  exact ⟨p', hk'⟩

/-- The entry of a builtin module exports what the module exports. -/
theorem builtinOf (h : l.Reflects w) (name : String) : (l.builtinOf name).2.Reflects w ∧
    ((l.builtinOf name).2.graph.entry (l.builtinOf name).1).module.exports = w.builtin name := by
  have hspares : Spares (fun _ => False) l (l.builtinOf name).2 := Spares.builtinOf l name
  have hspared := hspares h.toConsistent
  unfold Loader.builtinOf at hspared ⊢
  cases hb : l.cache.builtins.get? name with
  | some id => exact ⟨h, (h.builtin hb).exports⟩
  | none =>
    rw [hb] at hspared
    dsimp only at hspared ⊢
    have hself := Graph.entry_add_self l.graph (l.builtinEntry name)
    have hexports : (l.builtinEntry name).module.exports = w.builtin name := by
      unfold builtinEntry World.builtin
      rw [h.sees.builtinExports]
      rfl
    refine ⟨?_, (congrArg (·.module.exports) hself).trans hexports⟩
    refine h.of_slots hspared.consistent (h.sees.elsewhere ⟨rfl, rfl, rfl, rfl, rfl⟩) rfl rfl hspared.size
      (fun hid _ => congrArg Entry.module (Graph.entry_add_of_lt _ _ hid)) (fun {key p s} hk => .inl ⟨p, ?_⟩) ?_
    · exact (Cache.slot?_congr fun p => by cases p <;> rfl).trans hk
    · intro name' id hget
      change (l.cache.builtins.insert name l.graph.size).get? name' = some id at hget
      rw [Table.get?_insert] at hget
      split at hget
      · next hname =>
        cases hget
        refine .inr ⟨Nat.lt_of_lt_of_eq (Nat.lt_succ_self _) (Graph.size_add _ _).symm, ?_, ?_⟩
        · exact congrArg Entry.isLoaded hself
        · exact ((congrArg (·.module.exports) hself).trans hexports).trans (congrArg w.builtin hname)
      · exact .inl hget

/-- A slot that is met tells the outcome; where there is none, an entry is made. -/
theorem met (h : l.Reflects w) (request : String) (referrer : Option Referrer) (isMain : Bool)
    {target : Target} (hkey : keyFile target.key = file) (hacyclic : w.Acyclic file)
    (habove : ∀ key p id, l.InProgress key p id → TransGen w.Asks (keyFile key) file) :
    match l.met request referrer isMain target with
    | (.error e, l') => l'.Reflects w ∧ w.outcome file hacyclic = .error e
    | (.ok (.found id), l') =>
      l'.Reflects w ∧ w.outcome file hacyclic = .ok (l'.graph.entry id).module.exports
    | (.ok (.needs job), l') => l'.Reflects w ∧ job.target = target ∧
      l'.graph.entry job.id = newEntry job.referrer target := by
  subst hkey
  have hnoted : (l.noted [.enters target.key .classifying]).Reflects w := h.noted _
  have hclassified := hnoted.classified target.key target.fixed target.package.isUnexposed
  unfold Loader.met
  unfold Loader.classified at hclassified ⊢
  cases hslot : (l.noted [.enters target.key .classifying]).cache.slot? target.key with
  | none =>
    rw [hslot] at hclassified
    dsimp only [found]
    exact ⟨hclassified.added _, rfl, Graph.entry_add_self _ _⟩
  | some found =>
    obtain ⟨p, s⟩ := found
    rw [hslot] at hclassified
    have htells := hnoted.slot hslot
    cases s with
    | poisoned e => exact ⟨hclassified, htells hacyclic⟩
    | loading id =>
      -- the file would ask for itself
      exact absurd (habove _ _ _ hslot) (hacyclic _ .refl)
    | ready id =>
      have hparsing := hnoted.parsing
      obtain ⟨hloaded, houtcome⟩ := htells
      dsimp only at hclassified ⊢
      rw [hparsing, if_neg Bool.false_ne_true] at hclassified ⊢
      dsimp only at hclassified ⊢
      rw [hloaded, if_pos rfl]
      dsimp only [Loader.found]
      refine ⟨(hclassified.noted _).linked _ _ _, ?_⟩
      rw [houtcome hacyclic, module_linked]
      split <;> rfl

end Reflects

/-- A module is to be compiled into an entry that was just made for its file. -/
structure Begins (w : World) (file : Path) (job : Job) (l : Loader) : Prop extends Ready l job where
  canonical : file.Canonical
  keyFile : keyFile job.target.key = file
  target : job.target = ⟨file, job.target.key, w.package file, Format.ofPath? file⟩
  entry : l.graph.entry job.id = newEntry job.referrer job.target

/-- What a request leads to. -/
def Sought (w : World) (outcome : Except LoadError Value) :
    Except LoadError Finding × Loader → Prop
  | (.error e, l') => l'.Reflects w ∧ outcome = .error e
  | (.ok (.found id), l') => l'.Reflects w ∧ outcome = .ok (l'.graph.entry id).module.exports
  | (.ok (.needs job), l') => l'.Reflects w ∧ ∃ file h, outcome = w.outcome file h ∧
    l'.Begins w file job ∧ ∀ key p id, l'.InProgress key p id → TransGen w.Asks (keyFile key) file

/-- Seeking finds the outcome of a request, or a module that it has to be taken from. -/
theorem Reflects.seek (h : l.Reflects w) (hfs : FileSystem.Proper w.files.workingDirectory)
    {outcome : Path → Except LoadError Value}
    (hout : ∀ file, l.resolved request parent isMain = .ok (.file file) → ∃ ha : w.Acyclic file,
      outcome file = w.outcome file ha ∧
        ∀ key p id, l.InProgress key p id → TransGen w.Asks (keyFile key) file) :
    Sought w (l.resolved request parent isMain >>= w.answer outcome)
      (l.run (Loader.seek request parent isMain)) := by
  have hseek : Spares (fun _ => False) l _ := Spares.seek request parent isMain l
  have hspared := hseek h.toConsistent
  have hready : ∀ job l', l.run (Loader.seek request parent isMain) = (.ok (.needs job), l') →
      l'.Ready job := fun _ _ => ready_of_seek h.toConsistent
  rw [h.toOrderly.run_seek] at hspared hready ⊢
  dsimp only at hspared hready ⊢
  have hretried : (l.retried request parent isMain).Reflects w := h.noted _
  cases hfound : l.resolved request parent isMain with
  | error e => exact ⟨hretried, rfl⟩
  | ok found =>
    rw [hfound] at hspared hready
    cases found with
    | builtin name =>
      obtain ⟨hbuiltin, hexports⟩ := hretried.builtinOf name
      refine ⟨hbuiltin.linked _ _ _, ?_⟩
      rw [module_linked, hexports]
      rfl
    | file file =>
      obtain ⟨hacyclic, houtcome, habove⟩ := hout file hfound
      obtain ⟨q, hq⟩ := resolve_of_resolution hfound
      have hcanonical : file.Canonical := Resolver.canonical_of_resolve (h.sees.files ▸ hfs) hq
      have hkey : keyFile (l.target request file).key = file :=
        keyFile_cacheKey (Resolver.unmarked_of_resolve hq h.unmarked.names) request
      have hmet := (hretried.packaged hcanonical).met request (l.referrer? parent) isMain hkey hacyclic habove
      have hresult : (Except.ok (.file file) : Except LoadError Resolution) >>= w.answer outcome
          = w.outcome file hacyclic := houtcome
      rw [hresult]
      dsimp only at hspared hready ⊢
      generalize Loader.met _ request (l.referrer? parent) isMain (l.target request file) = r
        at hspared hready hmet ⊢
      obtain ⟨e | found, l'⟩ := r
      · exact hmet
      · cases found with
        | found id => exact hmet
        | needs job =>
          obtain ⟨hreflects, htarget, hentry⟩ := hmet
          refine ⟨hreflects, file, hacyclic, rfl, { hready job l' rfl with
            canonical := hcanonical
            keyFile := htarget ▸ hkey
            target := ?_
            entry := htarget ▸ hentry }, fun key p id hp => habove key p id ((hspared.progress _ _ _).mp hp)⟩
          rw [htarget, ← (h.sees.packaged hcanonical).1]
          rfl

/-! ## Compiling -/

theorem Reflects.occupied (h : l.Reflects w) (hr : l.Ready job) : (l.occupied job).Reflects w := by
  have hsame : (l.occupied job).compilers = l.compilers ∧
      (l.occupied job).cache.parsing = l.cache.parsing ∧
      (l.occupied job).cache.builtins = l.cache.builtins := by
    unfold Loader.occupied
    split <;> simp
  refine h.of_slots (hr.consistent_occupied h.toConsistent) (h.sees.elsewhere (.occupied l job)) hsame.1 hsame.2.1
    (Nat.le_of_eq (size_occupied l job).symm) (fun {id} _ hloaded => ?_) (fun {key p s} hk => ?_)
    fun hb => .inl (hsame.2.2 ▸ hb)
  · have hne : id ≠ job.id := by
      rintro rfl
      rw [hr.unloaded] at hloaded
      cases hloaded
    rw [(entry_occupied l job id).2.2 hne]
  · rw [hr.slot?_occupied] at hk
    split at hk
    · cases hk
      exact .inr trivial
    · exact .inl ⟨p, hk⟩

/-- The first preparation of an entry sets its file and its search paths. -/
theorem entry_begun {id : EntryId} (hid : id < l.graph.size) (hpaths : (l.graph.entry id).module.paths = [])
    (filename : Path) :
    let e := l.graph.entry id
    (l.begun id filename).graph.entry id = { e with module := { e.module with
      filename := filename
      paths := searchPaths l.resolver e.package e.format filename } } := by
  have hempty : (l.graph.entry id).module.paths.isEmpty = true := by rw [hpaths]; rfl
  unfold begun
  dsimp only
  rw [if_pos hempty, Graph.entry_update_self _ _ (by rwa [Graph.size_update]), Graph.entry_update_self _ _ hid]
  rfl

theorem Reflects.begun (h : l.Reflects w) {id : EntryId} (hid : (l.graph.entry id).isLoaded = false)
    (filename : Path) : (l.begun id filename).Reflects w := by
  have hcompiles : Compiles id (Spares (· = id)) := Spares.compiles rfl
  have hspared := hcompiles.beginCompile filename l h.toConsistent
  rw [run_beginCompile] at hspared
  refine h.of_slots hspared.consistent (h.sees.elsewhere ⟨rfl, rfl, rfl, rfl, rfl⟩) rfl rfl hspared.size
    (fun {id'} hlt hloaded => ?_) (fun hk => .inl ⟨_, hk⟩) fun hb => .inl hb
  have hne : id' ≠ id := by
    rintro rfl
    rw [hid] at hloaded
    cases hloaded
  exact (hspared.entry ⟨hlt, .inl hloaded⟩ hne).module

namespace Begins

theorem filename (h : l.Begins w file job) : job.target.filename = file :=
  congrArg Target.filename h.target

/-- Marking the slot changes at most the name in the new entry. -/
theorem entry_occupied (h : l.Begins w file job) : ∃ name, (l.occupied job).graph.entry job.id =
    let e := newEntry job.referrer ⟨file, job.target.key, w.package file, Format.ofPath? file⟩
    { e with module := { e.module with id := name } } := by
  rw [← h.target, ← h.entry]
  unfold Loader.occupied
  split
  · exact ⟨_, Graph.entry_update_self _ _ h.inRange⟩
  · exact ⟨_, rfl⟩

/-- The module of a file begins to run without exports. -/
theorem runs (h : l.Begins w file job) (hl : l.Reflects w)
    (habove : ∀ key p id, l.InProgress key p id → TransGen w.Asks (ModGraph.keyFile key) file) :
    ((l.occupied job).begun job.id file).Runs w file job.id ((Format.ofPath? file).getD .legacy)
      (.object []) := by
  obtain ⟨name, hentry⟩ := h.entry_occupied
  have hreflects := hl.occupied h.toReady
  have hin : (l.occupied job).InProgress job.target.key job.partition job.id :=
    (h.slot?_occupied _).trans (if_pos rfl)
  have hbegun := entry_begun (l := l.occupied job) (by rw [size_occupied]; exact h.inRange)
    (by rw [hentry]; rfl) file
  dsimp only at hbegun
  rw [hentry, hreflects.sees.resolver] at hbegun
  refine { hreflects.begun (hreflects.unfinished hin) file with
    running := ⟨_, _, hin⟩
    referrer := ?_
    exports := congrArg (·.module.exports) hbegun
    above := fun {key p id'} hp => ?_ }
  · unfold referrer?
    rw [Option.map_some, hbegun]
    rfl
  · have hp' : (l.occupied job).cache.slot? key = some (p, .loading id') := hp
    rw [h.slot?_occupied] at hp'
    split at hp'
    · next hk => rw [← hk, h.keyFile]
    · exact (habove _ _ _ hp').to_reflTransGen

theorem compilation (h : l.Begins w file job) (hl : l.Reflects w) :
    (l.occupied job).compilation job.id file = ⟨(Format.ofPath? file).getD .legacy, false,
      (CompilerTable.standard.forPath file).task ⟨file, (w.package file).options.mode, false⟩⟩ := by
  obtain ⟨name, hentry⟩ := h.entry_occupied
  have hreflects := hl.occupied h.toReady
  unfold Loader.compilation
  rw [hreflects.compilers, hreflects.parsing, hentry]
  rfl

/-- What is left of a failed compilation tells the outcome. -/
theorem vacated (h : l.Begins w file job) (hr : l'.Reflects w)
    (hin : l'.InProgress job.target.key job.partition job.id) {e : LoadError}
    (hc : (l'.vacated job e).Consistent) (hacyclic : w.Acyclic file)
    (he : w.outcome file hacyclic = .error e) : (l'.vacated job e).Reflects w := by
  obtain rfl := h.keyFile
  have hslot := (slot?_vacated hr.toOrderly hin e).2
  have hsame : (l'.vacated job e).compilers = l'.compilers ∧
      (l'.vacated job e).cache.parsing = l'.cache.parsing ∧
      (l'.vacated job e).cache.builtins = l'.cache.builtins ∧ (l'.vacated job e).graph = l'.graph := by
    unfold Loader.vacated
    split <;> simp [Cache.poison, Cache.rollback]
  refine hr.of_slots hc (hr.sees.elsewhere (.vacated l' job e)) hsame.1 hsame.2.1 (by rw [hsame.2.2.2])
    (fun _ _ => by rw [hsame.2.2.2]) (fun {key p s} hk => ?_) fun hb => .inl (hsame.2.2.1 ▸ hb)
  rw [hslot] at hk
  split at hk
  · next heq =>
    subst heq
    split at hk
    · cases hk
      exact .inr fun _ => he
    · cases hk
  · exact .inl ⟨p, hk⟩

/-- What is left of a compilation that succeeded tells the outcome. -/
theorem concluded (h : l.Begins w file job) {format : Format} {v : Value}
    (hr : l'.Runs w file job.id format v) (hin : l'.InProgress job.target.key job.partition job.id)
    {c : Compilation} (hparsing : c.parsing = false)
    (hc : ((l'.marked job.id file c).concluded job).Consistent) (hacyclic : w.Acyclic file)
    (hv : w.outcome file hacyclic = .ok v) :
    ((l'.marked job.id file c).concluded job).Reflects w ∧
      (((l'.marked job.id file c).concluded job).graph.entry job.id).module.exports = v := by
  obtain rfl := h.keyFile
  have ho : (l'.marked job.id (ModGraph.keyFile job.target.key) c).Orderly :=
    ⟨hr.exclusive, hr.unmarked.of_eq rfl rfl⟩
  have hspared := entry_concluded (l'.marked job.id (ModGraph.keyFile job.target.key) c) job
  have hevolves := (evolves_marked l' job.id (ModGraph.keyFile job.target.key) c).trans (evolves_concluded hin)
  have hslot := (slot?_concluded ho hin).2
  have hmarked : (l'.marked job.id (ModGraph.keyFile job.target.key) c).Sees w :=
    hr.sees.elsewhere ⟨rfl, rfl, rfl, rfl, rfl⟩
  have hexports : (((l'.marked job.id (ModGraph.keyFile job.target.key) c).concluded job).graph.entry
      job.id).module.exports = v := by
    rw [(hspared job.id).module, exports_marked]
    exact hr.exports
  refine ⟨hr.of_slots hc (hmarked.elsewhere (.concluded _ job)) hevolves.compilers hevolves.cache.parsing
    hevolves.graph.size (fun {id} hid hloaded => ?_) (fun {key p s} hk => ?_) fun hb => .inl ?_, hexports⟩
  · have hne : id ≠ job.id := by
      rintro rfl
      rw [hr.unloaded] at hloaded
      cases hloaded
    rw [(hspared id).module, entry_marked _ _ _ hne]
  · rw [hslot] at hk
    split at hk
    · next heq =>
      subst heq
      cases hk
      have hlt : job.id < l'.graph.size := (hr.keyed hin rfl).1
      refine .inr ⟨?_, fun _ => hexports ▸ hv⟩
      rw [(hspared job.id).isLoaded]
      exact isLoaded_marked _ _ hlt hparsing
    · exact .inl ⟨p, hk⟩
  · rw [builtins_concluded] at hb
    exact hb

/-- The outcome of a file is told by the slot that its module leaves. -/
theorem perform (h : l.Begins w file job) (hl : l.Reflects w)
    (habove : ∀ key p id, l.InProgress key p id → TransGen w.Asks (ModGraph.keyFile key) file)
    {nested : NestedLoad} (hacyclic : w.Acyclic file)
    (hn : Serves w (w.childOutcome hacyclic) file nested) :
    Agrees w l (Loader.perform nested job) (w.outcome file hacyclic) fun id v l' =>
      l'.Reflects w ∧ (l'.graph.entry id).module.exports = v := by
  have hspared := Spares.perform hn.tidy hn.spares hl.toConsistent h.toReady
  have hprepare := Spares.prepare hn.spares job.id job.target.filename (l.occupied job)
    (h.consistent_occupied hl.toConsistent)
  have hevaluate : Agrees w ((l.occupied job).begun job.id file)
      (runTask nested job.id file
        ((CompilerTable.standard.forPath file).task ⟨file, (w.package file).options.mode, false⟩))
      (w.evaluate (w.childOutcome hacyclic) file) (Leaves w file job.id) :=
    (h.runs hl habove).compile rfl h.canonical hn rfl rfl rfl
  rw [← World.outcome_eq] at hevaluate
  unfold Agrees at hevaluate ⊢
  rw [Spares.run_perform hn.spares hl.toConsistent h.toReady, h.filename] at hspared ⊢
  rw [h.filename] at hprepare
  rw [run_prepare, h.compilation hl] at hspared hprepare ⊢
  dsimp only at hspared hprepare ⊢
  generalize Loader.run _ (runTask nested job.id file _) = r at hspared hprepare hevaluate ⊢
  obtain ⟨e | _, l₂⟩ := r
  all_goals
    have hin : l₂.InProgress job.target.key job.partition job.id :=
      (hprepare.progress _ _ _).mpr ((h.slot?_occupied _).trans (if_pos rfl))
  · rcases hevaluate with hdeep | ⟨hl₂, hout⟩
    · exact .inl hdeep
    · exact .inr ⟨h.vacated hl₂ hin hspared.consistent hacyclic hout, hout⟩
  · obtain ⟨v, hv, format, hruns⟩ := hevaluate
    exact ⟨v, hv, h.concluded hruns hin rfl hspared.consistent hacyclic hv⟩

end Begins

/-! ## Answering -/

/-- A request is answered with what it comes to. -/
theorem Reflects.answer (h : l.Reflects w) (hfs : FileSystem.Proper w.files.workingDirectory)
    {nested : NestedLoad}
    (hn : ∀ file (hacyclic : w.Acyclic file), Serves w (w.childOutcome hacyclic) file nested)
    {outcome : Path → Except LoadError Value}
    (hout : ∀ file, l.resolved request parent isMain = .ok (.file file) → ∃ ha : w.Acyclic file,
      outcome file = w.outcome file ha ∧
        ∀ key p id, l.InProgress key p id → TransGen w.Asks (keyFile key) file) :
    Agrees w l (Loader.answer nested request parent isMain)
      (l.resolved request parent isMain >>= w.answer outcome) fun id v l' =>
        l'.Reflects w ∧ (l'.graph.entry id).module.exports = v := by
  have hseek := h.seek hfs hout
  unfold Agrees Loader.answer
  rw [run_bind]
  generalize l.run (Loader.seek request parent isMain) = r at hseek ⊢
  obtain ⟨e | found, l'⟩ := r
  · exact .inr hseek
  · cases found with
    | found id => exact ⟨_, hseek.2, hseek.1, rfl⟩
    | needs job =>
      obtain ⟨hl', file, hacyclic, houtcome, hbegins, habove⟩ := hseek
      rw [houtcome]
      exact hbegins.perform hl' habove hacyclic (hn file hacyclic)

/-- Reports do not matter. -/
theorem Agrees.reported {action : LoadM EntryId} {outcome : Except LoadError Value}
    (h : Agrees w (l.noted [.enters request .resolving]) action outcome fun id v l' =>
      l'.Reflects w ∧ (l'.graph.entry id).module.exports = v) :
    Agrees w l (Loader.reported request action) outcome fun id v l' =>
      l'.Reflects w ∧ (l'.graph.entry id).module.exports = v := by
  unfold Agrees at h ⊢
  rw [run_reported]
  generalize (l.noted [.enters request .resolving]).run action = r at h ⊢
  obtain ⟨e | id, l'⟩ := r
  · rcases h with hdeep | ⟨hl', hout⟩
    · exact .inl hdeep
    · exact .inr ⟨hl'.noted _, hout⟩
  · obtain ⟨v, hv, hl', hexports⟩ := h
    exact ⟨v, hv, hl'.noted _, hexports⟩

/-- Nested loads give what the requests of a file come to, if the limit lets them. -/
theorem serves_loadNested (hfs : FileSystem.Proper w.files.workingDirectory) (limit : Nat) (file : Path)
    (hacyclic : w.Acyclic file) : Serves w (w.childOutcome hacyclic) file (loadNested limit) := by
  induction limit generalizing file with
  | zero =>
    refine ⟨Tidy.loadNested 0, Spares.loadNested 0, fun _ _ => .inl rfl⟩
  | succ limit ih =>
    refine ⟨Tidy.loadNested _, Spares.loadNested _, fun {l id format x request} hl hasks => ?_⟩
    have hresolved : (l.noted [.enters request .resolving]).resolved request (some id) false
        = w.resolve file format request := by
      rw [← World.resolution_referrer w id file format request, ← hl.referrer, ← hl.sees.resolver,
        ← hl.sees.files]
      rfl
    refine Agrees.reported ?_
    unfold World.ask
    rw [← hresolved]
    refine (hl.toReflects.noted _).answer hfs ih fun child hchild => ?_
    have ha := hasks child (hresolved ▸ hchild)
    refine ⟨hacyclic.of_asks ha, dif_pos ha, fun key p id' hp => ?_⟩
    exact .tail' (hl.above hp) ha

/-! ## Between calls -/

/-- What a load gives: the exports of an entry, or an error. -/
def exportsOf (r : Except LoadError EntryId × Loader) : Except LoadError Value :=
  r.1.map fun id => (r.2.graph.entry id).module.exports

/-- A load gives what its request comes to, and slots tell outcomes afterwards too. -/
theorem Reflects.load (h : l.Reflects w) (hsteady : l.Steady) (hidle : ∀ key p id, ¬ l.InProgress key p id)
    (hfs : FileSystem.Proper w.files.workingDirectory) {outcome : Path → Except LoadError Value}
    (hout : ∀ file, l.resolved request parent isMain = .ok (.file file) →
      ∃ ha : w.Acyclic file, outcome file = w.outcome file ha) :
    let r := l.run (Loader.load request parent isMain)
    r.2.Reflects w ∧ exportsOf r = l.resolved request parent isMain >>= w.answer outcome := by
  have hdeep := (hsteady.loadWithin request parent isMain (Nat.le_refl _)).2
  have hnoted : (l.noted [.enters request .resolving]).Reflects w := h.noted _
  have hnone : ∀ file, (l.noted [.enters request .resolving]).resolved request parent isMain
      = .ok (.file file) → ∃ ha : w.Acyclic file, outcome file = w.outcome file ha ∧
        ∀ key p id, l.InProgress key p id → TransGen w.Asks (keyFile key) file := by
    intro file hfile
    obtain ⟨ha, heq⟩ := hout file hfile
    exact ⟨ha, heq, fun key p id hp => absurd hp (hidle key p id)⟩
  have hagrees := (hnoted.answer hfs (serves_loadNested hfs (l.nestingBound request)) hnone).reported
  unfold Agrees at hagrees
  dsimp only at hdeep ⊢
  rw [run_load]
  unfold loadWithin at hdeep ⊢
  generalize l.run (Loader.reported request _) = r at hagrees hdeep ⊢
  obtain ⟨e | id, l'⟩ := r
  · rcases hagrees with hlimit | ⟨hl', hout⟩
    · exact absurd ⟨e, rfl, hlimit⟩ hdeep
    · exact ⟨hl', hout.symm⟩
  · obtain ⟨v, hv, hl', hexports⟩ := hagrees
    exact ⟨hl', (congrArg Except.ok hexports).trans hv.symm⟩

/-- A loader at the start, with the compilers that come with it as they are and without a code cache, that
reads nothing but the files there are. Its working directory has the names that directories can have. -/
structure Pristine (l : Loader) : Prop extends Starts l where
  compilers : l.compilers = .standard
  codeCache : l.codeCache? = none
  faithful : l.Faithful
  proper : FileSystem.Proper l.files.workingDirectory

theorem Pristine.plain (h : l.Pristine) : l.Plain :=
  { h.toStarts with
    shipped := h.compilers ▸ CompilerTable.shipped_standard
    codeCache := h.codeCache
    faithful := h.faithful }

/-- A loader that was set up without a folder for its code cache is as it should be before anything is loaded. -/
theorem pristine_ofConfig {c : Config} {fs : FileSystem} (hcache : (ofConfig c fs).codeCache? = none)
    (hnames : fs.Unmarked) (hproper : FileSystem.Proper fs.workingDirectory) : (ofConfig c fs).Pristine where
  fresh := fresh_ofConfig _ _
  unmarked := ⟨hnames, fun hc => by
    rw [hcache] at hc
    cases hc⟩
  compilers := rfl
  codeCache := hcache
  faithful := fun _ _ _ h => h
  proper := hproper

theorem proper_app : FileSystem.Proper ["app"] := by
  intro name hname
  obtain rfl := List.mem_singleton.mp hname
  exact Path.isStep_name.mpr (by decide)

end Loader
end ModGraph
