import ModGraph.Proofs.Lasting

/-!
# Failures

Where an error arises there is a stack of modules in progress (`Moment.Raises`). On the way out the error
stays the same, and each of these modules gives up its slot: one in a committed partition is poisoned with
the error, and one in discovery is dropped. Nothing else is poisoned, as the loads that were over by then
had succeeded (`Loader.Intact`). `Loader.failure_of_reachable` says so of whole calls.
-/

namespace ModGraph

open Relation (ReflTransGen)

namespace Moment

open Loader

variable {m m' : Moment} {e : LoadError} {job : Job} {t : Task} {l l' l₂ : Loader} {stack : List Job}

/-! ## Where an error arises -/

/-- An error arises at a moment while some modules are in progress: when the request is looked for, or at
an instruction of the module that it leads to, unless that asks for another module. -/
inductive Raises (m : Moment) (e : LoadError) : List Job → Prop where
  | seeking {l : Loader}
      (h : m.loader.run (do
          Loader.report (.enters m.request .resolving)
          Loader.seek m.request m.parent m.isMain) = (.error e, l)) :
      Raises m e m.stack
  | compiling {job : Job} {t : Task} {l l' : Loader} (hc : m.Compiling job t l)
      (hown : ∀ request next, t = .require request next → m.limit = 0)
      (h : l.run (stepTask (loadNested m.limit) job.id job.target.filename t) = (.error e, l')) :
      Raises m e (job :: m.stack)

/-! ## On the way out -/

/-- What is done at a moment: what is looked for is found or compiled, and the outcome is reported. -/
theorem run_action (m : Moment) : m.loader.run m.action =
    match m.loader.run (do
        Loader.report (.enters m.request .resolving)
        Loader.seek m.request m.parent m.isMain) with
    | (.error e, l) => (.error e, l.noted [.fails m.request e])
    | (.ok (.found id), l) => (.ok id, l.noted [.enters m.request .done])
    | (.ok (.needs job), l) =>
      match l.run (perform (loadNested m.limit) job) with
      | (.error e, l) => (.error e, l.noted [.fails m.request e])
      | (.ok id, l) => (.ok id, l.noted [.enters m.request .done]) := by
  rw [run_seeking, action, run_reported]
  unfold answer
  rw [run_bind]
  generalize (m.loader.noted [.enters m.request .resolving]).run (seek m.request m.parent m.isMain) = r
  obtain ⟨e | found, l⟩ := r
  · rfl
  · cases found <;> rfl

/-- A module that fails at an instruction gives up its slot, and the request fails with the same error. -/
theorem run_action_of_failing_step (hc : m.loader.Consistent) (hm : m.Compiling job t l)
    (h : l.run (stepTask (loadNested m.limit) job.id job.target.filename t) = (.error e, l₂)) :
    m.loader.run m.action = (.error e, (l₂.vacated job e).noted [.fails m.request e]) := by
  obtain ⟨l₁, hseek, htask⟩ := hm.ran
  obtain ⟨hc₁, hdue⟩ := Loads.due_of_seek hc hseek
  have hfailed : l.run (runTask (loadNested m.limit) job.id job.target.filename t) = (.error e, l₂) := by
    rw [runTask_eq, run_bind, h]
    rfl
  have htasked := (run_runTask_of_taskSteps htask).trans hfailed
  dsimp only at htasked
  rw [run_action, hseek]
  dsimp only
  rw [Spares.run_perform (Spares.loadNested m.limit) hc₁ hdue.ready, run_prepare, htasked]
  rfl

/-- A module that is compiled is in progress. -/
theorem Compiling.inProgress (hc : m.loader.Consistent) (hm : m.Compiling job t l) :
    l.Consistent ∧ l.InProgress job.target.key job.partition job.id := by
  obtain ⟨_, -, -, hdue, hspared, -⟩ := Intact.loads.compiling hc hm
  exact ⟨hspared.consistent,
    (hspared.progress _ _ _).mpr ((hdue.ready.slot?_occupied _).trans (if_pos rfl))⟩

/-- A module that asks for another one fails where that one does. -/
theorem stepTask_require {limit : Nat} {request : String} {next : Dependency → Task} (hlimit : m.limit = limit + 1) :
    l.run (stepTask (loadNested m.limit) job.id job.target.filename (.require request next)) = (.error e, l') ↔
      let m' : Moment := ⟨limit, request, some job.id, false, job :: m.stack, l⟩
      m'.loader.run m'.action = (.error e, l') := by
  have hnested : ∀ {r : Except LoadError EntryId × Loader},
      andThen r (fun child => dependency child >>= fun d => pure (some (next d))) = (.error e, l') ↔
        r = (.error e, l') := by
    rintro ⟨e' | id, l₁⟩
    · exact ⟨fun h => (by cases h; rfl), fun h => (by cases h; rfl)⟩
    · exact ⟨fun h => (by cases h), fun h => (by cases h)⟩
  rw [stepTask, run_bind, hlimit]
  exact hnested

/-- A request that fails does so where its error arises, here or at a later moment. -/
theorem exists_raises (hc : m.loader.Consistent) (h : m.loader.run m.action = (.error e, l')) :
    ∃ m' stack, ReflTransGen Asks m m' ∧ m'.Raises e stack := by
  induction hn : m.limit using Nat.strong_induction_on generalizing m l' with
  | _ n ih =>
    rw [run_action] at h
    generalize hseek : m.loader.run _ = r at h
    obtain ⟨e' | found, l₁⟩ := r
    · cases h
      exact ⟨m, m.stack, .refl, .seeking hseek⟩
    cases found with
    | found id => cases h
    | needs job =>
      obtain ⟨hc₁, hdue⟩ := Loads.due_of_seek hc hseek
      dsimp only at h
      rw [Spares.run_perform (Spares.loadNested m.limit) hc₁ hdue.ready, run_prepare] at h
      generalize htask : ((l₁.occupied job).begun job.id job.target.filename).run _ = r at h
      obtain ⟨e' | _, l₂⟩ := r
      · cases h
        obtain ⟨b, hb, hfail⟩ := exists_failing_step htask
        have hm : m.Compiling job b.1 b.2 := .intro hseek (run_occupy _ _) (run_beginCompile _ _ _) hb
        by_cases hasked : ∃ request next, b.1 = .require request next ∧ m.limit ≠ 0
        · -- the module asks for another one, and that one fails
          obtain ⟨request, next, hrequire, hpos⟩ := hasked
          obtain ⟨limit, hlimit⟩ := Nat.exists_eq_succ_of_ne_zero hpos
          rw [hrequire] at hm hfail
          have hasks : m.Asks ⟨limit, request, some job.id, false, job :: m.stack, b.2⟩ :=
            asks_iff.mpr ⟨limit, job, request, next, b.2, hlimit, hm, rfl⟩
          obtain ⟨m', stack, hreach, hraises⟩ := ih limit (by omega) (hm.inProgress hc).1
            ((stepTask_require hlimit).mp hfail) rfl
          exact ⟨m', stack, .head hasks hreach, hraises⟩
        · have hown : ∀ request next, b.1 = .require request next → m.limit = 0 := fun request next hr =>
            by_contra fun hpos => hasked ⟨request, next, hr, hpos⟩
          exact ⟨m, job :: m.stack, .refl, .compiling hm hown hfail⟩
      · simp only [andThen_ok, run_pure] at h
        cases h

/-! ## What is left behind -/

/-- A module gave up its slot: it is poisoned in a committed partition, and gone from discovery. -/
def GivenUp (e : LoadError) (l : Loader) (job : Job) : Prop :=
  l.cache.slot? job.target.key =
    if job.partition.isCommitted then some (job.partition, .poisoned e) else none

/-- Slots were poisoned with one error only. -/
def Blames (e : LoadError) (l l' : Loader) : Prop :=
  ∀ key p e', l'.cache.slot? key = some (p, .poisoned e') →
    l.cache.slot? key = some (p, .poisoned e') ∨ e' = e

/-- A request failed with an error, and the modules that were in progress because of it gave up. -/
structure Unwound (m : Moment) (e : LoadError) (stack : List Job) (l' : Loader) : Prop where
  run : m.loader.run m.action = (.error e, l')
  blames : Blames e m.loader l'
  given : ∃ jobs, stack = jobs ++ m.stack ∧ ∀ job ∈ jobs, GivenUp e l' job

/-- Up to an instruction of a module no slot was poisoned. -/
theorem Compiling.spotless (hc : m.loader.Consistent) (hp : m.loader.Provisional)
    (hm : m.Compiling job t l) : l.Provisional ∧ Spotless m.loader l := by
  obtain ⟨l₁, hsought, -, hdue, -, hran⟩ := Intact.loads.compiling hc hm
  obtain ⟨hk₁, hs₁⟩ := hsought hc.toOrderly hp
  obtain ⟨hk, hs⟩ := hran (hdue.ready.orderly_occupied hk₁.orderly) (hdue.provisional_occupied hk₁.provisional)
  refine ⟨hk.provisional, fun key p e hslot => hs₁ _ _ _ ?_⟩
  have hocc := hs _ _ _ hslot
  rw [hdue.ready.slot?_occupied] at hocc
  split at hocc
  · cases hocc
  · exact hocc

/-- A module whose instruction fails gives up its slot, and leaves the slots that others gave up alone. -/
theorem Compiling.unwound (hc : m.loader.Consistent) (hp : m.loader.Provisional)
    (hm : m.Compiling job t l) {jobs : List Job}
    (h : l.run (stepTask (loadNested m.limit) job.id job.target.filename t) = (.error e, l₂))
    (hb : Blames e l l₂) (hjobs : ∀ job ∈ jobs, GivenUp e l₂ job) :
    ∃ l', Unwound m e (jobs ++ job :: m.stack) l' := by
  obtain ⟨hcl, hin⟩ := hm.inProgress hc
  obtain ⟨_, -, -, hdue, -⟩ := Intact.loads.compiling hc hm
  have hstep := Intact.loads.stepTask hdue.keyFile_key m.limit t l
  rw [h] at hstep
  obtain ⟨hspared₂, -⟩ := hstep hcl (by rintro _ ⟨⟩; exact hin)
  have hin₂ : l₂.InProgress job.target.key job.partition job.id := (hspared₂.progress _ _ _).mpr hin
  have hvacated := (slot?_vacated hspared₂.consistent.toOrderly hin₂ e).2
  have hspotless := (hm.spotless hc hp).2
  refine ⟨_, run_action_of_failing_step hc hm h, fun key p e' hslot => ?_, jobs ++ [job], by simp, ?_⟩
  · have hslot' := (hvacated key).symm.trans hslot
    split at hslot'
    · split at hslot'
      · cases hslot'
        exact .inr rfl
      · cases hslot'
    · exact (hb _ _ _ hslot').imp_left (hspotless _ _ _)
  · intro other hmem
    refine (hvacated other.target.key).trans ?_
    rcases List.mem_append.mp hmem with hmem | hmem
    · -- a module that gave up is not the one in progress
      have hother := hjobs other hmem
      rw [if_neg fun heq => ?_]
      · exact hother
      · rw [GivenUp, ← heq, hin₂] at hother
        split at hother <;> simp at hother
    · obtain rfl := List.mem_singleton.mp hmem
      exact if_pos rfl

/-- An error that arises goes all the way out. -/
theorem unwound_of_raises (hc : m.loader.Consistent) (hp : m.loader.Provisional)
    (hreach : ReflTransGen Asks m m') (h : m'.Raises e stack) : ∃ l', Unwound m e stack l' := by
  induction hreach using ReflTransGen.head_induction_on with
  | refl =>
    cases h with
    | @seeking l hseek =>
      have hintact : Intact m'.loader l := by
        have hnoted := Intact.loads.report (.enters m'.request .resolving) m'.loader
        have hsought := Intact.loads.seek (hc.noted [.enters m'.request .resolving]) m'.request m'.parent m'.isMain
        rw [run_seeking] at hseek
        rw [hseek] at hsought
        exact hnoted.trans hsought
      have hspotless := (hintact hc.toOrderly hp).2
      refine ⟨l.noted [.fails m'.request e], ?_, ?_, [], rfl, fun _ hmem => nomatch hmem⟩
      · rw [run_action, hseek]
      · exact fun key p e' hslot => .inl (hspotless key p e' hslot)
    | @compiling job t l l' hm hown hfail =>
      obtain ⟨hcl, hin⟩ := hm.inProgress hc
      obtain ⟨_, -, -, hdue, -⟩ := Intact.loads.compiling hc hm
      have hstep := Intact.loads.stepTask_own hdue.keyFile_key hown l
      rw [hfail] at hstep
      have hintact := (hstep hcl (by rintro _ ⟨⟩; exact hin)).2
      have hspotless := (hintact hcl.toOrderly (hm.spotless hc hp).1).2
      refine hm.unwound hc hp hfail ?_ fun _ hmem => absurd hmem List.not_mem_nil
      exact fun key p e' hslot => .inl (hspotless key p e' hslot)
  | head hasks _ ih =>
    obtain ⟨limit, job, request, next, l, hlimit, hm, rfl⟩ := asks_iff.mp hasks
    obtain ⟨l', hunwound⟩ := ih (hm.inProgress hc).1 (hm.spotless hc hp).1
    obtain ⟨jobs, rfl, hjobs⟩ := hunwound.given
    exact hm.unwound hc hp ((stepTask_require hlimit).mpr hunwound.run) hunwound.blames hjobs

end Moment

/-! ## Calls that fail -/

namespace Loader

open Moment

variable {l : Loader} {op : Operation} {e : LoadError}

/-- A load or a parse-only pass that fails. -/
inductive Fails (l : Loader) : Operation → LoadError → Prop where
  | load {request : String} {parent : Option EntryId} {isMain : Bool} {e : LoadError}
      (h : (l.run (load request parent isMain)).1 = .error e) : Fails l (.load request parent isMain) e
  | discover {request : String} {parent : Option EntryId} {e : LoadError}
      (h : (l.run (discover request parent)).1 = .error e) : Fails l (.discover request parent) e

/-- A load or a parse-only pass whose request stands for nothing. -/
inductive Unresolved (l : Loader) : Operation → Prop where
  | load {request : String} {parent : Option EntryId} {isMain : Bool} {e : LoadError}
      (h : l.resolved request parent isMain = .error e) : Unresolved l (.load request parent isMain)
  | discover {request : String} {parent : Option EntryId} {e : LoadError}
      (h : l.resolved request parent false = .error e) : Unresolved l (.discover request parent)

theorem run_load_eq (l : Loader) (request : String) (parent : Option EntryId) (isMain : Bool) :
    l.run (load request parent isMain)
      = l.run (Moment.action ⟨l.nestingBound request, request, parent, isMain, [], l⟩) := by
  unfold load
  rw [run_bind, run_get, andThen_ok]
  rfl

theorem slot?_withParsing (l : Loader) (parsing : Bool) :
    (l.withParsing parsing).cache.slot? = l.cache.slot? :=
  funext fun _ => Cache.slot?_congr fun p => by cases p <;> rfl

/-- A call that fails begins with a moment that does, and adds nothing of its own. -/
theorem Fails.beginning (h : l.Fails op e) (hl : l.Resting) :
    ∃ m, l.beginning? op = some m ∧ m.stack = [] ∧ m.loader.Consistent ∧ m.loader.Provisional ∧
      m.loader.cache.slot? = l.cache.slot? ∧
      ∃ l', m.loader.run m.action = (.error e, l') ∧ (l.after op).cache.slot? = l'.cache.slot? := by
  cases h with
  | @load request parent isMain _ h =>
    refine ⟨_, rfl, rfl, hl.toConsistent, hl.provisional, rfl, (l.run (Loader.load request parent isMain)).2, ?_, rfl⟩
    dsimp only
    rw [← run_load_eq]
    exact Prod.ext h rfl
  | @discover request parent _ h =>
    have hp : (l.withParsing true).Provisional :=
      (Intact.withParsing l true hl.toOrderly hl.provisional).1.provisional
    rw [run_discover] at h
    refine ⟨_, rfl, rfl, hl.toConsistent.withParsing true, hp, slot?_withParsing l true,
      ((l.withParsing true).run (Loader.load request parent false)).2, ?_, ?_⟩
    · dsimp only
      rw [← run_load_eq]
      exact Prod.ext h rfl
    · rw [Loader.after, run_discover]
      exact slot?_withParsing _ _

theorem Resting.orderly_after (hl : l.Resting) (h : l.Fails op e) : (l.after op).Resting :=
  hl.after (by cases h <;> trivial)

/-- A request that stands for nothing leaves no more behind than what was reported. -/
theorem Unresolved.after (h : l.Unresolved op) : ∃ events, l.after op = l.noted events := by
  have hload : ∀ {l : Loader} {request parent isMain e}, l.resolved request parent isMain = .error e →
      ∃ events, (l.run (Loader.load request parent isMain)).2 = l.noted events := by
    intro l request parent isMain e h
    have hrun := (run_load_eq l request parent isMain).trans
      (run_action ⟨l.nestingBound request, request, parent, isMain, [], l⟩)
    rw [hrun, run_seeking, run_seek_eq]
    dsimp only
    rw [show (l.noted [.enters request .resolving]).resolved request parent isMain = .error e from h]
    refine ⟨.fails request e :: (retries l.resolver l.files (splitQuery request).1 (l.referrer? parent) isMain
      ++ [.enters request .resolving]), ?_⟩
    simp [noted, retried, referrer?]
  cases h with
  | load h => exact hload h
  | @discover request parent e h =>
    obtain ⟨events, hevents⟩ := hload (show (l.withParsing true).resolved request parent false = .error e from h)
    rw [Loader.after, run_discover]
    dsimp only
    rw [hevents]
    exact ⟨events, rfl⟩

/-- What a load or a parse-only pass leaves behind when it fails with an error. Every slot that it poisoned
holds that error. The error arises somewhere, and the modules that are in progress there gave up: their
slots are poisoned with the error in committed partitions, and their keys are nowhere if they were in
discovery. Slots that were poisoned before, or that held loaded modules, are as they were; and if the
request stands for nothing, only something was reported. -/
theorem failure_of_reachable (h : Reachable Starts Regular l) (hf : l.Fails op e) :
    (∀ p key e', (l.after op).cache.get? p key = some (.poisoned e') →
      l.cache.get? p key = some (.poisoned e') ∨ e' = e) ∧
    ((∃ m stack, l.ComesTo op m ∧ m.Raises e stack) ∧
      ∀ m stack e', l.ComesTo op m → m.Raises e' stack → e' = e ∧ ∀ job ∈ stack,
        (job.partition ≠ .discovery →
          (l.after op).cache.get? job.partition job.target.key = some (.poisoned e)) ∧
        (job.partition = .discovery → ∀ p, (l.after op).cache.get? p job.target.key = none)) ∧
    (∀ p key s, l.cache.get? p key = some s →
      (s.isPoisoned = true ∨ ∃ id, s = .ready id ∧ (l.graph.entry id).isLoaded = true) →
      (l.after op).cache.get? p key = some s) ∧
    (l.Unresolved op → ∃ events, l.after op = l.noted events) := by
  have hl : l.Resting := h.resting fun _ _ hop => hop
  have hl' := hl.orderly_after hf
  obtain ⟨first, hfirst, hstack, hc, hp, hslots, l', hrun, hslots'⟩ := hf.beginning hl
  -- the course of the call is fixed, so that every error that arises is the one it fails with
  have hunwound : ∀ m stack e', l.ComesTo op m → m.Raises e' stack → first.Unwound e stack l' ∧ e' = e := by
    rintro m stack e' ⟨first', hfirst', hreach⟩ hraises
    obtain rfl : first = first' := Option.some.inj (hfirst.symm.trans hfirst')
    obtain ⟨l'', hu⟩ := unwound_of_raises hc hp hreach hraises
    obtain ⟨he, hl''⟩ := Prod.mk.inj (hrun.symm.trans hu.run)
    cases he
    exact ⟨hl'' ▸ hu, rfl⟩
  obtain ⟨m, stack, hreach, hraises⟩ := exists_raises hc hrun
  have hm : l.ComesTo op m := ⟨first, hfirst, hreach⟩
  refine ⟨fun p key e' hpoisoned => ?_, ⟨⟨m, stack, hm, hraises⟩, fun m stack e' hm hraises => ?_⟩,
    fun p key s hs hlasting => ?_, Unresolved.after⟩
  · have hslot := hl'.exclusive.slot?_eq_some.mpr hpoisoned
    rw [hslots'] at hslot
    refine ((hunwound m stack e hm hraises).1.blames key p e' hslot).imp_left fun hold => ?_
    rw [hslots] at hold
    exact Cache.get?_of_slot? hold
  · obtain ⟨hu, rfl⟩ := hunwound m stack e' hm hraises
    obtain ⟨jobs, rfl, hjobs⟩ := hu.given
    refine ⟨rfl, fun job hmem => ?_⟩
    rw [hstack, List.append_nil] at hmem
    have hgiven := hjobs job hmem
    rw [GivenUp, ← hslots'] at hgiven
    refine ⟨fun hne => ?_, fun hd => ?_⟩
    · have hcommitted : job.partition.isCommitted = true := by
        cases hq : job.partition with
        | discovery => exact absurd hq hne
        | legacy => rfl
        | declarative => rfl
      rw [if_pos hcommitted] at hgiven
      exact Cache.get?_of_slot? hgiven
    · rw [hd] at hgiven
      exact Cache.slot?_eq_none.mp hgiven
  · have hkept : Kept l (l.after op) := .after hl.toConsistent hl.provisional (by cases hf <;> trivial)
    have hslot := hl.exclusive.slot?_eq_some.mpr hs
    rcases hlasting with hpoisoned | ⟨id, rfl, hloaded⟩
    · cases s with
      | poisoned e' => exact Cache.get?_of_slot? (hkept.poisoned hslot)
      | loading id => cases hpoisoned
      | ready id => cases hpoisoned
    · exact Cache.get?_of_slot? (hkept.loaded hslot hloaded).1

/-- A directory with a module that asks for one that throws. -/
def throwingFiles : FileSystem where
  nodes := ⟨[
    (["app"], .directory),
    (["a.cjs", "app"], .file "exports.b = require(\"./b.js\")".toUTF8),
    (["b.js", "app"], .file "throw new Error(\"stop\")".toUTF8)]⟩
  workingDirectory := ["app"]

/-- A loader with nothing set, before the modules of `throwingFiles` are asked for. -/
def throwing : Loader := .ofConfig (.default ⟨none, none⟩) throwingFiles

theorem failure_throwing :
    let op : Operation := .load "./a.cjs" none true
    let e : LoadError := .compile ⟨"/app/b.js"⟩ (.thrown "stop")
    throwing.Fails op e ∧
    (∀ p key e', (throwing.after op).cache.get? p key = some (.poisoned e') →
      throwing.cache.get? p key = some (.poisoned e') ∨ e' = e) ∧
    ((∃ m stack, throwing.ComesTo op m ∧ m.Raises e stack) ∧
      ∀ m stack e', throwing.ComesTo op m → m.Raises e' stack → e' = e ∧ ∀ job ∈ stack,
        (job.partition ≠ .discovery →
          (throwing.after op).cache.get? job.partition job.target.key = some (.poisoned e)) ∧
        (job.partition = .discovery → ∀ p, (throwing.after op).cache.get? p job.target.key = none)) := by
  have hfails : throwing.Fails (.load "./a.cjs" none true) (.compile ⟨"/app/b.js"⟩ (.thrown "stop")) :=
    .load (by decide +kernel)
  have hstarts : throwing.Starts := ⟨fresh_ofConfig _ _, ⟨by decide, fun hc => by cases hc⟩⟩
  obtain ⟨hblames, hgiven, -, -⟩ := failure_of_reachable (.start hstarts) hfails
  exact ⟨hfails, hblames, hgiven⟩

end Loader
end ModGraph
