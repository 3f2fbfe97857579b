import ModGraph.Proofs.Progress
import ModGraph.Proofs.ShippedCompilers

/-!
# No module is compiled twice in a call

A key is busy when its module is in progress, or compiled as far as the running pass goes. Requests for
a busy key find what is there (`Loader.Once`). A compilation starts only under a key that is not busy, and
either leaves it busy or fails, and then the whole call fails. So no key is compiled twice.
-/

namespace ModGraph
namespace Loader

variable {l l' : Loader} {job : Job} {key : String}

/-- A module is in progress, or no pass like the running one needs to compile it. -/
def Busy (l : Loader) (key : String) : Prop :=
  (∃ p id, l.InProgress key p id) ∨
    ∃ p id, l.cache.slot? key = some (p, .ready id) ∧
      ((l.graph.entry id).isLoaded = true ∨ l.cache.parsing = true)

/-- How often a key was compiled. -/
def timesCompiled (l : Loader) (key : String) : Nat := l.compiled.count key

/-- What a success leaves behind: busy keys stay busy and are not compiled, and other keys are compiled
once at most and are busy then. -/
structure CompilesOnce (l l' : Loader) : Prop where
  consistent : l'.Consistent
  shipped : l'.compilers.Shipped
  busy : ∀ {key}, l.Busy key → l'.Busy key ∧ l'.timesCompiled key = l.timesCompiled key
  once : ∀ key, l'.timesCompiled key ≤ l.timesCompiled key + 1
  added : ∀ {key}, l'.timesCompiled key ≠ l.timesCompiled key → l'.Busy key

/-- What a failure leaves behind: busy keys were not compiled, and other keys once at most. -/
structure FailsOnce (l l' : Loader) : Prop where
  busy : ∀ {key}, l.Busy key → l'.timesCompiled key = l.timesCompiled key
  once : ∀ key, l'.timesCompiled key ≤ l.timesCompiled key + 1

/-- Success of a consistent loader with compilers that come with it. -/
def Once (l l' : Loader) : Prop := l.Consistent → l.compilers.Shipped → CompilesOnce l l'

/-- Failure of a consistent loader with compilers that come with it. -/
def OnceAtFailure (l l' : Loader) : Prop := l.Consistent → l.compilers.Shipped → FailsOnce l l'

namespace Once

theorem refl (l : Loader) : Once l l := fun hc hs =>
  ⟨hc, hs, fun hb => ⟨hb, rfl⟩, fun _ => Nat.le_succ _, fun h => absurd rfl h⟩

theorem trans {l l' l'' : Loader} (h : Once l l') (h' : Once l' l'') : Once l l'' := by
  intro hc hs
  have h₁ := h hc hs
  have h₂ := h' h₁.consistent h₁.shipped
  refine ⟨h₂.consistent, h₂.shipped, fun hb => ?_, fun key => ?_, fun {key} hne => ?_⟩
  · obtain ⟨hb₁, hcount₁⟩ := h₁.busy hb
    obtain ⟨hb₂, hcount₂⟩ := h₂.busy hb₁
    exact ⟨hb₂, hcount₂.trans hcount₁⟩
  · by_cases heq : l'.timesCompiled key = l.timesCompiled key
    · exact heq ▸ h₂.once key
    · exact (h₂.busy (h₁.added heq)).2 ▸ h₁.once key
  · by_cases heq : l'.timesCompiled key = l.timesCompiled key
    · exact h₂.added (heq ▸ hne)
    · exact (h₂.busy (h₁.added heq)).1

instance : IsPreorder Loader Once where
  refl := refl
  trans _ _ _ := trans

theorem outcomes : Outcomes Once OnceAtFailure where
  toIsPreorder := inferInstance
  weaken h hc hs := ⟨fun hb => ((h hc hs).busy hb).2, (h hc hs).once⟩
  absorb {l l' l''} h h' hc hs := by
    have h₁ := h hc hs
    have h₂ := h' h₁.consistent h₁.shipped
    refine ⟨fun hb => ?_, fun key => ?_⟩
    · obtain ⟨hb₁, hcount₁⟩ := h₁.busy hb
      exact (h₂.busy hb₁).trans hcount₁
    · by_cases heq : l'.timesCompiled key = l.timesCompiled key
      · exact heq ▸ h₂.once key
      · exact h₂.busy (h₁.added heq) ▸ h₁.once key

/-- Where nothing is compiled, only slots and marks matter. -/
theorem of_same (hc : l.Consistent → l'.Consistent) (hs : l'.compilers = l.compilers)
    (hcompiled : l'.compiled = l.compiled)
    (hprogress : l.Consistent → ∀ key p id, l.InProgress key p id → l'.InProgress key p id)
    (hready : l.Consistent → ∀ key p id, l.cache.slot? key = some (p, .ready id) →
      ∃ q, l'.cache.slot? key = some (q, .ready id))
    (hloaded : ∀ id, id < l.graph.size → (l.graph.entry id).isLoaded = true →
      (l'.graph.entry id).isLoaded = true)
    (hparsing : l'.cache.parsing = l.cache.parsing) : Once l l' := by
  intro hcons hship
  have hcount : ∀ key, l'.timesCompiled key = l.timesCompiled key := fun key => by
    rw [timesCompiled, hcompiled, timesCompiled]
  refine ⟨hc hcons, hs ▸ hship, fun {key} hb => ⟨?_, hcount key⟩, fun key => ?_, fun hne => ?_⟩
  · rcases hb with ⟨p, id, hp⟩ | ⟨p, id, hslot, hmark⟩
    · exact .inl ⟨p, id, hprogress hcons key p id hp⟩
    · obtain ⟨q, hq⟩ := hready hcons key p id hslot
      refine .inr ⟨q, id, hq, hmark.imp (hloaded id (hcons.keyed hslot rfl).1) fun h => ?_⟩
      rw [hparsing, h]
  · rw [hcount]
    exact Nat.le_succ _
  · exact absurd (hcount _) hne

/-- Where the cache stays as it is and entries stay loaded, busy keys stay busy. -/
theorem of_cache {own : EntryId → Prop} (hc : Spares own l l') (hs : l'.compilers = l.compilers)
    (hcompiled : l'.compiled = l.compiled) (hcache : l'.cache = l.cache)
    (hloaded : ∀ id, id < l.graph.size → (l.graph.entry id).isLoaded = true →
      (l'.graph.entry id).isLoaded = true) : Once l l' :=
  of_same (fun h => (hc h).consistent) hs hcompiled (fun h key p id => ((hc h).progress key p id).mpr)
    (fun _ key p id h => ⟨p, by rw [hcache]; exact h⟩) hloaded (by rw [hcache])

theorem of_quiet {α : Type} {action : LoadM α} {own : EntryId → Prop} (hs : Follows (Spares own) action)
    (he : Follows Evolves action) (hq : Follows Quiet action) : Follows Once action := fun l =>
  of_cache (hs l) (he l).compilers (hq l).compiled (hq l).cache fun _ hid => ((he l).graph.entry hid).loaded

theorem report {event : Event} (h : event.compiledKey? = none) : Follows Once (Loader.report event) :=
  have hs : Follows (Spares fun _ => False) (Loader.report event) := Spares.report event
  of_quiet hs (Evolves.report event) (Quiet.report h)

theorem compiles (id : EntryId) : Compiles id Once :=
  have hs : Compiles id (Spares (· = id)) := Spares.compiles rfl
  { toIsPreorder := inferInstance
    report := fun _ => report
    updateEntry := fun {f} hf l =>
      have hdev : l.graph.Develops (l.graph.update id f) := .update _ _ fun e => .of_retains (hf e)
      of_cache (hs.updateEntry hf l) rfl rfl rfl fun _ hid => (hdev.entry hid).loaded
    source := fun file => of_quiet (hs.source file) (Evolves.reading.source file) (Quiet.reading.source file)
    program := fun file => of_quiet (hs.program file) (Evolves.reading.program file) (Quiet.reading.program file) }

/-! ## Seeking -/

theorem compiled_packaged (l : Loader) (file : Path) : (l.packaged file).compiled = l.compiled := by
  have hwalk : ∀ answer, (walkEvents answer).filterMap Event.compiledKey? = [] := by
    intro answer
    simp only [walkEvents, List.filterMap_append, List.filterMap_flatMap, List.append_eq_nil_iff,
      List.flatMap_eq_nil_iff]
    refine ⟨fun (dir, manifest) _ => by cases manifest <;> rfl, ?_⟩
    cases answer.manifestDir? <;> rfl
  simp only [compiled, packaged, List.filterMap_append, List.filterMap_reverse, hwalk, List.reverse_nil,
    List.nil_append]

/-- Nothing is compiled on the way to a module. -/
theorem same_compiled : Seeks (fun l l' => l'.compiled = l.compiled) where
  refl _ := rfl
  trans _ _ _ h h' := h'.trans h
  noted l events he := by
    simp only [compiled, Loader.noted, List.filterMap_append, he, List.nil_append]
  packaged _ := compiled_packaged _ _
  linked l referrer request child := by cases referrer <;> rfl
  builtinOf l name := by
    unfold Loader.builtinOf
    split <;> rfl
  classified l key := by
    obtain ⟨cache, events, heq, -, -, hevents⟩ := l.classified_frame key _ _
    rw [heq]
    simp only [compiled, List.filterMap_append, hevents, List.nil_append]
  added _ _ := rfl

theorem ready_of_classified (hc : l.Consistent) (key : String) (fixed : Option Format) (unexposed : Bool)
    (k : String) (p : Partition) (id : EntryId) (h : l.cache.slot? k = some (p, .ready id)) :
    ∃ q, (l.classified key fixed unexposed).2.cache.slot? k = some (q, .ready id) := by
  have hsame := slot?_classified hc.exclusive key fixed unexposed k
  rw [h, Option.map_some] at hsame
  obtain ⟨⟨q, s⟩, hq, rfl⟩ := Option.map_eq_some_iff.mp hsame
  exact ⟨q, hq⟩

theorem seeks : Seeks Once :=
  have hs : Seeks (Spares fun _ => False) := Spares.seeks
  have hc := same_compiled
  { toIsPreorder := inferInstance
    noted := fun l _ he => of_cache (hs.noted l he) rfl (hc.noted l he) rfl fun _ _ h => h
    packaged := fun hf => of_cache (hs.packaged hf) rfl (hc.packaged hf) rfl fun _ _ h => h
    linked := fun l referrer request child => by
      have hlinked := hs.linked l referrer request child
      cases referrer with
      | none => exact refl l
      | some r =>
        have hdev : l.graph.Develops (l.graph.update r.id fun e => e.addChild request child) :=
          .update _ _ fun e => ⟨rfl, rfl, fun h => h⟩
        exact of_cache hlinked rfl rfl rfl fun _ hid => (hdev.entry hid).loaded
    builtinOf := fun l name => by
      have hbuiltin := hs.builtinOf l name
      unfold Loader.builtinOf at hbuiltin ⊢
      cases hb : l.cache.builtins.get? name with
      | some id => exact refl l
      | none =>
        simp only [hb] at hbuiltin
        have hdev : l.graph.Develops (l.graph.add (l.builtinEntry name)).1 := .add _ _
        refine of_same (fun h => (hbuiltin h).consistent) rfl rfl
          (fun h key p id => ((hbuiltin h).progress key p id).mpr) (fun _ key p id h => ⟨p, ?_⟩)
          (fun _ hid => (hdev.entry hid).loaded) rfl
        exact (Cache.slot?_congr fun p => by cases p <;> rfl).trans h
    classified := fun l key => by
      have hclassified := hs.classified l key
      have hready := fun hc => ready_of_classified (l := l) hc key (Format.ofPath? (keyFile key))
        (l.packageOf (keyFile key)).isUnexposed
      have hcompiled := hc.classified l key
      obtain ⟨cache, events, heq, -, hparsing, -⟩ := l.classified_frame key (Format.ofPath? (keyFile key))
        (l.packageOf (keyFile key)).isUnexposed
      rw [heq] at hclassified hready hcompiled ⊢
      exact of_same (fun h => (hclassified h).consistent) rfl hcompiled
        (fun h key p id => ((hclassified h).progress key p id).mpr) hready (fun _ _ h => h) hparsing
    added := fun l e => by
      have hdev : l.graph.Develops (l.graph.add e).1 := .add _ _
      exact of_cache (hs.added l e) rfl rfl rfl fun _ hid => (hdev.entry hid).loaded }

/-! ## Compiling -/

theorem not_busy (hr : l.Ready job) : ¬ l.Busy job.target.key := by
  rintro (⟨p, id, hp⟩ | ⟨p, id, hslot, hmark⟩)
  · exact hr.idle p id hp
  · rcases hr.slot with h | ⟨h, hparsing⟩
    · rw [h] at hslot
      cases hslot
    · rw [h] at hslot
      cases hslot
      rw [hr.unloaded, hparsing] at hmark
      simp at hmark

theorem timesCompiled_occupied (l : Loader) (job : Job) (key : String) :
    (l.occupied job).timesCompiled key
      = if job.target.key = key then l.timesCompiled key + 1 else l.timesCompiled key := by
  have hcompiled : (l.occupied job).compiled = job.target.key :: l.compiled := by
    unfold occupied
    split <;> rfl
  rw [timesCompiled, hcompiled, List.count_cons, timesCompiled]
  by_cases hk : job.target.key = key <;> simp [hk]

/-- Marking a slot takes no key its place, and makes one more busy. -/
theorem busy_occupied (hr : l.Ready job) :
    (l.occupied job).Busy job.target.key ∧ ∀ {key}, l.Busy key → (l.occupied job).Busy key := by
  have hparsing : (l.occupied job).cache.parsing = l.cache.parsing := by
    unfold occupied
    split <;> simp
  refine ⟨.inl ⟨_, _, (hr.slot?_occupied _).trans (if_pos rfl)⟩, fun {key} hb => ?_⟩
  have hne : job.target.key ≠ key := fun heq => not_busy hr (heq ▸ hb)
  rcases hb with ⟨p, id, hp⟩ | ⟨p, id, hslot, hmark⟩
  · exact .inl ⟨p, id, (hr.slot?_occupied _).trans ((if_neg hne).trans hp)⟩
  · refine .inr ⟨p, id, (hr.slot?_occupied _).trans ((if_neg hne).trans hslot), ?_⟩
    rw [(entry_occupied l job id).2.1, hparsing]
    exact hmark

/-- What a compilation that succeeded leaves behind. -/
theorem compilesOnce_of_bracket {l₂ : Loader} (hr : l.Ready job) (hc' : l'.Consistent)
    (hs' : l'.compilers.Shipped) (h₂ : CompilesOnce (l.occupied job) l₂)
    (hcompiled : l'.compiled = l₂.compiled)
    (hbusy : ∀ {key}, job.target.key ≠ key → l₂.Busy key → l'.Busy key) (hkey : l'.Busy job.target.key) :
    CompilesOnce l l' := by
  obtain ⟨hocc, hocc'⟩ := busy_occupied hr
  have hcount : ∀ key, l'.timesCompiled key = l₂.timesCompiled key := fun key => by
    rw [timesCompiled, hcompiled, timesCompiled]
  have hbusy' : ∀ {key}, l₂.Busy key → l'.Busy key := fun {key} hb =>
    if heq : job.target.key = key then heq ▸ hkey else hbusy heq hb
  refine ⟨hc', hs', fun {key} hb => ?_, fun key => ?_, fun {key} hne => ?_⟩
  · have hne : job.target.key ≠ key := fun heq => not_busy hr (heq ▸ hb)
    obtain ⟨hb₂, hcount₂⟩ := h₂.busy (hocc' hb)
    rw [timesCompiled_occupied, if_neg hne] at hcount₂
    exact ⟨hbusy' hb₂, (hcount key).trans hcount₂⟩
  · rw [hcount]
    by_cases hk : job.target.key = key
    · subst hk
      rw [(h₂.busy hocc).2, timesCompiled_occupied, if_pos rfl]
    · have := h₂.once key
      rwa [timesCompiled_occupied, if_neg hk] at this
  · by_cases hk : job.target.key = key
    · exact hk ▸ hkey
    · refine hbusy' (h₂.added fun heq => hne ?_)
      rw [hcount, heq, timesCompiled_occupied, if_neg hk]

/-- What a compilation that failed leaves behind. -/
theorem failsOnce_of_bracket {l₂ : Loader} (hr : l.Ready job) (h₂ : FailsOnce (l.occupied job) l₂)
    (hcompiled : l'.compiled = l₂.compiled) : FailsOnce l l' := by
  obtain ⟨hocc, hocc'⟩ := busy_occupied hr
  have hcount : ∀ key, l'.timesCompiled key = l₂.timesCompiled key := fun key => by
    rw [timesCompiled, hcompiled, timesCompiled]
  refine ⟨fun {key} hb => ?_, fun key => ?_⟩
  · have hne : job.target.key ≠ key := fun heq => not_busy hr (heq ▸ hb)
    rw [hcount, h₂.busy (hocc' hb), timesCompiled_occupied, if_neg hne]
  · rw [hcount]
    by_cases hk : job.target.key = key
    · subst hk
      rw [h₂.busy hocc, timesCompiled_occupied, if_pos rfl]
    · have := h₂.once key
      rwa [timesCompiled_occupied, if_neg hk] at this

theorem compiled_concluded (l : Loader) (job : Job) : (l.concluded job).compiled = l.compiled := by
  have hsettled : (l.settled job).compiled = l.compiled := by
    simp only [compiled, settled, List.filterMap_append]
    split <;> rfl
  have hconcealed : ∀ (l₁ : Loader) format, (l₁.concealed job format).compiled = l₁.compiled := by
    intro l₁ format
    unfold concealed
    dsimp only
    split
    · rfl
    · split <;> split <;> rfl
  unfold concluded
  rw [hconcealed, ← hsettled]
  cases job.referrer <;> rfl

/-- The end of a compilation makes its key busy, and leaves busy what is. -/
theorem busy_concluded {l₂ : Loader} {c : Compilation} (hc : l₂.Consistent)
    (hin : l₂.InProgress job.target.key job.partition job.id) (filename : Path)
    (hparsing : c.parsing = l₂.cache.parsing) :
    ((l₂.marked job.id filename c).concluded job).Busy job.target.key ∧
      ∀ {key}, job.target.key ≠ key → l₂.Busy key → ((l₂.marked job.id filename c).concluded job).Busy key := by
  have ho : (l₂.marked job.id filename c).Orderly := ⟨hc.exclusive, hc.unmarked.of_eq rfl rfl⟩
  have hmarked := evolves_marked l₂ job.id filename c
  have hconcluded := evolves_concluded (l := l₂.marked job.id filename c) hin
  have hclosing := hmarked.trans hconcluded
  have hslot := (slot?_concluded ho hin).2
  refine ⟨.inr ⟨_, job.id, (hslot _).trans (if_pos rfl), ?_⟩, fun {key} hne hb => ?_⟩
  · by_cases hp : l₂.cache.parsing = true
    · exact .inr (hclosing.cache.parsing.trans hp)
    · have hid := (hc.keyed hin rfl).1
      have hloaded := isLoaded_marked l₂ (c := c) filename hid (by simp [hparsing, hp])
      exact .inl ((hconcluded.graph.entry (Nat.lt_of_lt_of_le hid hmarked.graph.size)).loaded hloaded)
  · rcases hb with ⟨p, id, hp⟩ | ⟨p, id, hready, hmark⟩
    · exact .inl ⟨p, id, (hslot key).trans ((if_neg hne).trans hp)⟩
    · refine .inr ⟨p, id, (hslot key).trans ((if_neg hne).trans hready), ?_⟩
      have hid := (hc.keyed hready rfl).1
      exact hmark.imp (hclosing.graph.entry hid).loaded fun h => hclosing.cache.parsing.trans h

theorem prepare {nested : NestedLoad} (hn : ∀ request id, Ends Once OnceAtFailure (nested request id))
    (id : EntryId) (filename : Path) :
    Ends Once OnceAtFailure (Loader.prepare nested id filename) := by
  intro l
  by_cases hs : l.compilers.Shipped
  · have hbegin := (compiles id).beginCompile filename l
    have hwithin : (l.compilation id filename).task.Within
        (fun event => Follows Once (Loader.report event)) (fun _ => True) fun _ => True :=
      Compiler.within_of_isShipped (fun _ => trivial) (hs.forPath filename) (fun _ _ => report rfl) fun _ => trivial
    have htask := (compiles id).runTask outcomes (fun request => hn request id) filename hwithin
      (l.begun id filename)
    unfold Loader.prepare
    rw [run_beginCompile] at hbegin
    rw [run_bind, run_beginCompile, andThen_ok, run_bind]
    generalize (l.begun id filename).run (runTask nested id filename (l.compilation id filename).task) = r
      at htask ⊢
    obtain ⟨_ | _, l'⟩ := r
    · exact outcomes.absorb hbegin htask
    · exact hbegin.trans htask
  · generalize l.run (Loader.prepare nested id filename) = r
    obtain ⟨_ | _, l'⟩ := r
    · exact fun _ h => absurd h hs
    · exact fun _ h => absurd h hs

theorem perform {nested : NestedLoad} (hnt : ∀ request id, Follows Tidy (nested request id))
    (hns : ∀ request id, Follows (Spares fun _ => False) (nested request id))
    (hne : ∀ request id, Follows Evolves (nested request id))
    (hn : ∀ request id, Ends Once OnceAtFailure (nested request id))
    (hc : l.Consistent) (hs : l.compilers.Shipped) (hr : l.Ready job) :
    match l.run (Loader.perform nested job) with
    | (.ok _, l') => CompilesOnce l l'
    | (.error _, l') => FailsOnce l l' := by
  have hspared := (Spares.perform hnt hns hc hr).consistent
  have hevolves := Evolves.respects.perform hne job l
  have hocc := hr.consistent_occupied hc
  have hprepare := prepare hn job.id job.target.filename (l.occupied job)
  have hprepare' := Spares.prepare hns job.id job.target.filename (l.occupied job) hocc
  have hshipped : (l.occupied job).compilers.Shipped := by
    have : (l.occupied job).compilers = l.compilers := by
      unfold occupied
      split <;> rfl
    exact this ▸ hs
  unfold Loader.perform at hspared hevolves ⊢
  rw [run_bind, run_occupy, andThen_ok, run_bind, run_onError, compile_eq, run_bind] at hspared hevolves ⊢
  generalize hrun : (l.occupied job).run (Loader.prepare nested job.id job.target.filename) = r
    at hspared hevolves hprepare hprepare' ⊢
  obtain ⟨result, l₂⟩ := r
  have hin : l₂.InProgress job.target.key job.partition job.id :=
    (hprepare'.progress _ _ _).mpr ((hr.slot?_occupied _).trans (if_pos rfl))
  cases result with
  | error e =>
    dsimp only [andThen_error]
    rw [run_vacate hin]
    refine failsOnce_of_bracket hr (hprepare hocc hshipped) ?_
    unfold vacated
    split <;> rfl
  | ok c =>
    dsimp only [andThen_ok] at hspared hevolves ⊢
    rw [run_endCompile] at hspared hevolves ⊢
    dsimp only [andThen_ok] at hspared hevolves ⊢
    rw [run_bind, run_conclude (l := l₂.marked job.id job.target.filename c) hin] at hspared hevolves ⊢
    have hclosing := (evolves_marked l₂ job.id job.target.filename c).trans (evolves_concluded hin)
    have hparsing : c.parsing = l.cache.parsing := by
      rw [(compiled_of_prepare hrun).1]
      unfold compilation occupied
      split <;> simp
    obtain ⟨hkey, hbusy⟩ := busy_concluded hprepare'.consistent hin job.target.filename
      (hparsing.trans (hevolves.cache.parsing.symm.trans hclosing.cache.parsing))
    exact compilesOnce_of_bracket hr hspared (hevolves.compilers ▸ hs) (hprepare hocc hshipped)
      (compiled_concluded _ job) hbusy hkey

theorem answer {nested : NestedLoad} (hnt : ∀ request id, Follows Tidy (nested request id))
    (hns : ∀ request id, Follows (Spares fun _ => False) (nested request id))
    (hne : ∀ request id, Follows Evolves (nested request id))
    (hn : ∀ request id, Ends Once OnceAtFailure (nested request id)) (request : String)
    (parent : Option EntryId) (isMain : Bool) :
    Ends Once OnceAtFailure (Loader.answer nested request parent isMain) := by
  intro l
  by_cases hc : l.Consistent
  · have hseek := seeks.seek hc.toOrderly request parent isMain
    unfold Loader.answer
    rw [run_bind]
    generalize hr : l.run (Loader.seek request parent isMain) = r at hseek
    obtain ⟨e | found, l'⟩ := r
    · exact outcomes.weaken hseek
    · cases found with
      | found id => exact hseek
      | needs job =>
        have hperform := fun hc' hs' => perform hnt hns hne hn hc' hs' (ready_of_seek hc hr)
        rw [andThen_ok]
        dsimp only at hperform ⊢
        generalize l'.run (Loader.perform nested job) = r at hperform ⊢
        obtain ⟨_ | _, l''⟩ := r
        · exact outcomes.absorb hseek hperform
        · exact hseek.trans hperform
  · generalize l.run (Loader.answer nested request parent isMain) = r
    obtain ⟨_ | _, l'⟩ := r
    · exact fun h => absurd h hc
    · exact fun h => absurd h hc

theorem reported {action : LoadM EntryId} (ha : Ends Once OnceAtFailure action) (request : String) :
    Ends Once OnceAtFailure (Loader.reported request action) := by
  have hreport : ∀ {event : Event}, event.compiledKey? = none →
      Ends Once OnceAtFailure (Loader.report event) := fun h => .of_follows outcomes (report h)
  refine .bind outcomes (hreport rfl) fun _ => .bind outcomes ?_ fun id =>
    .bind outcomes (hreport rfl) fun _ => .of_follows outcomes fun l => refl l
  intro l
  have hl := ha l
  rw [run_onError]
  generalize l.run action = r at hl ⊢
  obtain ⟨e | id, l'⟩ := r
  · exact fun hc hs => ⟨(hl hc hs).busy, (hl hc hs).once⟩
  · exact hl

/-- A nested load compiles no key twice. -/
theorem loadNested (limit : Nat) (request : String) (id : EntryId) :
    Ends Once OnceAtFailure (Loader.loadNested limit request id) := by
  induction limit generalizing request id with
  | zero => exact .of_follows outcomes (.throw _)
  | succ limit ih =>
    exact reported (answer (Tidy.loadNested limit) (Spares.loadNested limit)
      (Evolves.respects.loadNested limit) ih _ _ _) request

theorem load (request : String) (parent : Option EntryId) (isMain : Bool) :
    Ends Once OnceAtFailure (Loader.load request parent isMain) :=
  .bind outcomes (.of_follows outcomes Follows.get) fun _ =>
    reported (answer (Tidy.loadNested _) (Spares.loadNested _) (Evolves.respects.loadNested _)
      (loadNested _) request parent isMain) request

end Once

/-- However a load ends, it compiled no key twice. -/
theorem timesCompiled_load (hc : l.Consistent) (hs : l.compilers.Shipped) (request : String)
    (parent : Option EntryId) (isMain : Bool) (key : String) :
    (l.run (load request parent isMain)).2.timesCompiled key ≤ l.timesCompiled key + 1 := by
  have h := Once.load request parent isMain l
  generalize l.run (load request parent isMain) = r at h ⊢
  obtain ⟨_ | _, l'⟩ := r
  · exact (h hc hs).once key
  · exact (h hc hs).once key

theorem timesCompiled_discover (hc : l.Consistent) (hs : l.compilers.Shipped) (request : String)
    (parent : Option EntryId) (key : String) :
    (l.run (discover request parent)).2.timesCompiled key ≤ l.timesCompiled key + 1 := by
  have hc' : (l.withParsing true).Consistent :=
    have hspares : Spares (fun _ => False) l (l.withParsing true) := Spares.setParsing true l
    (hspares hc).consistent
  rw [run_discover]
  exact timesCompiled_load hc' hs request parent false key

end Loader
end ModGraph
