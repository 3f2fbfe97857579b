import ModGraph.Proofs.Nesting

/-!
# Loads end, and compile no module twice

A load with a limit on nesting takes the same course for every limit above some bound, and does not fail
for the limit: so it ends by itself, on circular graphs too. While a module is in progress, a request
for its key is answered with its entry as it is, and no compiler runs. `Loader.course_of_reachable` puts
this together with the count of compilations, for every state that a loader can be in between calls.
-/

namespace ModGraph

open Relation (ReflTransGen)

theorem le_foldr_add {α : Type} (f : α → Nat) {a : α} {l : List α} (h : a ∈ l) :
    f a ≤ l.foldr (fun a n => f a + n) 0 := by
  induction l with
  | nil => cases h
  | cons b l ih =>
    rcases List.mem_cons.mp h with rfl | h
    · exact Nat.le_add_right _ _
    · exact Nat.le_trans (ih h) (Nat.le_add_left _ _)

namespace Loader

variable {l l' : Loader} {request : String} {parent : Option EntryId} {isMain : Bool}

/-! ## Loads with a limit -/

/-- A load in which requests may nest so deep. -/
def loadWithin (request : String) (parent : Option EntryId) (isMain : Bool) (limit : Nat) :
    LoadM EntryId :=
  reported request (answer (loadNested limit) request parent isMain)

/-- A parse-only pass in which requests may nest so deep. -/
def discoverWithin (request : String) (parent : Option EntryId) (limit : Nat) : LoadM EntryId := do
  let before := (← get).cache.parsing
  setParsing true
  let id ← onError (loadWithin request parent false limit) fun _ => setParsing before
  setParsing before
  return id

/-- From some limit on the runs are all the same, and that one does not fail for the limit. -/
def EndsAs (l : Loader) (call : Nat → LoadM EntryId) (r : Except LoadError EntryId × Loader) : Prop :=
  ¬ TooDeep r ∧ ∃ bound, ∀ limit ≥ bound, l.run (call limit) = r

theorem extends_loadWithin (request : String) (parent : Option EntryId) (isMain : Bool)
    {limit limit' : Nat} (h : limit ≤ limit') :
    Extends (loadWithin request parent isMain limit') (loadWithin request parent isMain limit) :=
  .reported (.answer (fun request id => .loadNested h request id) _ _ _) _

theorem extends_discoverWithin (request : String) (parent : Option EntryId) {limit limit' : Nat}
    (h : limit ≤ limit') :
    Extends (discoverWithin request parent limit') (discoverWithin request parent limit) := by
  refine (Extends.refl _).bind fun l => (Extends.refl _).bind fun _ => ?_
  exact ((extends_loadWithin _ _ _ h).onError fun _ _ => ⟨_, rfl⟩).bind fun _ => .refl _

theorem endsAs_of_extends {call : Nat → LoadM EntryId} {limit : Nat}
    (h : ∀ limit' ≥ limit, Extends (call limit') (call limit)) (hdeep : ¬ TooDeep (l.run (call limit))) :
    l.EndsAs call (l.run (call limit)) :=
  ⟨hdeep, limit, fun limit' hl => (h limit' hl l).resolve_left hdeep⟩

/-! ## There is room at the start -/

/-- A consistent loader with the compilers that come with it, which reads nothing but the files there are
and never failed for the limit on nesting. -/
structure Steady (l : Loader) : Prop extends Consistent l where
  shipped : l.compilers.Shipped
  codeCache : l.codeCache? = none
  faithful : l.Faithful
  calm : l.Calm

theorem length_le_textBound {text : String} (h : text ∈ l.textsAtHand request) :
    text.length ≤ l.textBound request :=
  Nat.le_trans (le_foldr_add String.length h) (Nat.le_add_right _ _)

theorem Steady.bounded (h : l.Steady) (request : String) : l.Bounded l.files (l.textBound request) where
  codeCache := h.codeCache
  faithful := h.faithful
  files := rfl
  file hget := Nat.le_trans (le_foldr_add Node.weight (Table.mem_values hget)) (Nat.le_add_left _ _)
  source hget := length_le_textBound
    (List.mem_cons_of_mem _ (List.mem_append_left _ (List.mem_append_left _ (Table.mem_values hget))))
  program hget _ hr := length_le_textBound
    (List.mem_cons_of_mem _ (List.mem_append_left _ (List.mem_append_right _
      (List.mem_flatMap.mpr ⟨_, Table.mem_values hget, hr⟩))))

theorem Steady.roomy (h : l.Steady) (request : String) :
    l.Roomy l.files (l.textBound request) (l.nestingBound request + 1) :=
  { h.toConsistent with
    shipped := h.shipped
    bounded := h.bounded request
    calm := h.calm
    room := by
      refine Nat.lt_succ_of_le (Nat.le_trans (Finset.card_filter_le _ _)
        (Nat.le_trans (card_possibleKeys _ _) ?_))
      unfold nestingBound
      exact Nat.le_mul_of_pos_left _ (by decide) }

theorem Roomy.steady {fs : FileSystem} {n m : Nat} (h : l.Roomy fs n m) : l.Steady :=
  { h.toConsistent with
    shipped := h.shipped
    codeCache := h.bounded.codeCache
    faithful := h.bounded.faithful
    calm := h.calm }

/-- A load with enough room does not fail for the limit. -/
theorem Steady.loadWithin (h : l.Steady) (request : String) (parent : Option EntryId) (isMain : Bool)
    {limit : Nat} (hl : l.nestingBound request ≤ limit) :
    let r := l.run (loadWithin request parent isMain limit)
    r.2.Steady ∧ ¬ TooDeep r := by
  have hroomy : l.Roomy l.files (l.textBound request) (limit + 1) :=
    { h.roomy request with room := Nat.lt_of_lt_of_le (h.roomy request).room (Nat.succ_le_succ hl) }
  have hrequest : request.length ≤ l.textBound request := length_le_textBound List.mem_cons_self
  have hkeeps : Keeps (Roomy l.files (l.textBound request) (limit + 1)) (fun _ => True)
      (·.isTooDeep = false) (Loader.loadWithin request parent isMain limit) :=
    (Roomy.keeps_answer (fun _ id hr => Roomy.keeps_loadNested limit hr id) hrequest parent isMain).reported
      (fun e => (Roomy.keeps_report e).follows) request
  have hrun := hkeeps l hroomy
  generalize l.run (Loader.loadWithin request parent isMain limit) = r at hrun ⊢
  obtain ⟨e | id, l'⟩ := r
  · refine ⟨hrun.1.steady, ?_⟩
    rintro ⟨e', ⟨⟩, hdeep⟩
    rw [hrun.2] at hdeep
    cases hdeep
  · refine ⟨hrun.1.steady, ?_⟩
    rintro ⟨e', ⟨⟩, -⟩

theorem run_load (l : Loader) (request : String) (parent : Option EntryId) (isMain : Bool) :
    l.run (Loader.load request parent isMain)
      = l.run (Loader.loadWithin request parent isMain (l.nestingBound request)) := by
  unfold Loader.load Loader.loadWithin
  rw [run_bind, run_get, andThen_ok]

theorem Steady.load (h : l.Steady) (request : String) (parent : Option EntryId) (isMain : Bool) :
    (l.run (Loader.load request parent isMain)).2.Steady ∧
      l.EndsAs (Loader.loadWithin request parent isMain) (l.run (Loader.load request parent isMain)) := by
  rw [run_load]
  obtain ⟨hsteady, hdeep⟩ := h.loadWithin request parent isMain (Nat.le_refl _)
  exact ⟨hsteady, endsAs_of_extends (fun _ => extends_loadWithin request parent isMain) hdeep⟩

theorem run_discoverWithin (l : Loader) (request : String) (parent : Option EntryId) (limit : Nat) :
    l.run (discoverWithin request parent limit) =
      let r := (l.withParsing true).run (Loader.loadWithin request parent false limit)
      (r.1, r.2.withParsing l.cache.parsing) := by
  unfold discoverWithin
  rw [run_bind, run_get, andThen_ok]
  dsimp only
  rw [run_bind, run_setParsing, andThen_ok, run_bind, run_onError]
  generalize (l.withParsing true).run (Loader.loadWithin request parent false limit) = r
  obtain ⟨_ | _, l'⟩ := r <;> rfl

theorem Steady.withParsing (h : l.Steady) (parsing : Bool) : (l.withParsing parsing).Steady :=
  have hspared : Spared (fun _ => False) l (l.withParsing parsing) :=
    Spares.setParsing parsing l h.toConsistent
  { hspared.consistent with
    shipped := h.shipped
    codeCache := h.codeCache
    faithful := h.faithful
    calm := fun p key e he => h.calm p key e (by cases p <;> exact he) }

theorem nestingBound_withParsing (l : Loader) (parsing : Bool) (request : String) :
    (l.withParsing parsing).nestingBound request = l.nestingBound request := by
  have htext : (l.withParsing parsing).textBound request = l.textBound request := rfl
  unfold nestingBound
  rw [htext]

theorem Steady.discover (h : l.Steady) (request : String) (parent : Option EntryId) :
    (l.run (Loader.discover request parent)).2.Steady ∧
      l.EndsAs (discoverWithin request parent) (l.run (Loader.discover request parent)) := by
  have hrun : l.run (Loader.discover request parent)
      = l.run (discoverWithin request parent (l.nestingBound request)) := by
    rw [run_discover, run_discoverWithin, run_load, nestingBound_withParsing]
  obtain ⟨hsteady, hdeep⟩ := (h.withParsing true).loadWithin request parent false (Nat.le_refl _)
  rw [nestingBound_withParsing] at hsteady hdeep
  rw [hrun]
  refine ⟨?_, endsAs_of_extends (fun _ => extends_discoverWithin request parent) ?_⟩
  · rw [run_discoverWithin]
    exact hsteady.withParsing _
  · rw [run_discoverWithin]
    exact hdeep

/-! ## Requests for modules in progress -/

/-- A request for a module in progress is answered with its entry as it is. -/
theorem Consistent.run_seek_inProgress {file : Path} {p : Partition} {id : EntryId} (hc : l.Consistent)
    (hfile : l.resolved request parent isMain = .ok (.file file))
    (hin : l.InProgress (cacheKey file (splitQuery request).2) p id) :
    (l.run (seek request parent isMain)).1 = .ok (.found id) := by
  rw [hc.toOrderly.run_seek, hfile]
  dsimp only
  unfold met
  have hin' : (((l.retried request parent isMain).packaged file).noted
      [.enters (l.target request file).key .classifying]).cache.slot? (l.target request file).key
        = some (p, .loading id) := hin
  rw [classified_loading hin']
  rfl

end Loader

namespace Moment

open Loader

/-- Where a module asks for another one, slots still lead to entries with their keys. -/
theorem consistent_asks {m m' : Moment} (h : m.loader.Consistent) (ha : m.Asks m') :
    m'.loader.Consistent := by
  cases ha with
  | @intro limit job c request next l₁ l₂ l₃ l₄ hlimit hseek hoccupy hbegin htask =>
    have hreport : Spared (fun _ => False) m.loader (m.loader.noted [.enters m.request .resolving]) :=
      Spares.of_graph (Tidy.noted _ _) rfl rfl h
    rw [run_bind, run_report, andThen_ok] at hseek
    change (m.loader.noted [.enters m.request .resolving]).run _ = _ at hseek
    have hsought : Spared (fun _ => False) _ _ := Spares.seek m.request m.parent m.isMain _ hreport.consistent
    have hready : l₁.Ready job := ready_of_seek hreport.consistent hseek
    rw [hseek] at hsought
    rw [run_occupy] at hoccupy
    cases hoccupy
    have hcompiles : Compiles job.id (Spares (· = job.id)) := Spares.compiles rfl
    have hbegun := hcompiles.beginCompile job.target.filename (l₁.occupied job)
    rw [hbegin] at hbegun
    have hran : Spares (· = job.id) l₃ l₄ := rel_of_taskSteps hcompiles Spares.report
      (fun request l => (Spares.loadNested m.limit request job.id l).mono fun _ h => h.elim) htask
    exact (hbegun.trans hran (hready.consistent_occupied hsought.consistent)).consistent

theorem consistent_of_asks {m m' : Moment} (h : m.loader.Consistent) (ha : ReflTransGen Asks m m') :
    m'.loader.Consistent := by
  induction ha with
  | refl => exact h
  | tail _ hstep ih => exact consistent_asks ih hstep

/-- A request for the key of a module in progress gives that module's entry, which is not loaded, and
compiles nothing. -/
theorem run_action_inProgress {m : Moment} (h : m.loader.Consistent) (hs : m.Sound) {job : Job}
    (hjob : job ∈ m.stack) {file : Path}
    (hfile : m.loader.resolved m.request m.parent m.isMain = .ok (.file file))
    (hkey : cacheKey file (splitQuery m.request).2 = job.target.key) :
    ∃ l', m.loader.run m.action = (.ok job.id, l') ∧ (l'.graph.entry job.id).isLoaded = false ∧
      l'.compiled = m.loader.compiled := by
  have hin := hs.stack job hjob
  have hreport : Spared (fun _ => False) m.loader (m.loader.noted [.enters m.request .resolving]) :=
    Spares.of_graph (Tidy.noted _ _) rfl rfl h
  have hfound := hreport.consistent.run_seek_inProgress hfile (hkey ▸ hin)
  have hspared : Spared (fun _ => False) _ _ :=
    Spares.seek m.request m.parent m.isMain _ hreport.consistent
  have hcompiled := Once.same_compiled.seek hreport.consistent.toOrderly m.request m.parent m.isMain
  obtain ⟨l', hrun⟩ : ∃ l', (m.loader.noted [.enters m.request .resolving]).run
      (seek m.request m.parent m.isMain) = (.ok (.found job.id), l') := ⟨_, Prod.ext hfound rfl⟩
  rw [hrun] at hspared hcompiled
  refine ⟨l'.noted [.enters m.request .done], ?_,
    hspared.consistent.unfinished ((hspared.progress _ _ _).mpr hin), hcompiled⟩
  simp only [noted, List.cons_append, List.nil_append] at hrun
  unfold action reported answer
  rw [run_bind, run_report, andThen_ok, run_bind, run_onError, run_bind, hrun]
  rfl

end Moment
namespace Loader

variable {l : Loader}

/-! ## Between calls -/

/-- A loader at the start, with the compilers that come with it and without a code cache, that reads
nothing but the files there are. -/
structure Plain (l : Loader) : Prop extends Starts l where
  shipped : l.compilers.Shipped
  codeCache : l.codeCache? = none
  faithful : l.Faithful

/-- Slots are left to the loader, and no compiler is added from outside. -/
def Ordinary (l : Loader) : Operation → Prop
  | .registerCompiler _ c => c.isShipped = true
  | op => l.Regular op

theorem Ordinary.regular {op : Operation} (h : l.Ordinary op) : l.Regular op := by
  cases op <;> first | exact h | trivial

theorem Plain.steady (h : l.Plain) : l.Steady where
  toOrderly := h.toStarts.orderly
  keyed hs _ := by
    rw [h.fresh.cache] at hs
    cases hs
  unfinished hp := by
    rw [InProgress, h.fresh.cache] at hp
    cases hp
  shipped := h.shipped
  codeCache := h.codeCache
  faithful := h.faithful
  calm p key e he := by
    rw [h.fresh.cache] at he
    cases p <;> cases he

theorem Steady.after {op : Operation} (h : l.Steady) (hop : l.Ordinary op) : (l.after op).Steady := by
  have hc : (l.after op).Consistent := h.toConsistent.after hop.regular
  cases op with
  | load request parent isMain => exact (h.load request parent isMain).1
  | discover request parent => exact (h.discover request parent).1
  | resolve request parent =>
    have hafter : l.after (.resolve request parent) = l.retried request parent false := by
      rw [Loader.after, run_resolve]
    rw [hafter] at hc ⊢
    exact { h with toConsistent := hc }
  | invalidate key =>
    exact { h with toConsistent := hc, calm := fun p k e he => h.calm p k e (get?_of_invalidate he) }
  | clearCache => exact { h with toConsistent := hc, calm := fun p k e he => by cases p <;> cases he }
  | registerBuiltin name exports => exact { h with toConsistent := hc }
  | registerCompiler extension c =>
    exact { h with toConsistent := hc, shipped := h.shipped.register extension hop }
  | replaceCached p key id => exact hop.elim
  | changeFiles fs => exact { h with toConsistent := hc }

theorem Reachable.steady (h : Reachable Plain Ordinary l) : l.Steady :=
  h.invariant (fun _ => Plain.steady) fun _ _ hl hop => hl.after hop

/-- Every load and every parse-only pass ends by itself and compiles no key twice; and whenever a module
asks for the key of one in progress on the way, it gets that module's entry, which is not loaded, and
nothing is compiled. -/
theorem ends_and_compiles_once (h : Reachable Plain Ordinary l) :
    (∀ request parent isMain,
      l.EndsAs (loadWithin request parent isMain) (l.run (load request parent isMain)) ∧
        ∀ key, (l.after (.load request parent isMain)).timesCompiled key ≤ l.timesCompiled key + 1) ∧
    (∀ request parent,
      l.EndsAs (discoverWithin request parent) (l.run (discover request parent)) ∧
        ∀ key, (l.after (.discover request parent)).timesCompiled key ≤ l.timesCompiled key + 1) ∧
    ∀ op m, l.ComesTo op m → ∀ job ∈ m.stack, ∀ file,
      m.loader.resolved m.request m.parent m.isMain = .ok (.file file) →
      cacheKey file (splitQuery m.request).2 = job.target.key →
      ∃ l', m.loader.run m.action = (.ok job.id, l') ∧ (l'.graph.entry job.id).isLoaded = false ∧
        l'.compiled = m.loader.compiled := by
  have hl := h.steady
  refine ⟨fun request parent isMain => ⟨(hl.load request parent isMain).2, ?_⟩,
    fun request parent => ⟨(hl.discover request parent).2, ?_⟩, ?_⟩
  · exact timesCompiled_load hl.toConsistent hl.shipped request parent isMain
  · exact timesCompiled_discover hl.toConsistent hl.shipped request parent
  · intro op m hm job hjob file hfile hkey
    have hsound := hl.toOrderly.sound_of_comesTo hm
    obtain ⟨first, hfirst, hasks⟩ := hm
    have hconsistent : first.loader.Consistent := by
      unfold beginning? at hfirst
      split at hfirst
      · obtain rfl := Option.some.inj hfirst
        exact hl.toConsistent
      · obtain rfl := Option.some.inj hfirst
        exact (hl.withParsing true).toConsistent
      · cases hfirst
    exact Moment.run_action_inProgress (Moment.consistent_of_asks hconsistent hasks) hsound hjob hfile hkey

theorem plain_circular : circular.Plain where
  fresh := fresh_ofConfig _ _
  unmarked := unmarked_circular
  shipped := CompilerTable.shipped_standard
  codeCache := rfl
  faithful := fun _ _ _ h => h

theorem circular_ends_and_compiles_once :
    let l := circular.after (.discover "./b.js" none)
    l.EndsAs (loadWithin "./a.js" none true) (l.run (load "./a.js" none true)) ∧
      ∀ key, (l.after (.load "./a.js" none true)).timesCompiled key ≤ l.timesCompiled key + 1 :=
  have h : Reachable Plain Ordinary (circular.after (.discover "./b.js" none)) :=
    .after (.start plain_circular) trivial
  (ends_and_compiles_once h).1 "./a.js" none true

end Loader
end ModGraph
