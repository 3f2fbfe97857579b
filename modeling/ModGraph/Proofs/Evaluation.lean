import ModGraph.Proofs.Outcome
import ModGraph.Proofs.Progress
import ModGraph.Proofs.Limits

/-!
# Compilers evaluate

A loader reflects a world if every slot holds what the file of its key comes to there, exports or an error
(`Loader.Reflects`). While a module is evaluated in such a loader (`Loader.Runs`), its exports are those
of the statements so far, and when its task is done they are the outcome of its file: `Runs.compile`, if
nested loads give what requests come to.
-/

namespace ModGraph

open Json (Value)
open Loader (Job)
open Relation (ReflTransGen TransGen)
open Source (Expr Statement Program)

namespace Loader

variable {w : World} {l l' : Loader} {α β γ δ : Type}

/-! ## Slots hold outcomes -/

/-- A slot tells what the file of its key comes to, unless its module is in progress. -/
def Tells (w : World) (l : Loader) (key : String) : Slot → Prop
  | .loading _ => True
  | .ready id => (l.graph.entry id).isLoaded = true ∧
      ∀ h : w.Acyclic (keyFile key), w.outcome (keyFile key) h = .ok (l.graph.entry id).module.exports
  | .poisoned e => ∀ h : w.Acyclic (keyFile key), w.outcome (keyFile key) h = .error e

/-- An entry exports what a builtin module exports. -/
structure Provides (w : World) (l : Loader) (name : String) (id : EntryId) : Prop where
  inRange : id < l.graph.size
  loaded : (l.graph.entry id).isLoaded = true
  exports : (l.graph.entry id).module.exports = w.builtin name

/-- A loader that evaluates modules in a world, in which every slot tells the outcome of its file. -/
structure Reflects (w : World) (l : Loader) : Prop extends Consistent l where
  sees : l.Sees w
  compilers : l.compilers = .standard
  parsing : l.cache.parsing = false
  slot : ∀ {key p s}, l.cache.slot? key = some (p, s) → l.Tells w key s
  builtin : ∀ {name id}, l.cache.builtins.get? name = some id → l.Provides w name id

/-- Loaded modules are the same, and the cache holds what it held or something that it may hold. -/
theorem Reflects.of_slots (h : l.Reflects w) (hc : l'.Consistent) (hs : l'.Sees w)
    (hcompilers : l'.compilers = l.compilers) (hparsing : l'.cache.parsing = l.cache.parsing)
    (hsize : l.graph.size ≤ l'.graph.size)
    (hentry : ∀ {id}, id < l.graph.size → (l.graph.entry id).isLoaded = true →
      (l'.graph.entry id).module = (l.graph.entry id).module)
    (hslot : ∀ {key p s}, l'.cache.slot? key = some (p, s) →
      (∃ p', l.cache.slot? key = some (p', s)) ∨ l'.Tells w key s)
    (hbuiltin : ∀ {name id}, l'.cache.builtins.get? name = some id →
      l.cache.builtins.get? name = some id ∨ l'.Provides w name id) : l'.Reflects w := by
  refine { hc with
    sees := hs
    compilers := hcompilers.trans h.compilers
    parsing := hparsing.trans h.parsing
    slot := fun {key p s} hk => ?_
    builtin := fun {name id} hb => ?_ }
  · rcases hslot hk with ⟨p', hk'⟩ | htells
    · have htells := h.slot hk'
      cases s with
      | loading id => trivial
      | poisoned e => exact htells
      | ready id =>
        obtain ⟨hloaded, hout⟩ := htells
        have hmodule := hentry (h.keyed hk' rfl).1 hloaded
        refine ⟨?_, fun hacyclic => ?_⟩
        · rw [Entry.isLoaded, hmodule]
          exact hloaded
        · rw [hmodule]
          exact hout hacyclic
    · exact htells
  · rcases hbuiltin hb with hb | hprovides
    · obtain ⟨hlt, hloaded, hexports⟩ := h.builtin hb
      have hmodule := hentry hlt hloaded
      refine ⟨Nat.lt_of_lt_of_le hlt hsize, ?_, ?_⟩
      · rw [Entry.isLoaded, hmodule]
        exact hloaded
      · rw [hmodule]
        exact hexports
    · exact hprovides

/-- Only what is remembered and reported changes. -/
theorem Reflects.of_graph (h : l.Reflects w) (ht : Tidy l l') (hs : l'.Sees w)
    (hcompilers : l'.compilers = l.compilers) (hcache : l'.cache = l.cache) (hg : l'.graph = l.graph) :
    l'.Reflects w := by
  have hspared : Spares (fun _ => False) l l' := Spares.of_graph ht hcache hg
  refine h.of_slots (hspared h.toConsistent).consistent hs hcompilers ?_ ?_ ?_ ?_ ?_
  · rw [hcache]
  · rw [hg]
  · intro id _ _
    rw [hg]
  · intro key p s hk
    exact .inl ⟨p, hcache ▸ hk⟩
  · intro name id hb
    exact .inl (hcache ▸ hb)

theorem Reflects.noted (h : l.Reflects w) (events : List Event) : (l.noted events).Reflects w :=
  h.of_graph (Tidy.noted l events) (h.sees.elsewhere ⟨rfl, rfl, rfl, rfl, rfl⟩) rfl rfl rfl

/-! ## Runs that agree with an outcome -/

/-- A run that succeeds does so with a value that is good for the outcome, and one that fails does so with
its error, in a loader that reflects the world; or it fails for the limit on nesting. -/
def Agrees (w : World) (l : Loader) (action : LoadM α) (outcome : Except LoadError β)
    (good : α → β → Loader → Prop) : Prop :=
  match l.run action with
  | (.ok a, l') => ∃ b, outcome = .ok b ∧ good a b l'
  | (.error e, l') => e.isTooDeep = true ∨ l'.Reflects w ∧ outcome = .error e

namespace Agrees

variable {action : LoadM α} {outcome : Except LoadError β} {good : α → β → Loader → Prop}

theorem pure {a : α} {b : β} (h : good a b l) : Agrees w l (Pure.pure a) (.ok b) good := ⟨b, rfl, h⟩

theorem throw {e : LoadError} (h : l.Reflects w) :
    Agrees w l (MonadExcept.throw e : LoadM α) (.error e : Except LoadError β) good := .inr ⟨h, rfl⟩

/-- Runs agree step by step. -/
theorem bind {better : γ → δ → Loader → Prop} {next : α → LoadM γ} {then' : β → Except LoadError δ}
    (h : Agrees w l action outcome good)
    (hnext : ∀ a b l', good a b l' → Agrees w l' (next a) (then' b) better) :
    Agrees w l (action >>= next) (outcome >>= then') better := by
  unfold Agrees at h ⊢
  rw [run_bind]
  generalize l.run action = r at h ⊢
  obtain ⟨e | a, l'⟩ := r
  · rcases h with hdeep | ⟨hl', rfl⟩
    · exact .inl hdeep
    · exact .inr ⟨hl', rfl⟩
  · obtain ⟨b, rfl, hgood⟩ := h
    exact hnext a b l' hgood

end Agrees

/-! ## Modules that are evaluated -/

/-- The module of a file is being evaluated in an entry, with a format and exports so far. The files of all
modules in progress asked for it, directly or through others. -/
structure Runs (w : World) (file : Path) (id : EntryId) (format : Format) (exports : Value)
    (l : Loader) : Prop extends Reflects w l where
  running : ∃ key p, l.InProgress key p id
  referrer : l.referrer? (some id) = some (w.referrer id file format)
  exports : (l.graph.entry id).module.exports = exports
  above : ∀ {key p id'}, l.InProgress key p id' → ReflTransGen w.Asks (keyFile key) file

namespace Runs

variable {file : Path} {id : EntryId} {format format' : Format} {x y : Value}

theorem holds (h : l.Runs w file id format x) : l.Holds id := by
  obtain ⟨key, p, hp⟩ := h.running
  exact ⟨(h.keyed hp rfl).1, .inr ⟨key, p, hp⟩⟩

theorem unloaded (h : l.Runs w file id format x) : (l.graph.entry id).isLoaded = false := by
  obtain ⟨key, p, hp⟩ := h.running
  exact h.unfinished hp

/-- A nested load leaves the module as it is. -/
theorem of_spared (h : l.Runs w file id format x) (hr : l'.Reflects w)
    (hs : Spared (fun _ => False) l l') : l'.Runs w file id format x := by
  obtain ⟨key, p, hp⟩ := h.running
  have hentry := hs.entry h.holds not_false
  refine { hr with
    running := ⟨key, p, (hs.progress _ _ _).mpr hp⟩
    referrer := ?_
    exports := ?_
    above := fun hp => h.above ((hs.progress _ _ _).mp hp) }
  · rw [← h.referrer]
    simp only [referrer?, Option.map_some, hentry.module, hentry.format, hentry.package]
  · rw [hentry.module]
    exact h.exports

/-- The compiler writes to the module's entry. -/
theorem update (h : l.Runs w file id format x) {f : Entry → Entry} (hf : ∀ e : Entry, e.Retains (f e))
    (hreferrer : ∀ e : Entry, e.isLoaded = false → (f e).module.filename = e.module.filename ∧
      (f e).module.paths = e.module.paths ∧ (e.format = format → (f e).format = format'))
    (hexports : (f (l.graph.entry id)).module.exports = y) :
    ({ l with graph := l.graph.update id f } : Loader).Runs w file id format' y := by
  have hcompiles : Compiles id (Spares (· = id)) := Spares.compiles rfl
  have hspared := hcompiles.updateEntry hf l h.toConsistent
  have hself : (l.graph.update id f).entry id = f (l.graph.entry id) :=
    Graph.entry_update_self _ _ h.holds.inRange
  have hreflects : ({ l with graph := l.graph.update id f } : Loader).Reflects w := by
    refine h.of_slots hspared.consistent (h.sees.elsewhere ⟨rfl, rfl, rfl, rfl, rfl⟩) rfl rfl hspared.size ?_
      (fun hk => .inl ⟨_, hk⟩) fun hb => .inl hb
    · intro id' _ hloaded
      have hne : id ≠ id' := by
        rintro rfl
        rw [h.unloaded] at hloaded
        cases hloaded
      exact congrArg Entry.module (Graph.entry_update_of_ne _ _ hne)
  refine { hreflects with running := h.running, referrer := ?_, exports := ?_, above := h.above }
  · obtain ⟨hfile, hpaths, hformat⟩ := hreferrer _ h.unloaded
    have href := h.referrer
    simp only [referrer?, Option.map_some, Option.some.injEq, World.referrer, Referrer.mk.injEq] at href ⊢
    obtain ⟨-, rfl, rfl, hpackage, hpath⟩ := href
    rw [hself, hfile, hformat rfl, (hf _).package, hpaths]
    exact ⟨trivial, rfl, rfl, hpackage, hpath⟩
  · exact (congrArg (·.module.exports) hself).trans hexports

theorem noted (h : l.Runs w file id format x) (events : List Event) :
    (l.noted events).Runs w file id format x :=
  { h.toReflects.noted events with
    running := h.running
    referrer := h.referrer
    exports := h.exports
    above := h.above }

/-- Reading does not touch the module. -/
theorem of_quiet (h : l.Runs w file id format x) (hq : Quiet l l') (ht : Tidy l l') (he : l.Evolves l')
    (hs : l'.Sees w) : l'.Runs w file id format x := by
  have hreflects := h.toReflects.of_graph ht hs he.compilers hq.cache hq.graph
  have hspared : Spares (fun _ => False) l l' := Spares.of_graph ht hq.cache hq.graph
  exact h.of_spared hreflects (hspared h.toConsistent)

theorem source (h : l.Runs w file id format x) (hf : file.Canonical) :
    Agrees w l (sourceOf file) (w.source file) fun s s' l' => s = s' ∧ l'.Runs w file id format x := by
  have hruns := h.of_quiet (Quiet.reading.source file l) ((Tidy.compiles id).source file l)
    (Evolves.reading.source file l) (h.sees.run_sourceOf hf).2
  have hresult := (h.sees.run_sourceOf hf).1
  unfold Agrees
  rw [← hresult]
  generalize l.run (sourceOf file) = r at hruns ⊢
  obtain ⟨e | s, l'⟩ := r
  · exact .inr ⟨hruns.toReflects, rfl⟩
  · exact ⟨s, rfl, rfl, hruns⟩

theorem program (h : l.Runs w file id format x) (hf : file.Canonical) :
    Agrees w l (programOf file) (w.program file) fun p p' l' =>
      p = p' ∧ w.program file = .ok p ∧ l'.Runs w file id format x := by
  have hruns := h.of_quiet (Quiet.reading.program file l) ((Tidy.compiles id).program file l)
    (Evolves.reading.program file l) (h.sees.run_programOf hf).2
  have hresult := (h.sees.run_programOf hf).1
  unfold Agrees
  rw [← hresult]
  generalize l.run (programOf file) = r at hruns ⊢
  obtain ⟨e | p, l'⟩ := r
  · exact .inr ⟨hruns.toReflects, rfl⟩
  · exact ⟨p, rfl, rfl, rfl, hruns⟩

end Runs

/-! ## Instructions -/

/-- Nested loads give what requests of a file come to. -/
structure Serves (w : World) (outcome : Path → Except LoadError Value) (file : Path)
    (nested : NestedLoad) : Prop where
  tidy : ∀ request id, Follows Tidy (nested request id)
  spares : ∀ request id, Follows (Spares fun _ => False) (nested request id)
  agrees : ∀ {l id format x request}, l.Runs w file id format x →
    (∀ child, w.resolve file format request = .ok (.file child) → w.Asks file child) →
    Agrees w l (nested request id) (w.ask outcome file format request) fun child v l' =>
      l'.Reflects w ∧ (l'.graph.entry child).module.exports = v

/-- The module is left with the exports that its file comes to. -/
def Leaves (w : World) (file : Path) (id : EntryId) (_ : Unit) (v : Value) (l : Loader) : Prop :=
  ∃ format, l.Runs w file id format v

namespace Runs

variable {file : Path} {id : EntryId} {format format' : Format} {x y : Value} {nested : NestedLoad}
  {outcome : Path → Except LoadError Value} {request : String} {next : Task}
  {result : Except LoadError β} {good : Unit → β → Loader → Prop}

/-- A nested load gives what the request comes to, and leaves the module as it is. -/
theorem require (h : l.Runs w file id format x) (hn : Serves w outcome file nested)
    (hasks : ∀ child, w.resolve file format request = .ok (.file child) → w.Asks file child) :
    Agrees w l (nested request id) (w.ask outcome file format request) fun child v l' =>
      l'.Runs w file id format x ∧ (l'.graph.entry child).module.exports = v := by
  have hspared := hn.spares request id l h.toConsistent
  have hagrees := hn.agrees h hasks
  unfold Agrees at hagrees ⊢
  generalize l.run (nested request id) = r at hspared hagrees ⊢
  obtain ⟨e | child, l'⟩ := r
  · exact hagrees
  · obtain ⟨v, hv, hreflects, hexports⟩ := hagrees
    exact ⟨v, hv, h.of_spared hreflects hspared, hexports⟩

theorem setFormat (h : l.Runs w file id format x) (format' : Format)
    (hnext : ∀ l', l'.Runs w file id format' x → Agrees w l' (runTask nested id file next) result good) :
    Agrees w l (runTask nested id file (.setFormat format' next)) result good := by
  have hrun : l.run (runTask nested id file (.setFormat format' next)) =
      ({ l with graph := l.graph.update id fun e => e.setFormat format' } : Loader).run
        (runTask nested id file next) := by
    rw [runTask, run_bind, run_setFormat, andThen_ok, h.unloaded]
    rfl
  unfold Agrees at hnext ⊢
  rw [hrun]
  refine hnext _ (h.update (fun e => .setFormat e format') (fun e hloaded => ?_) ?_)
  · simp [Entry.setFormat, hloaded]
  · rw [Entry.setFormat, h.unloaded]
    exact h.exports

theorem assign (h : l.Runs w file id format x) (name : Option String) (v : Value)
    (hnext : ∀ l', l'.Runs w file id format (x.assigned name v) →
      Agrees w l' (runTask nested id file next) result good) :
    Agrees w l (runTask nested id file (.assign name v next)) result good := by
  cases name with
  | none =>
    refine hnext _ (h.update (f := (Entry.setExports · v)) (fun e => ?_) (fun e _ => ?_) rfl)
    · exact ⟨rfl, rfl, rfl, rfl, rfl, rfl⟩
    · exact ⟨rfl, rfl, fun h => h⟩
  | some name =>
    refine hnext _ (h.update (f := (Entry.setExport · name v)) (fun e => ?_) (fun e _ => ?_) ?_)
    · exact ⟨rfl, rfl, rfl, rfl, rfl, rfl⟩
    · exact ⟨rfl, rfl, fun h => h⟩
    · exact congrArg (Value.set · name v) h.exports

/-- Modules are loaded one after the other. -/
theorem requireAll (h : l.Runs w file id format x) (hn : Serves w outcome file nested)
    {requests : List String} (hasks : ∀ request ∈ requests, ∀ child,
      w.resolve file format request = .ok (.file child) → w.Asks file child)
    (hnext : ∀ l', l'.Runs w file id format x → Agrees w l' (runTask nested id file next) result good) :
    Agrees w l (runTask nested id file (.requireAll requests next))
      (requests.mapM (w.ask outcome file format) >>= fun _ => result) good := by
  induction requests generalizing l with
  | nil => exact hnext l h
  | cons request rest ih =>
    have hrest : (request :: rest).mapM (w.ask outcome file format) >>= (fun _ => result) =
        w.ask outcome file format request >>= fun _ =>
          rest.mapM (w.ask outcome file format) >>= fun _ => result := by
      simp only [List.mapM_cons, bind_assoc, pure_bind]
    rw [hrest]
    refine (h.require hn (hasks request List.mem_cons_self)).bind fun child v l' hl' => ?_
    exact ih hl'.1 fun request hr => hasks request (List.mem_cons_of_mem _ hr)

/-! ## Programs -/

/-- The statements of a legacy module are evaluated one after the other. -/
theorem evaluateLegacy (h : l.Runs w file id .legacy x) (hn : Serves w outcome file nested)
    {cx : CompileContext} (hcx : cx.filename = file) {statements : List Statement}
    (hasks : ∀ request ∈ statements.filterMap Statement.request?, ∀ child,
      w.resolve file .legacy request = .ok (.file child) → w.Asks file child) :
    Agrees w l (runTask nested id file (ModGraph.evaluateLegacy cx statements))
      (statements.foldlM (legacyStep (w.ask outcome file .legacy) file) x) (Leaves w file id) := by
  induction statements generalizing l x with
  | nil => exact .pure ⟨_, h⟩
  | cons first rest ih =>
    have hfirst : ∀ request, first.request? = some request → ∀ child,
        w.resolve file .legacy request = .ok (.file child) → w.Asks file child := fun request hr =>
      hasks request (List.mem_filterMap.mpr ⟨first, List.mem_cons_self, hr⟩)
    have hrest : ∀ {l : Loader} {x}, l.Runs w file id .legacy x → Agrees w l
        (runTask nested id file (ModGraph.evaluateLegacy cx rest))
        (rest.foldlM (legacyStep (w.ask outcome file .legacy) file) x) (Leaves w file id) := by
      intro l x h
      refine ih h fun request hr => hasks request ?_
      obtain ⟨s, hs, hr⟩ := List.mem_filterMap.mp hr
      exact List.mem_filterMap.mpr ⟨s, List.mem_cons_of_mem _ hs, hr⟩
    rw [List.foldlM_cons]
    cases first with
    | imports request => exact hrest h
    | exports name e => exact hrest h
    | assigns name e =>
      cases e with
      | literal v => exact h.assign name v fun l' h' => hrest h'
      | require request property =>
        have hstep : legacyStep (w.ask outcome file .legacy) file x (.assigns name (.require request property))
            >>= rest.foldlM (legacyStep (w.ask outcome file .legacy) file) =
            w.ask outcome file .legacy request >>= fun v =>
              rest.foldlM (legacyStep (w.ask outcome file .legacy) file)
                (x.assigned name (v.property property)) := by
          simp only [legacyStep, bind_assoc, pure_bind]
        rw [hstep]
        refine (h.require hn (hfirst request rfl)).bind fun child v l' hl' => ?_
        obtain ⟨h', rfl⟩ := hl'
        have hvalue : ∀ d : Dependency, d.value property = d.exports.property property := fun d => by
          cases property <;> rfl
        refine h'.assign name _ fun l'' h'' => ?_
        rw [hvalue] at h''
        exact hrest h''
    | evaluates e =>
      cases e with
      | literal v => exact hrest h
      | require request property =>
        have hstep : legacyStep (w.ask outcome file .legacy) file x (.evaluates (.require request property))
            >>= rest.foldlM (legacyStep (w.ask outcome file .legacy) file) =
            w.ask outcome file .legacy request >>= fun _ =>
              rest.foldlM (legacyStep (w.ask outcome file .legacy) file) x := by
          simp only [legacyStep, bind_assoc, pure_bind]
        rw [hstep]
        exact (h.require hn (hfirst request rfl)).bind fun child v l' hl' => hrest hl'.1
    | throws message =>
      rw [ModGraph.evaluateLegacy, CompileContext.fail, hcx]
      exact .throw h.toReflects

/-- The statements of a declarative module are evaluated one after the other. -/
theorem evaluateDeclarative (h : l.Runs w file id .declarative x) {cx : CompileContext}
    (hcx : cx.filename = file) (statements : List Statement) :
    Agrees w l (runTask nested id file (ModGraph.evaluateDeclarative cx statements))
      (statements.foldlM (declarativeStep file) x) (Leaves w file id) := by
  induction statements generalizing l x with
  | nil => exact .pure ⟨_, h⟩
  | cons first rest ih =>
    rw [List.foldlM_cons]
    cases first with
    | imports request => exact ih h
    | exports name e =>
      cases e with
      | literal v => exact h.assign (some name) v fun l' h' => ih h'
      | require request property => exact ih h
    | assigns name e => exact ih h
    | evaluates e => exact ih h
    | throws message =>
      rw [ModGraph.evaluateDeclarative, CompileContext.fail, hcx]
      exact .throw h.toReflects

/-- A program is compiled in its format. -/
theorem checked (h : l.Runs w file id format x) (hx : x = .object []) (hn : Serves w outcome file nested)
    {cx : CompileContext} (hcx : cx.filename = file) (hparsing : cx.parsing = false) {p : Program}
    (hbody : w.body file = w.checked file p) :
    Agrees w l (runTask nested id file ((w.format file p).run cx p))
      (w.checked file p >>= w.value outcome file) (Leaves w file id) := by
  subst hx
  unfold World.checked at hbody ⊢
  generalize w.format file p = format at hbody ⊢
  dsimp only at hbody ⊢
  have hasks : ∀ (hfault : p.statements.findSome? format.fault? = none) request, request ∈ p.requests →
      ∀ child, w.resolve file format request = .ok (.file child) → w.Asks file child := by
    intro hfault request hr child hchild
    rw [hfault] at hbody
    exact World.asks_of_resolve hbody hr hchild
  cases format with
  | legacy =>
    refine h.setFormat .legacy fun l' h' => ?_
    dsimp only [Format.fault?] at hasks ⊢
    cases hfault : p.statements.findSome? Statement.legacyFault? with
    | some fault =>
      dsimp only
      rw [CompileContext.fail, hcx]
      exact .throw h'.toReflects
    | none =>
      dsimp only
      rw [hparsing, if_neg Bool.false_ne_true]
      exact h'.evaluateLegacy hn hcx (hasks hfault)
  | declarative =>
    refine h.setFormat .declarative fun l' h' => ?_
    dsimp only [Format.fault?] at hasks ⊢
    cases hfault : p.statements.findSome? Statement.declarativeFault? with
    | some fault =>
      dsimp only
      rw [CompileContext.fail, hcx]
      exact .throw h'.toReflects
    | none =>
      dsimp only
      rw [hparsing, if_neg Bool.false_ne_true]
      exact h'.requireAll hn (fun request hr => hasks hfault request (mem_requests_of_mem_imports hr))
        fun l'' h'' => h''.evaluateDeclarative hcx _

/-- The compilers that come with the loader leave a module with the exports that its file comes to. -/
theorem compile (h : l.Runs w file id format x) (hx : x = .object []) (hf : file.Canonical)
    (hn : Serves w outcome file nested) {cx : CompileContext} (hcx : cx.filename = file)
    (hmode : cx.mode = (w.package file).options.mode) (hparsing : cx.parsing = false) :
    Agrees w l (runTask nested id file ((CompilerTable.standard.forPath file).task cx))
      (w.evaluate outcome file) (Leaves w file id) := by
  subst hcx
  let P (task : Task) : Prop := ∀ l, l.Runs w cx.filename id format x →
    Agrees w l (runTask nested id cx.filename task) (w.evaluate outcome cx.filename) (Leaves w cx.filename id)
  refine World.task_standard (P := P) cx hmode ?read ?report ?program ?json ?native l h
  case read =>
    intro hbody next hnext l h
    rw [World.evaluate, hbody, bind_assoc]
    refine (h.program hf).bind fun p p' l' hl' => ?_
    obtain ⟨rfl, hp, h'⟩ := hl'
    have hvalue : w.evaluate outcome cx.filename = w.checked cx.filename p >>= w.value outcome cx.filename := by
      rw [World.evaluate, hbody, hp]
      rfl
    exact hvalue ▸ hnext p hp l' h'
  case report => exact fun event next hnext l h => hnext _ (h.noted [event])
  case program =>
    intro p hbody l h
    rw [World.evaluate, hbody]
    exact h.checked hx hn rfl hparsing hbody
  case json =>
    intro hbody l h
    rw [World.evaluate, hbody, bind_assoc]
    refine h.setFormat .legacy fun l' h' => ?_
    refine (h'.source hf).bind fun s s' l'' hl'' => ?_
    obtain ⟨rfl, h''⟩ := hl''
    dsimp only [World.valueOf]
    cases Value.read s.toList with
    | ok v =>
      show Agrees w l'' (runTask nested id cx.filename (.assign none v .done)) (.ok v) (Leaves w cx.filename id)
      exact h''.assign none v fun l₃ h₃ => .pure ⟨_, h₃⟩
    | error fault =>
      show Agrees w l'' (runTask nested id cx.filename (cx.fail _)) (.error _) (Leaves w cx.filename id)
      exact .throw h''.toReflects
  case native =>
    intro hbody l h
    rw [World.evaluate, hbody]
    exact .throw h.toReflects

end Runs
end Loader
end ModGraph
