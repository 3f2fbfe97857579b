import ModGraph.Proofs.Lockstep
import ModGraph.Proofs.Outcome
import ModGraph.Proofs.Partitions

/-!
# What modules ask for

The compilers that come with the loader ask for what the program of their file asks for, all of it, and in the
format of that program, whether they evaluate the module or only parse it (`CompilerTable.demands_standard`).
While a module is compiled, its requests are made from its file, in that format, and with the search paths of the
format with which it began (`Loader.Demanding`). Search paths matter only where a request fails without them, and
so what is found is what the request of the file stands for (`World.resolve_of_searcher`).
-/

namespace ModGraph

open Json (Value)
open Loader (Job)
open Relation (ReflTransGen)
open Source (Program Statement)

/-- The requests of what is found in a file. -/
def Body.requests : Body → List String
  | .value _ => []
  | .program _ p => p.requests

/-! ## Tasks -/

namespace Task

variable {w : World} {file : Path} {format : Format} {asked : List String} {next : Task} {p : Program}

/-- A task of a file, which has set a format and made some requests, makes only requests of the file's program and
in its format, and comes to its end only when it has made them all. -/
def Demands (w : World) (file : Path) (format : Format) (asked : List String) : Task → Prop
  | .done => ∃ body, w.body file = .ok body ∧ ∀ request ∈ body.requests, request ∈ asked
  | .fail _ => True
  | .setFormat format' next => next.Demands w file format' asked
  | .report _ next => next.Demands w file format asked
  | .readSource next => ∀ source, w.source file = .ok source → (next source).Demands w file format asked
  | .readProgram next => ∀ p, w.program file = .ok p → (next p).Demands w file format asked
  | .require request next => (∃ p, w.body file = .ok (.program format p) ∧ request ∈ p.requests) ∧
      ∀ d, (next d).Demands w file format (request :: asked)
  | .setExports _ next => next.Demands w file format asked
  | .setExport _ _ next => next.Demands w file format asked

/-- The module that the next instruction asks for. -/
def request? : Task → Option String
  | .require request _ => some request
  | _ => none

theorem demands_requireAll (hbody : w.body file = .ok (.program format p)) {requests : List String}
    (hr : ∀ request ∈ requests, request ∈ p.requests)
    (h : ∀ asked', (∀ request, request ∈ asked ∨ request ∈ requests → request ∈ asked') →
      next.Demands w file format asked') : (requireAll requests next).Demands w file format asked := by
  induction requests generalizing asked with
  | nil => exact h asked fun request hmem => hmem.resolve_right List.not_mem_nil
  | cons first rest ih =>
    refine ⟨⟨p, hbody, hr first List.mem_cons_self⟩, fun _ => ?_⟩
    refine ih (fun request hmem => hr request (List.mem_cons_of_mem _ hmem)) fun asked' h' => h asked' ?_
    intro request hmem
    refine h' request ?_
    simp only [List.mem_cons] at hmem ⊢
    tauto

theorem demands_assign (name : Option String) (v : Value) (h : next.Demands w file format asked) :
    (assign name v next).Demands w file format asked := by
  cases name <;> exact h

variable (cx : CompileContext)

/-- A legacy module asks for what is in its statements, one after the other. -/
theorem demands_evaluateLegacy (hbody : w.body file = .ok (.program .legacy p)) {statements : List Statement}
    (hfault : ∀ s ∈ statements, s.legacyFault? = none)
    (hr : ∀ request ∈ statements.filterMap Statement.request?, request ∈ p.requests)
    (hasked : ∀ request ∈ p.requests, request ∈ asked ∨ request ∈ statements.filterMap Statement.request?) :
    (evaluateLegacy cx statements).Demands w file .legacy asked := by
  induction statements generalizing asked with
  | nil => exact ⟨_, hbody, fun request hmem => (hasked request hmem).resolve_right List.not_mem_nil⟩
  | cons first rest ih =>
    obtain ⟨hfirst, hrest⟩ := List.forall_mem_cons.mp hfault
    -- a statement asks for one module or for none
    have hnone : first.request? = none → ∀ asked', asked' = asked →
        (evaluateLegacy cx rest).Demands w file .legacy asked' := by
      rintro hfirst _ rfl
      rw [List.filterMap_cons_none hfirst] at hr hasked
      exact ih hrest hr hasked
    have hsome : ∀ request, first.request? = some request →
        (∃ p, w.body file = .ok (.program .legacy p) ∧ request ∈ p.requests) ∧
          (evaluateLegacy cx rest).Demands w file .legacy (request :: asked) := by
      intro request hfirst
      rw [List.filterMap_cons_some hfirst] at hr hasked
      refine ⟨⟨p, hbody, hr request List.mem_cons_self⟩, ih hrest (fun r hmem => hr r (List.mem_cons_of_mem _ hmem)) ?_⟩
      intro r hmem
      have := hasked r hmem
      simp only [List.mem_cons] at this ⊢
      tauto
    cases first with
    | imports request => cases hfirst
    | exports name e => cases hfirst
    | assigns name e =>
      cases e with
      | literal v => exact demands_assign name v (hnone rfl _ rfl)
      | require request property =>
        exact ⟨(hsome request rfl).1, fun d => demands_assign name _ (hsome request rfl).2⟩
    | evaluates e =>
      cases e with
      | literal v => exact hnone rfl _ rfl
      | require request property => exact ⟨(hsome request rfl).1, fun _ => (hsome request rfl).2⟩
    | throws message => trivial

/-- A declarative module that runs asks for nothing any more. -/
theorem demands_evaluateDeclarative (hbody : w.body file = .ok (.program format p))
    (hasked : ∀ request ∈ p.requests, request ∈ asked) (statements : List Statement) :
    (evaluateDeclarative cx statements).Demands w file format asked := by
  induction statements with
  | nil => exact ⟨_, hbody, hasked⟩
  | cons first rest ih =>
    unfold evaluateDeclarative
    split
    · exact ⟨_, hbody, hasked⟩
    · next heq =>
      cases heq
      exact ih
    · trivial
    · next heq =>
      cases heq
      exact ih

theorem demands_runLegacy (hbody : p.statements.findSome? Statement.legacyFault? = none →
    w.body file = .ok (.program .legacy p)) : (runLegacy cx p).Demands w file format asked := by
  show Demands w file .legacy asked _
  cases hfault : p.statements.findSome? Statement.legacyFault? with
  | some fault => trivial
  | none =>
    dsimp only
    split
    · exact demands_requireAll (hbody hfault) (fun _ hmem => hmem) fun asked' h' =>
        ⟨_, hbody hfault, fun request hmem => h' request (.inr hmem)⟩
    · exact demands_evaluateLegacy cx (hbody hfault) (List.findSome?_eq_none_iff.mp hfault) (fun _ hmem => hmem)
        fun _ hmem => .inr hmem

/-- What can stand in a declarative module asks for nothing but by its imports. -/
theorem mem_imports_of_mem_requests (hfault : p.statements.findSome? Statement.declarativeFault? = none)
    {request : String} (h : request ∈ p.requests) : request ∈ p.imports := by
  obtain ⟨s, hs, hrequest⟩ := List.mem_filterMap.mp h
  have hnone := List.findSome?_eq_none_iff.mp hfault s hs
  refine List.mem_filterMap.mpr ⟨s, hs, ?_⟩
  cases s with
  | imports r => exact hrequest
  | throws message => cases hrequest
  | assigns name e => cases hnone
  | exports name e => cases e <;> [cases hrequest; cases hnone]
  | evaluates e => cases e <;> [cases hrequest; cases hnone]

theorem demands_runDeclarative (hbody : p.statements.findSome? Statement.declarativeFault? = none →
    w.body file = .ok (.program .declarative p)) : (runDeclarative cx p).Demands w file format asked := by
  show Demands w file .declarative asked _
  cases hfault : p.statements.findSome? Statement.declarativeFault? with
  | some fault => trivial
  | none =>
    refine demands_requireAll (hbody hfault) (fun _ hmem => mem_requests_of_mem_imports hmem) fun asked' h' => ?_
    have hasked : ∀ request ∈ p.requests, request ∈ asked' := fun request hmem =>
      h' request (.inr (mem_imports_of_mem_requests hfault hmem))
    split
    · exact ⟨_, hbody hfault, hasked⟩
    · exact demands_evaluateDeclarative cx (hbody hfault) hasked _

end Task

/-- The compilers that come with the loader ask for what the program of their file asks for. -/
theorem CompilerTable.demands_standard (w : World) (file : Path) (parsing : Bool) (format : Format) :
    ((standard.forPath file).task ⟨file, (w.package file).options.mode, parsing⟩).Demands w file format [] := by
  let cx : CompileContext := ⟨file, (w.package file).options.mode, parsing⟩
  refine World.task_standard (P := Task.Demands w file format []) cx rfl (fun _ _ h => h) (fun _ _ h => h)
    (fun p hbody => ?_) (fun hbody source hsource => ?_) fun _ => trivial
  · have hbody : p.statements.findSome? (w.format file p).fault? = none →
        w.body file = .ok (.program (w.format file p) p) := by
      intro hfault
      rw [hbody, World.checked, hfault]
      rfl
    generalize w.format file p = format' at hbody ⊢
    cases format' with
    | legacy => exact Task.demands_runLegacy cx hbody
    | declarative => exact Task.demands_runDeclarative cx hbody
  · dsimp only
    cases hv : Value.read source.toList with
    | error fault => trivial
    | ok v =>
      refine ⟨.value v, ?_, nofun⟩
      rw [hbody, hsource]
      show World.valueOf file source = _
      unfold World.valueOf
      rw [hv]
      rfl

/-! ## Search paths -/

/-- What is found without some folders is found with them. -/
theorem Resolver.resolve_append {r : Resolver} {fs : FileSystem} {q : Query} {found : Resolution}
    (h : r.resolve fs q = .ok found) (dirs : List Path) :
    r.resolve fs { q with search := q.search ++ dirs } = .ok found := by
  have hstarts : ∃ more, ({ q with search := q.search ++ dirs } : Query).starts fs = q.starts fs ++ more := by
    unfold Query.starts
    dsimp only
    split
    · exact ⟨[], rfl⟩
    · exact ⟨dirs.map fun dir => dir.join ⟨q.specifier⟩, by simp [Query.base]⟩
  obtain ⟨more, hmore⟩ := hstarts
  unfold resolve at h ⊢
  rw [hmore, List.findSome?_append]
  dsimp only
  split at h
  · next hbuiltin =>
    rw [if_pos hbuiltin]
    exact h
  · next hbuiltin =>
    rw [if_neg hbuiltin]
    split at h
    · next path hpath =>
      rw [hpath]
      exact h
    · cases h

namespace World

variable {w : World} {id : EntryId} {file : Path} {format before : Format} {request : String} {found : Resolution}

/-- Whatever search paths a module has, what its requests find is what they stand for. -/
theorem resolve_of_searcher
    (h : Loader.resolution w.resolver w.files (splitQuery request).1 (some (w.searcher id file format before)) false
      = .ok found) : w.resolve file format request = .ok found := by
  by_cases hsame : (w.package file).options.cjs.paths = true → file.extension ≠ some "mjs" → before = .legacy
  · rw [← h, resolution_searcher hsame]
  -- the module searches, and in fewer folders than legacy modules do
  obtain ⟨hpaths, hext, hbefore⟩ : (w.package file).options.cjs.paths = true ∧ file.extension ≠ some "mjs" ∧
      before ≠ .legacy := by
    simpa only [Classical.not_imp] using hsame
  have hsearches : ((w.package file).options.cjs.paths && file.extension != some "mjs") = true := by
    simp [hpaths, hext]
  have hglobal : ∀ q, Loader.globalQuery? w.resolver q (some (w.searcher id file format before)) =
      some { q with
        format := .legacy
        search := if file.directory.moduleFolders.isEmpty then w.resolver.legacySearchPaths file.directory
          else file.directory.moduleFolders } := by
    simp [Loader.globalQuery?, Option.filter_some, Loader.searchesGlobally, searcher, hpaths, hext,
      Loader.searchPaths, hbefore]
  have hquery : Loader.query (splitQuery request).1 (some (w.searcher id file format before)) false =
      ⟨(splitQuery request).1, some file, format, false, []⟩ := rfl
  unfold Loader.resolution at h
  simp only [hquery, hglobal] at h
  unfold resolve
  dsimp only
  generalize w.resolver.resolve w.files ⟨(splitQuery request).1, some file, format, false, []⟩ = first at h ⊢
  cases first with
  | ok found => exact h
  | error e =>
    dsimp only at h ⊢
    rw [if_pos hsearches]
    split at h
    · exact h
    · generalize hfewer : w.resolver.resolve w.files _ = r at h
      cases r with
      | error e' => cases h
      | ok found' =>
        cases h
        have hmore := Resolver.resolve_append hfewer w.resolver.globalPaths
        rw [Resolver.legacySearchPaths, hmore]
        rfl

end World

namespace Loader

variable {w : World} {parsing : Bool} {l l' l₂ : Loader} {job : Job} {limit : Nat} {before format : Format}
  {asked : List String} {t t' : Task}

/-! ## Modules at work -/

/-- A loader that watches a world and whose ready slots are where they belong; the search paths of their modules
follow their formats. -/
structure Surveyed (w : World) (l : Loader) : Prop extends Watching w l, Sorted w.package w.program l where
  paths : ∀ {key p id}, l.cache.get? p key = some (.ready id) → (l.graph.entry id).module.paths
    = searchPaths w.resolver (w.package (keyFile key)) (l.graph.entry id).format (keyFile key)

/-- A module is compiled, with the search paths of the format with which it began. It has a format now, it made some
requests, and this is left of its task. -/
structure Demanding (w : World) (parsing : Bool) (job : Job) (before format : Format) (asked : List String) (t : Task)
    (l : Loader) : Prop extends Employed w parsing job l where
  referrer : l.referrer? (some job.id) = some (w.searcher job.id job.target.filename format before)
  task : t.Demands w job.target.filename format asked

namespace Demanding

/-- What the request of a module finds is what it stands for. -/
theorem resolve (h : l.Demanding w parsing job before format asked t) {request : String} {found : Resolution}
    (hfound : l.resolved request (some job.id) false = .ok found) :
    w.resolve job.target.filename format request = .ok found := by
  unfold resolved at hfound
  rw [h.referrer, h.sees.resolver, h.sees.files] at hfound
  exact World.resolve_of_searcher hfound

/-- The compiler of a module that is due begins. -/
theorem begun (h : l.Engaged w parsing) (hs : l.Surveyed w) (hd : l.Due job) :
    ((l.occupied job).begun job.id job.target.filename).Demanding w parsing job (l.graph.entry job.id).format
      (l.graph.entry job.id).format [] ((l.occupied job).compilation job.id job.target.filename).task := by
  have hpackage : job.target.package = w.package job.target.filename := hd.package_eq hs.toSorted
  have hentry := hd.package_entry hs.toSorted
  obtain ⟨name, hname⟩ := named_occupied l job job.id
  have hbegun := (l.occupied job).entry_begun_self job.target.filename ((size_occupied l job).symm ▸ hd.ready.inRange)
  have hpaths : (l.occupied job).initialPaths job.id job.target.filename
      = searchPaths w.resolver (w.package job.target.filename) (l.graph.entry job.id).format job.target.filename := by
    have hresolver : (l.occupied job).resolver = w.resolver := by
      rw [← h.sees.resolver]
      unfold Loader.occupied
      split <;> rfl
    unfold initialPaths
    simp only [hname, hresolver, hentry, hpackage]
    split
    · rfl
    · next hsome =>
      rcases hd.parsed_or_new with hslot | ⟨-, -, hnew⟩
      · exact hd.keyFile_key ▸ hs.paths (Cache.get?_of_slot? hslot)
      · rw [hnew] at hsome
        exact absurd rfl hsome
  refine { Employed.begun h hd with referrer := ?_, task := ?_ }
  · simp only [referrer?, Option.map_some, hbegun, hname, hpaths, hentry, hpackage]
    rfl
  · rw [compilation_occupied, h.compilers, hentry, hpackage]
    exact CompilerTable.demands_standard w _ _ _

theorem next (h : l.Demanding w parsing job before format asked t) (he : l'.Employed w parsing job)
    (hfile : (l'.graph.entry job.id).module.filename = (l.graph.entry job.id).module.filename)
    (hpaths : (l'.graph.entry job.id).module.paths = (l.graph.entry job.id).module.paths)
    (hpackage : (l'.graph.entry job.id).package = (l.graph.entry job.id).package) {format' : Format}
    (hformat : (l.graph.entry job.id).format = format → (l'.graph.entry job.id).format = format')
    {asked' : List String} (ht : t'.Demands w job.target.filename format' asked') :
    l'.Demanding w parsing job before format' asked' t' := by
  refine { he with referrer := ?_, task := ht }
  have href := h.referrer
  simp only [referrer?, Option.map_some, Option.some.injEq, World.searcher, Referrer.mk.injEq] at href ⊢
  obtain ⟨-, hfile₀, hformat₀, hpackage₀, hpaths₀⟩ := href
  exact ⟨trivial, hfile.trans hfile₀, hformat hformat₀, hpackage.trans hpackage₀, hpaths.trans hpaths₀⟩

/-- What does not touch the module leaves its entry as it is. -/
theorem of_graph (h : l.Demanding w parsing job before format asked t) (he : l'.Employed w parsing job)
    (hg : l'.graph = l.graph) (ht : t'.Demands w job.target.filename format asked) :
    l'.Demanding w parsing job before format asked t' := by
  refine h.next he ?_ ?_ ?_ (fun hformat => ?_) ht
  · rw [hg]
  · rw [hg]
  · rw [hg]
  · rw [hg]
    exact hformat

/-- The compiler writes to its module. -/
theorem write (h : l.Demanding w parsing job before format asked t) {f : Entry → Entry}
    (hf : ∀ e : Entry, e.Recast (f e)) {format' : Format}
    (hformat : (l.graph.entry job.id).format = format → (f (l.graph.entry job.id)).format = format')
    (ht : t'.Demands w job.target.filename format' asked) :
    ({ l with graph := l.graph.update job.id f } : Loader).Demanding w parsing job before format' asked t' := by
  have hself : (l.graph.update job.id f).entry job.id = f (l.graph.entry job.id) :=
    Graph.entry_update_self _ _ h.inRange
  obtain ⟨exports, hmodule⟩ := (hf (l.graph.entry job.id)).module
  refine h.next (h.toEmployed.write fun e => (hf e).retains) ?_ ?_ ?_ (fun hl => ?_) ht
  · exact (congrArg (·.module.filename) hself).trans (by rw [hmodule])
  · exact (congrArg (·.module.paths) hself).trans (by rw [hmodule])
  · exact (congrArg Entry.package hself).trans (hf _).package
  · exact (congrArg Entry.format hself).trans (hformat hl)

/-- An instruction leaves what is to be done afterwards, and a request is made when it was answered. -/
theorem step (h : l.Demanding w parsing job before format asked t)
    (hs : l.run (stepTask (loadNested limit) job.id job.target.filename t) = (.ok (some t'), l')) :
    ∃ format', l'.Demanding w parsing job before format' (t.request?.toList ++ asked) t' := by
  have ht := h.task
  cases t with
  | done => cases hs
  | fail e => cases hs
  | setFormat format' next =>
    obtain ⟨_, l₁, hfirst, hrest⟩ := run_bind_eq_ok.mp hs
    cases hrest
    rw [run_setFormat, h.unfinished h.running] at hfirst
    cases hfirst
    refine ⟨format', h.write (Entry.Recast.setFormat · format') (fun _ => ?_) ht⟩
    simp [Entry.setFormat, h.unfinished h.running]
  | report event next =>
    cases hs
    exact ⟨format, h.of_graph (h.toEmployed.of_safely (Watching.loads.noted l event) (Evolves.report event l)) rfl ht⟩
  | readSource next =>
    obtain ⟨source, l₁, hfirst, hrest⟩ := run_bind_eq_ok.mp hs
    cases hrest
    obtain ⟨hresult, he⟩ := h.toEmployed.source
    have hg := (Quiet.reading.source job.target.filename l).graph
    rw [hfirst] at hresult he hg
    exact ⟨format, h.of_graph he hg (ht source hresult.symm)⟩
  | readProgram next =>
    obtain ⟨p, l₁, hfirst, hrest⟩ := run_bind_eq_ok.mp hs
    cases hrest
    obtain ⟨hresult, he⟩ := h.toEmployed.program
    have hg := (Quiet.reading.program job.target.filename l).graph
    rw [hfirst] at hresult he hg
    exact ⟨format, h.of_graph he hg (ht p hresult.symm)⟩
  | require request next =>
    obtain ⟨child, l₁, hnested, hrest⟩ := run_bind_eq_ok.mp hs
    cases hrest
    obtain ⟨he, hspared⟩ := h.toEmployed.nested limit request job.id
    rw [hnested] at he hspared
    exact ⟨format, h.next he (by rw [hspared.module]) (by rw [hspared.module]) hspared.package
      (hspared.format.trans ·) (ht.2 _)⟩
  | setExports v next =>
    cases hs
    exact ⟨format, h.write (Entry.Recast.setExports · v) (fun hformat => hformat) ht⟩
  | setExport name v next =>
    cases hs
    exact ⟨format, h.write (fun e => Entry.Recast.setExports e _) (fun hformat => hformat) ht⟩

theorem steps {a b : Task × Loader} (h : a.2.Demanding w parsing job before format asked a.1)
    (hs : ReflTransGen (Moment.TaskStep (loadNested limit) job.id job.target.filename) a b) :
    ∃ format' asked', b.2.Demanding w parsing job before format' asked' b.1 := by
  induction hs with
  | refl => exact ⟨_, _, h⟩
  | tail _ hstep ih =>
    obtain ⟨_, _, h'⟩ := ih
    obtain ⟨_, h''⟩ := h'.step hstep
    exact ⟨_, _, h''⟩

end Demanding

/-- A module that was compiled made all requests of its file. -/
theorem Demanding.of_prepare (h : l.Engaged w parsing) (hs : l.Surveyed w) (hd : l.Due job) {c : Compilation}
    (hrun : (l.occupied job).run (prepare (loadNested limit) job.id job.target.filename) = (.ok c, l₂)) :
    ∃ format asked, l₂.Demanding w parsing job c.format format asked .done := by
  have hbegun := Demanding.begun h hs hd
  obtain ⟨rfl, htask⟩ := compiled_of_prepare hrun
  rw [compilation_occupied] at hbegun htask ⊢
  exact Demanding.steps hbegun (Moment.taskSteps_of_run htask)

/-- At the end of a compilation the search paths of a module follow its format. -/
theorem Demanding.paths_marked {c : Compilation} (h : l.Demanding w parsing job c.format format asked t) :
    let e := (l.marked job.id job.target.filename c).graph.entry job.id
    e.module.paths = searchPaths w.resolver (w.package job.target.filename) e.format job.target.filename := by
  have href := h.referrer
  simp only [referrer?, Option.map_some, Option.some.injEq, World.searcher, Referrer.mk.injEq] at href
  obtain ⟨-, -, hformat, hpackage, hpaths⟩ := href
  dsimp only
  rw [entry_marked_self _ _ _ h.inRange, Entry.marked, hformat, hpackage, h.sees.resolver]
  by_cases hsame : format = c.format
  · subst hsame
    cases c.parsing <;> simp [Entry.setLoaded, hformat, hpaths]
  · cases c.parsing <;> simp [Entry.setLoaded, Entry.setPaths, hformat, hsame]

/-! ## Surveys -/

/-- A module in progress is not ready. -/
theorem Consistent.ne_of_ready (hc : l.Consistent) {key k : String} {p q : Partition} {id id' : EntryId}
    (hin : l.InProgress key p id) (hk : l.cache.get? q k = some (.ready id')) : id ≠ id' := by
  rintro rfl
  have hslot := hc.exclusive.slot?_eq_some.mpr hk
  have hkey := (hc.keyed hin rfl).2.symm.trans (hc.keyed hslot rfl).2
  rw [InProgress, hkey, hslot] at hin
  cases hin

namespace Surveyed

/-- What was ready stays as it is, as far as formats and search paths go, and the search paths of the rest follow
their formats. -/
theorem of_slots (h : l.Surveyed w) (hw : l'.Watching w) (hs : l'.Sorted w.package w.program)
    (hslot : ∀ {key p id}, l'.cache.get? p key = some (.ready id) →
      (∃ q, l.cache.get? q key = some (.ready id) ∧
        (l'.graph.entry id).module.paths = (l.graph.entry id).module.paths ∧
        (l'.graph.entry id).format = (l.graph.entry id).format) ∨
        (l'.graph.entry id).module.paths
          = searchPaths w.resolver (w.package (keyFile key)) (l'.graph.entry id).format (keyFile key)) :
    l'.Surveyed w :=
  { hw, hs with
    paths := fun hk => by
      rcases hslot hk with ⟨q, hk', hpaths, hformat⟩ | hpaths
      · rw [hpaths, hformat]
        exact h.paths hk'
      · exact hpaths }

theorem of_graph (h : l.Surveyed w) (hw : l'.Watching w) (hs : l'.Sorted w.package w.program)
    (hc : ∀ p, l'.cache.slots p = l.cache.slots p) (hg : l'.graph = l.graph) : l'.Surveyed w := by
  refine h.of_slots hw hs fun {key p id} hk => .inl ⟨p, ?_, by rw [hg], by rw [hg]⟩
  rw [Cache.get?, ← hc]
  exact hk

/-- What is surveyed stays so. -/
def Lasts (w : World) (l l' : Loader) : Prop := l.Surveyed w → l'.Surveyed w

instance : IsPreorder Loader (Lasts w) where
  refl _ h := h
  trans _ _ _ h h' := h' ∘ h

theorem added (h : l.Surveyed w) (hw : l'.Watching w) (hs : l'.Sorted w.package w.program)
    (hc : ∀ p, l'.cache.slots p = l.cache.slots p) {e : Entry} (hg : l'.graph = (l.graph.add e).1) :
    l'.Surveyed w := by
  refine h.of_slots hw hs fun {key p id} hk => ?_
  have hk' : l.cache.get? p key = some (.ready id) := by
    rw [Cache.get?, ← hc]
    exact hk
  have hentry : l'.graph.entry id = l.graph.entry id := by
    rw [hg, Graph.entry_add_of_lt _ _ (h.filed hk').inRange]
  exact .inl ⟨p, hk', by rw [hentry], by rw [hentry]⟩

theorem seeks : Seeks (Lasts w) where
  toIsPreorder := inferInstance
  noted l _ he h := h.of_graph (Watching.seeks.noted l he h.toWatching) (Sorted.seeks.noted l he h.toSorted)
    (fun _ => rfl) rfl
  packaged hr h := h.of_graph (Watching.seeks.packaged hr h.toWatching) (Sorted.seeks.packaged hr h.toSorted)
    (fun _ => rfl) rfl
  linked l referrer request child h := by
    refine h.of_slots (Watching.seeks.linked l referrer request child h.toWatching)
      (Sorted.seeks.linked l referrer request child h.toSorted) fun {key p id} hk => ?_
    cases referrer with
    | none => exact .inl ⟨p, hk, rfl, rfl⟩
    | some r =>
      have hspared := Entry.Spared.update l.graph r.id (f := fun e => e.addChild request child)
        (fun e => ⟨rfl, rfl, rfl, rfl, rfl⟩) id
      exact .inl ⟨p, hk, congrArg Module.paths hspared.module, hspared.format⟩
  builtinOf l name h := by
    have hw := Watching.seeks.builtinOf l name h.toWatching
    have hs := Sorted.seeks.builtinOf l name h.toSorted
    unfold Loader.builtinOf at hw hs ⊢
    cases hb : l.cache.builtins.get? name with
    | some id => exact h
    | none =>
      rw [hb] at hw hs
      exact h.added hw hs (fun p => by cases p <;> rfl) rfl
  classified l key h := by
    refine h.of_slots (Watching.seeks.classified l key h.toWatching) (Sorted.seeks.classified l key h.toSorted)
      fun {k q id} hk => .inl ?_
    obtain ⟨cache, events, heq, -⟩ :=
      l.classified_frame key (Format.ofPath? (keyFile key)) (l.packageOf (keyFile key)).isUnexposed
    have hentry : (l.classified key (Format.ofPath? (keyFile key)) (l.packageOf (keyFile key)).isUnexposed).2.graph
        = l.graph := by rw [heq]
    rw [hentry]
    rcases get?_classified hk with hk' | ⟨rfl, id', hid, hk', -⟩
    · exact ⟨q, hk', rfl, rfl⟩
    · cases hid
      exact ⟨_, hk', rfl, rfl⟩
  added l e h := h.added (Watching.seeks.added l e h.toWatching) (Sorted.seeks.added l e h.toSorted)
    (fun _ => rfl) rfl

theorem occupied (h : l.Surveyed w) (hd : l.Due job) : (l.occupied job).Surveyed w := by
  refine h.of_slots (h.toWatching.occupied hd) (h.toSorted.occupied hd) fun {key p id} hk => .inl ?_
  obtain ⟨-, ⟨⟩⟩ | ⟨-, hk⟩ := slot_of_occupied hk
  obtain ⟨name, hname⟩ := named_occupied l job id
  exact ⟨p, hk, by rw [hname], by rw [hname]⟩

theorem engaged (h : l.Surveyed w) (hc : l.Consistent) : l.Engaged w l.cache.parsing :=
  { hc, h.toWatching with
    compilers := h.compilers
    parsing := rfl }

/-- The search paths of a module that was compiled follow its format. -/
theorem concluded (h : l.Surveyed w) (hc : l.Consistent) (hd : l.Due job) {c : Compilation}
    (hrun : (l.occupied job).run (prepare (loadNested limit) job.id job.target.filename) = (.ok c, l₂))
    (h₂ : l₂.Surveyed w) : ((l₂.marked job.id job.target.filename c).concluded job).Surveyed w := by
  obtain ⟨hc₂, hin⟩ := hd.ready.inProgress_of_prepare hc hrun
  obtain ⟨format, asked, hdone⟩ := Demanding.of_prepare (h.engaged hc) h hd hrun
  have hw := Watching.loads.succeeds hc hd hrun (fun _ => h₂.toWatching) h.toWatching
  have hs := h.toSorted.concluded hc hd hrun h₂.toSorted
  have hspared := entry_concluded (l₂.marked job.id job.target.filename c) job
  have hmarked : (l₂.marked job.id job.target.filename c).Loading job.partition job.target.key job.id :=
    Cache.get?_of_slot? hin
  refine h₂.of_slots hw hs fun {key p id} hk => ?_
  obtain ⟨⟨-, rfl⟩, ⟨⟩⟩ | ⟨-, hk⟩ := slot_of_concluded hmarked hk
  · -- the slot of the module itself
    right
    rw [(hspared job.id).module, (hspared job.id).format, hd.keyFile_key]
    exact hdone.paths_marked
  · -- the slots of other modules
    have hne : id ≠ job.id := by
      rintro rfl
      exact hc₂.ne_of_ready hin hk rfl
    have hentry := hspared id
    rw [entry_marked _ _ _ hne] at hentry
    exact .inl ⟨p, hk, congrArg Module.paths hentry.module, hentry.format⟩

theorem loads : Loads (Lasts w) (Lasts w) where
  toOutcomes := .self
  trail h h' := h' ∘ h
  report event := fun l h => h.of_graph (Watching.loads.report event l h.toWatching)
    (Sorted.loads.report event l h.toSorted) (fun _ => rfl) rfl
  source {l key _ _} hc hin h := by
    have hquiet := Quiet.reading.source (keyFile key) l
    exact h.of_graph (Watching.loads.source hc hin h.toWatching) (Sorted.loads.source hc hin h.toSorted)
      (fun p => by rw [hquiet.cache]) hquiet.graph
  program {l key _ _} hc hin h := by
    have hquiet := Quiet.reading.program (keyFile key) l
    exact h.of_graph (Watching.loads.program hc hin h.toWatching) (Sorted.loads.program hc hin h.toSorted)
      (fun p => by rw [hquiet.cache]) hquiet.graph
  seek hc request parent isMain := seeks.seek hc.toOrderly request parent isMain
  write {l key p id} hc hin f hf h := by
    refine h.of_slots (Watching.loads.write hc hin hf h.toWatching) (Sorted.loads.write hc hin hf h.toSorted)
      fun {k q id'} hk => ?_
    have hne : id ≠ id' := hc.ne_of_ready hin hk
    exact .inl ⟨q, hk, by rw [Graph.entry_update_of_ne _ _ hne], by rw [Graph.entry_update_of_ne _ _ hne]⟩
  fails {l l₂ job limit e} hc hd hrun h hl := by
    have h₂ := h (hl.occupied hd)
    refine h₂.of_slots (Watching.loads.fails hc hd hrun (fun _ => h₂.toWatching) hl.toWatching)
      (Sorted.loads.fails hc hd hrun (fun _ => h₂.toSorted) hl.toSorted) fun {key p id} hk => .inl ?_
    obtain ⟨-, ⟨⟩⟩ | ⟨-, hk⟩ := slot_of_vacated hk
    have hgraph := graph_vacated l₂ job e
    exact ⟨p, hk, by rw [hgraph], by rw [hgraph]⟩
  succeeds hc hd hrun h hl := hl.concluded hc hd hrun (h (hl.occupied hd))

end Surveyed

end Loader
end ModGraph
