import ModGraph.Proofs.Completeness

/-!
# Resolving agrees with loading

A request that a module made while it was compiled, and that was answered, can be resolved again afterwards on its
behalf, and the key is that of the answer (`Loader.resolve_of_answers`). What is asked for later is the same as what was
asked for then, as the file, the format and the package of a module follow from its file; only its search paths may
have changed. They are those of its format when it is ready, and when its compiler ran they were those of the format
with which it began. So there is one exception: a declarative module that was taken for a legacy one when its compiler
began, of a package in which legacy modules search the global folders (`Loader.resolve_global`).
-/

namespace ModGraph

open Loader (Job)
open Relation (ReflTransGen)
open Source (Program)

/-- A program that is found in a file is that of the file, and its format is the one that it has there. -/
theorem World.of_body {w : World} {file : Path} {format : Format} {p : Program}
    (h : w.body file = .ok (.program format p)) : w.program file = .ok p ∧ w.format file p = format := by
  unfold body at h
  split at h
  · cases hsource : w.source file with
    | error e =>
      rw [hsource] at h
      cases h
    | ok source =>
      rw [hsource] at h
      change valueOf file source = _ at h
      unfold valueOf at h
      split at h <;> cases h
  · cases h
  · cases hp : w.program file with
    | error e =>
      rw [hp] at h
      cases h
    | ok p' =>
      rw [hp] at h
      change w.checked file p' = _ at h
      unfold checked at h
      dsimp only at h
      split at h <;> cases h
      exact ⟨rfl, rfl⟩

/-- A program that is found in a file has the format that the file demands. -/
theorem World.declarative_iff_of_body {w : World} {file : Path} {format : Format} {prog : Program}
    (h : w.body file = .ok (.program format prog)) :
    format = .declarative ↔ IsDeclarative file (w.package file).options.mode (w.program file) := by
  obtain ⟨hp, rfl⟩ := of_body h
  exact format_eq_declarative_iff hp

namespace Moment

/-! ## First requests -/

/-- The request to which a task comes in so many instructions, and the loader then. -/
def requestIn (nested : NestedLoad) (id : EntryId) (filename : Path) : Nat → Task × Loader → Option (String × Loader)
  | 0, _ => none
  | steps + 1, a =>
    match a.1 with
    | .require request _ => some (request, a.2)
    | t =>
      match a.2.run (Loader.stepTask nested id filename t) with
      | (.ok (some rest), l) => requestIn nested id filename steps (rest, l)
      | _ => none

theorem taskSteps_of_requestIn {nested : NestedLoad} {id : EntryId} {filename : Path} {request : String} {l : Loader}
    {steps : Nat} {a : Task × Loader} (h : requestIn nested id filename steps a = some (request, l)) :
    ∃ next, ReflTransGen (TaskStep nested id filename) a (.require request next, l) := by
  induction steps generalizing a with
  | zero => cases h
  | succ steps ih =>
    obtain ⟨t, l'⟩ := a
    unfold requestIn at h
    split at h
    · next htask =>
      obtain rfl := htask
      cases h
      exact ⟨_, .refl⟩
    · split at h
      · next rest l₁ hstep =>
        obtain ⟨next, hnext⟩ := ih h
        exact ⟨next, .head (b := (rest, l₁)) hstep hnext⟩
      · cases h

/-- The moment at which the module that is asked for makes its first request, if its task comes to one in so many
instructions. -/
def first? (m : Moment) (steps : Nat) : Option Moment :=
  match m.limit, m.loader.run (do
      Loader.report (.enters m.request .resolving)
      Loader.seek m.request m.parent m.isMain) with
  | limit + 1, (.ok (.needs job), l) =>
    let l := l.occupied job
    let task := (l.compilation job.id job.target.filename).task
    (requestIn (Loader.loadNested m.limit) job.id job.target.filename steps
      (task, l.begun job.id job.target.filename)).map fun (request, l) =>
        ⟨limit, request, some job.id, false, job :: m.stack, l⟩
  | _, _ => none

theorem asks_of_first? {m m' : Moment} {steps : Nat} (h : m.first? steps = some m') : m.Asks m' := by
  unfold first? at h
  split at h
  · next hlimit hseek =>
    obtain ⟨⟨request, l⟩, hrequest, rfl⟩ := Option.map_eq_some_iff.mp h
    obtain ⟨next, hsteps⟩ := taskSteps_of_requestIn hrequest
    exact .intro hlimit hseek (Loader.run_occupy _ _) (Loader.run_beginCompile _ _ _) hsteps
  · cases h

end Moment

namespace Loader

variable {w : World} {l l' l₁ l₂ : Loader} {job : Job} {limit : Nat} {request : String} {parent : Option EntryId}
  {isMain : Bool} {id : EntryId}

/-! ## The keys of builtin modules -/

/-- The entries of builtin modules have their names as keys. -/
def Labelled (l : Loader) : Prop :=
  ∀ name id, l.cache.builtins.get? name = some id → id < l.graph.size ∧ (l.graph.entry id).key = name

/-- What is labelled stays so. -/
def Labels (l l' : Loader) : Prop := l.Labelled → l'.Labelled

namespace Labels

instance : IsPreorder Loader Labels where
  refl _ h := h
  trans _ _ _ h h' := h' ∘ h

theorem of_builtins (hb : l'.cache.builtins = l.cache.builtins) (hg : l.graph.Develops l'.graph) : Labels l l' := by
  intro h name id hid
  obtain ⟨hlt, hkey⟩ := h name id (hb ▸ hid)
  exact ⟨Nat.lt_of_lt_of_le hlt hg.size, (hg.entry hlt).key.trans hkey⟩

theorem of_quiet (h : Quiet l l') : Labels l l' := of_builtins (by rw [h.cache]) (by rw [h.graph]; exact .refl _)

theorem builtinOf (l : Loader) (name : String) : Labels l (l.builtinOf name).2 := by
  unfold Loader.builtinOf
  cases l.cache.builtins.get? name with
  | some id => exact fun h => h
  | none =>
    intro h name' id hid
    have hgrown := Graph.Develops.add l.graph (l.builtinEntry name)
    change (l.cache.builtins.insert name l.graph.size).get? name' = some id at hid
    rw [Table.get?_insert] at hid
    split at hid
    · next hname =>
      cases hid
      exact ⟨by simp, (congrArg Entry.key (Graph.entry_add_self _ _)).trans hname⟩
    · obtain ⟨hlt, hkey⟩ := h name' id hid
      exact ⟨Nat.lt_of_lt_of_le hlt hgrown.size, (hgrown.entry hlt).key.trans hkey⟩

theorem seeks : Seeks Labels where
  toIsPreorder := inferInstance
  noted _ _ _ := of_builtins rfl (.refl _)
  packaged _ := of_builtins rfl (.refl _)
  linked l referrer request child := by
    cases referrer with
    | none => exact fun h => h
    | some r => exact of_builtins rfl (.update _ _ fun e => ⟨rfl, rfl, fun hl => hl⟩)
  builtinOf := builtinOf
  classified l key := by
    obtain ⟨cache, events, heq, hb, -⟩ :=
      l.classified_frame key (Format.ofPath? (keyFile key)) (l.packageOf (keyFile key)).isUnexposed
    rw [heq]
    exact of_builtins hb (.refl _)
  added l e := of_builtins rfl (.add _ _)

theorem vacated (l : Loader) (job : Job) (e : LoadError) : Labels l (l.vacated job e) := by
  refine of_builtins ?_ (develops_vacated l job e)
  unfold Loader.vacated
  split <;> simp [Cache.poison, Cache.rollback]

theorem occupied (l : Loader) (job : Job) : Labels l (l.occupied job) := by
  refine of_builtins ?_ ⟨Nat.le_of_eq (size_occupied l job).symm, fun {id} _ => ?_⟩
  · unfold Loader.occupied
    split <;> simp
  · obtain ⟨name, hname⟩ := named_occupied l job id
    rw [hname]
    exact ⟨rfl, rfl, fun hl => hl⟩

theorem loads : Loads Labels Labels where
  toOutcomes := .self
  trail h h' := h' ∘ h
  report _ := fun _ => of_builtins rfl (.refl _)
  source {l _ _ _} _ _ := of_quiet (Quiet.reading.source _ l)
  program {l _ _ _} _ _ := of_quiet (Quiet.reading.program _ l)
  seek hc request parent isMain := seeks.seek hc.toOrderly request parent isMain
  write _ _ _ hf := of_builtins rfl (.update _ _ fun e => .of_retains (hf e))
  fails _ _ _ h := vacated _ _ _ ∘ h ∘ occupied _ _
  succeeds {l l₂ job limit c} hc hd hrun h := by
    obtain ⟨-, hin⟩ := hd.ready.inProgress_of_prepare hc hrun
    have hmarked : Labels l₂ (l₂.marked job.id job.target.filename c) :=
      of_builtins rfl (evolves_marked _ _ _ _).graph
    have hconcluded : Labels (l₂.marked job.id job.target.filename c)
        ((l₂.marked job.id job.target.filename c).concluded job) :=
      of_builtins (builtins_concluded _ _) (evolves_concluded (l := l₂.marked job.id job.target.filename c) hin).graph
    exact hconcluded ∘ hmarked ∘ h ∘ occupied _ _

end Labels

/-! ## The keys of answers -/

/-- What is found without compiling anything has the key of what the request was resolved to. -/
theorem key_of_found (hc : l.Consistent) (hl : l.Labelled)
    (hseek : l.run (seek request parent isMain) = (.ok (.found id), l')) :
    ∃ found, l.resolved request parent isMain = .ok found ∧ id < l'.graph.size ∧
      (l'.graph.entry id).key = keyOf request found := by
  have hgrown := (Evolves.respects.seek request parent isMain l).graph
  have hlabelled := Labels.loads.seek hc request parent isMain hl
  rw [hseek] at hgrown hlabelled
  obtain ⟨name, hfound, rfl, hl'⟩ | ⟨file, l₁, hfound, hhit, -⟩ := found_of_seek hc.toOrderly hseek
  · have hcache : l'.cache = ((l.retried request parent isMain).builtinOf name).2.cache := by
      rw [hl', cache_linked]
    exact ⟨_, hfound, hlabelled name _ (hcache ▸ builtins_builtinOf _ name)⟩
  · obtain ⟨s, hs, hused⟩ := held_of_hit (congrArg Prod.fst hhit)
    obtain ⟨p, hslot⟩ := slot?_of_held hs
    have hentry : s.entry? = some id := by
      rcases hused with rfl | ⟨rfl, -⟩ <;> rfl
    obtain ⟨hlt, hkey⟩ := hc.keyed hslot hentry
    exact ⟨_, hfound, Nat.lt_of_lt_of_le hlt hgrown.size, (hgrown.entry hlt).key.trans hkey⟩

/-- An answer has the key of what the request was resolved to. -/
theorem key_of_action {m : Moment} (hc : m.loader.Consistent) (hl : m.loader.Labelled)
    (hrun : m.loader.run m.action = (.ok id, l')) :
    ∃ found, m.loader.resolved m.request m.parent m.isMain = .ok found ∧ id < l'.graph.size ∧
      (l'.graph.entry id).key = keyOf m.request found := by
  have hnoted := hc.noted [.enters m.request .resolving]
  rw [Moment.run_action, run_seeking] at hrun
  generalize hseek : (m.loader.noted [.enters m.request .resolving]).run _ = r at hrun
  obtain ⟨e | finding, l₁⟩ := r
  · cases hrun
  cases finding with
  | found id' =>
    cases hrun
    have hfound := key_of_found hnoted hl hseek
    exact hfound
  | needs job =>
    obtain ⟨file, hfound, htarget, -⟩ := needs_of_seek hnoted.toOrderly hseek
    have hc₁ := hnoted.sought m.request m.parent m.isMain
    rw [hseek] at hc₁
    have hd : l₁.Due job := ⟨_, m.request, m.parent, m.isMain, hnoted, hseek⟩
    have hgrown := (Evolves.respects.perform (Evolves.respects.loadNested m.limit) job l₁).graph
    have hresult : ∀ {c l₂}, l₁.run (perform (loadNested m.limit) job) = (.ok c, l₂) → c = job.id := by
      intro c l₂ hperform
      rw [Spares.run_perform (Spares.loadNested m.limit) hc₁ hd.ready] at hperform
      generalize (l₁.occupied job).run _ = r at hperform
      obtain ⟨e | c', l₃⟩ := r <;> cases hperform
      rfl
    dsimp only at hrun
    generalize hperform : l₁.run (perform (loadNested m.limit) job) = r at hrun hgrown
    obtain ⟨e | c, l₂⟩ := r
    · cases hrun
    · cases hrun
      obtain rfl := hresult hperform
      refine ⟨.file file, hfound, Nat.lt_of_lt_of_le hd.ready.inRange hgrown.size, ?_⟩
      refine (hgrown.entry hd.ready.inRange).key.trans (hd.ready.key.trans ?_)
      rw [htarget]
      rfl

/-! ## Moments -/

/-- What holds along a load holds at its moments. -/
theorem holds_of_asks {P : Loader → Prop} {E : Loader → Loader → Prop} (h : Loads (fun l l' => P l → P l') E)
    (ho : ∀ {l job}, l.Due job → P l → P (l.occupied job)) {m m' : Moment} (hc : m.loader.Consistent)
    (hm : P m.loader) (ha : ReflTransGen Moment.Asks m m') : P m'.loader := by
  induction ha with
  | refl => exact hm
  | tail hasks hstep ih =>
    obtain ⟨limit, job, request, next, l, -, hcompiling, rfl⟩ := Moment.asks_iff.mp hstep
    obtain ⟨l₁, hsought, -, hd, -, hran⟩ := h.compiling (Moment.consistent_of_asks hc hasks) hcompiling
    exact hran (ho hd (hsought ih))

/-- A module that is compiled is at work. -/
theorem Surveyed.demanding {m : Moment} {t : Task} (hs : m.loader.Surveyed w) (hc : m.loader.Consistent)
    (hm : m.Compiling job t l) :
    ∃ parsing before format asked, l.Demanding w parsing job before format asked t := by
  obtain ⟨l₁, hseek, htask⟩ := hm.ran
  obtain ⟨hc₁, hd⟩ := Loads.due_of_seek hc hseek
  have hs₁ : l₁.Surveyed w := by
    rw [run_seeking] at hseek
    have hsought := Surveyed.loads.seek (hc.noted [.enters m.request .resolving]) m.request m.parent m.isMain
      (Surveyed.seeks.noted m.loader rfl hs)
    rwa [hseek] at hsought
  obtain ⟨format, asked, h⟩ := Demanding.steps (Demanding.begun (hs₁.engaged hc₁) hs₁ hd) htask
  exact ⟨_, _, format, asked, h⟩

/-- What is made for a request of a task is still there at the end of the task. -/
theorem develops_of_require (limit : Nat) (id : EntryId) (filename : Path) (request : String)
    (next : Dependency → Task) (l : Loader) : (l.run (loadNested limit request id)).2.graph.Develops
      (l.run (runTask (loadNested limit) id filename (.require request next))).2.graph := by
  have hrest : ∀ t, Follows Evolves (runTask (loadNested limit) id filename t) := fun t =>
    ends_self.mp ((Evolves.respects.compiles id).runTask .self
      (fun request => ends_self.mpr (Evolves.respects.loadNested limit request id)) filename
      (Task.within_of_all Evolves.report (fun _ => trivial) (fun _ => trivial) t))
  rw [runTask, run_bind]
  generalize l.run (loadNested limit request id) = r
  obtain ⟨e | child, l₁⟩ := r
  · exact .refl _
  · exact (hrest (next ⟨_, _, _⟩) l₁).graph

/-- What is made at a moment is still there when the moment before it comes to its end. -/
theorem develops_of_asks {m m' : Moment} (hc : m.loader.Consistent) (ha : m.Asks m') :
    (m'.loader.run m'.action).2.graph.Develops (m.loader.run m.action).2.graph := by
  obtain ⟨limit, job, request, next, l, hlimit, hm, rfl⟩ := Moment.asks_iff.mp ha
  obtain ⟨l₁, hseek, htask⟩ := hm.ran
  obtain ⟨hc₁, hd⟩ := Loads.due_of_seek hc hseek
  have hrequired := develops_of_require m.limit job.id job.target.filename request next l
  rw [hlimit] at hrequired
  refine Graph.Develops.trans hrequired ?_
  rw [← hlimit, ← Moment.run_runTask_of_taskSteps htask, Moment.run_action, hseek]
  dsimp only
  rw [Spares.run_perform (Spares.loadNested m.limit) hc₁ hd.ready]
  -- what the task has left is only marked and linked afterwards, or given up
  have hprepare := (l₁.occupied job).run_prepare (loadNested m.limit) job.id job.target.filename
  generalize ((l₁.occupied job).begun job.id job.target.filename).run _ = r at hprepare ⊢
  obtain ⟨e | _, l₂⟩ := r
  · rw [hprepare]
    exact develops_vacated l₂ job e
  · obtain ⟨-, hin⟩ := hd.ready.inProgress_of_prepare hc₁ hprepare
    rw [hprepare]
    exact (evolves_marked l₂ job.id job.target.filename _).graph.trans
      (evolves_concluded (l := l₂.marked job.id job.target.filename _) hin).graph

theorem evolves_action (m : Moment) : m.loader.Evolves (m.loader.run m.action).2 :=
  Follows.reported Evolves.respects.report (Evolves.respects.answer (Evolves.respects.loadNested _) _ _ _) _ m.loader

/-! ## Between calls -/

/-- A load or a discovery. -/
def Calls (_ : Loader) : Operation → Prop
  | .load .. => True
  | .discover .. => True
  | _ => False

/-- A loader between calls, in which everything that is ready is where it belongs. -/
structure Mapped (w : World) (l : Loader) : Prop extends Resting l where
  surveyed : l.Surveyed w
  labelled : l.Labelled

theorem Pristine.mapped (h : l.Pristine) : l.Mapped l.world :=
  { h.toStarts.resting with
    surveyed := h.meshed.surveyed
    labelled := fun name id hid => by
      rw [h.fresh.cache] at hid
      cases hid }

namespace Mapped

variable {op : Operation} {m : Moment}

theorem after (h : l.Mapped w) (hop : l.Calls op) : (l.after op).Mapped w := by
  have hlabels : ∀ (l : Loader) parsing, Labels l (l.withParsing parsing) := fun _ _ => .of_builtins rfl (.refl _)
  cases op with
  | load request parent isMain =>
    have hrest : (l.after (.load request parent isMain)).Resting := h.toResting.after trivial
    exact { hrest with
      surveyed := Surveyed.loads.follows_load h.toConsistent request parent isMain h.surveyed
      labelled := Labels.loads.follows_load h.toConsistent request parent isMain h.labelled }
  | discover request parent =>
    have hrest : (l.after (.discover request parent)).Resting := h.toResting.after trivial
    exact { hrest with
      surveyed := Surveyed.loads.follows_discover h.toConsistent (fun l p hs => hs.withParsing p) request parent
        h.surveyed
      labelled := Labels.loads.follows_discover h.toConsistent hlabels request parent h.labelled }
  | _ => cases hop

/-- A call begins at a moment without modules in progress, and does not end before that does. -/
theorem beginning (h : l.Mapped w) (hm : l.beginning? op = some m) :
    m.loader.Consistent ∧ m.loader.Surveyed w ∧ m.loader.Labelled ∧ m.stack = [] ∧
      (m.loader.run m.action).2.graph.Develops (l.after op).graph := by
  unfold beginning? at hm
  split at hm
  · cases hm
    refine ⟨h.toConsistent, h.surveyed, h.labelled, rfl, ?_⟩
    rw [Loader.after, run_load]
    exact .refl _
  · next request parent =>
    cases hm
    refine ⟨h.toConsistent.withParsing true, h.surveyed.withParsing true, h.labelled, rfl, ?_⟩
    rw [Loader.after, run_discover, run_load]
    exact .refl _
  · cases hm

end Mapped

/-- While an entry is compiled in a call it asks for a module, and gets an answer. -/
def Answered (l : Loader) (op : Operation) (id : EntryId) (request : String) (child : EntryId) : Prop :=
  ∃ m, l.ComesTo op m ∧ m.stack ≠ [] ∧ m.parent = some id ∧ m.request = request ∧
    (m.loader.run m.action).1 = .ok child

/-- A call answers the first request of the module that it loads. -/
def answersFirst (l : Loader) (op : Operation) (steps : Nat) (id : EntryId) (request : String) (child : EntryId) :
    Bool :=
  ((l.beginning? op).bind (·.first? steps)).any fun m =>
    decide (m.parent = some id ∧ m.request = request ∧ (m.loader.run m.action).1 = .ok child)

theorem Answered.of_first {op : Operation} {child : EntryId} {steps : Nat}
    (h : l.answersFirst op steps id request child = true) : l.Answered op id request child := by
  obtain ⟨m, hm, hanswer⟩ := (Option.any_eq_true ..).mp h
  obtain ⟨first, hfirst, hnext⟩ := Option.bind_eq_some_iff.mp hm
  have hasks := Moment.asks_of_first? hnext
  obtain ⟨hparent, hrequest, hchild⟩ := of_decide_eq_true hanswer
  refine ⟨m, ⟨first, hfirst, .single hasks⟩, ?_, hparent, hrequest, hchild⟩
  obtain ⟨limit, job, request, next, l', -, -, rfl⟩ := Moment.asks_iff.mp hasks
  exact List.cons_ne_nil _ _

/-- What is answered while a module is compiled is what the request of its file stands for. -/
theorem Mapped.resolve_of_answered {op : Operation} {child : EntryId} (h : l.Mapped w)
    (ha : l.Answered op id request child) :
    ∃ file format prog found, w.body file = .ok (.program format prog) ∧ w.resolve file format request = .ok found ∧
      id < (l.after op).graph.size ∧ keyFile ((l.after op).graph.entry id).key = file ∧
      child < (l.after op).graph.size ∧ ((l.after op).graph.entry child).key = keyOf request found := by
  obtain ⟨m', ⟨first, hfirst, hasks⟩, hstack, hparent, rfl, hanswer⟩ := ha
  obtain ⟨hc, hs, hl, hempty, hend⟩ := h.beginning hfirst
  -- what is there at the end of the moment is there at the end of the call
  have hdevelops : ∀ m, ReflTransGen Moment.Asks first m →
      (m.loader.run m.action).2.graph.Develops (l.after op).graph := by
    intro m hm
    induction hm with
    | refl => exact hend
    | tail hreach hstep ih =>
      exact (develops_of_asks (Moment.consistent_of_asks hc hreach) hstep).trans ih
  have hgrown := hdevelops _ hasks
  have hlabelled : m'.loader.Labelled := holds_of_asks Labels.loads (fun _ => Labels.occupied _ _) hc hl hasks
  obtain rfl | ⟨m, hreach, hstep⟩ := ReflTransGen.cases_tail hasks
  -- at the first moment nothing is compiled
  · exact absurd hempty hstack
  have hc₀ := Moment.consistent_of_asks hc hreach
  have hs₀ : m.loader.Surveyed w :=
    holds_of_asks (P := fun l => l.Surveyed w) Surveyed.loads (fun hd hs => hs.occupied hd) hc hs hreach
  obtain ⟨limit, job, request, next, l₁, -, hcompiling, rfl⟩ := Moment.asks_iff.mp hstep
  cases hparent
  obtain ⟨parsing, before, format, asked, hd⟩ := hs₀.demanding hc₀ hcompiling
  obtain ⟨⟨prog, hbody, -⟩, -⟩ := hd.task
  obtain ⟨found, hfound, hlt, hkey⟩ := key_of_action hd.toConsistent hlabelled (Prod.ext hanswer rfl)
  have hstill := (evolves_action ⟨limit, request, some job.id, false, job :: m.stack, l₁⟩).graph.trans hgrown
  refine ⟨job.target.filename, format, prog, found, hbody, hd.resolve hfound,
    Nat.lt_of_lt_of_le hd.inRange hstill.size, ?_, Nat.lt_of_lt_of_le hlt hgrown.size,
    (hgrown.entry hlt).key.trans hkey⟩
  rw [(hstill.entry hd.inRange).key, (hd.keyed hd.running rfl).2, hd.file]

/-- What is ready between calls is a referrer with the search paths of its format. -/
theorem Mapped.referrer_of_ready {key : String} {p : Partition} (h : l.Mapped w)
    (hready : l.cache.get? p key = some (.ready id)) : l.referrer? (some id) =
      some (w.searcher id (keyFile key) (l.graph.entry id).format (l.graph.entry id).format) := by
  have hf := h.surveyed.filed hready
  simp only [referrer?, Option.map_some, World.searcher, hf.filename, hf.package, h.surveyed.paths hready]

/-- A request that was answered while a module was compiled is never resolved to another key than that of the answer
once the module is ready, and it is resolved to that key unless the module searches the global folders and is a
declarative one, though not by its name. -/
theorem resolve_of_answers {start : Loader} {op : Operation} {child : EntryId} {key : String} {p : Partition}
    (hs : start.Pristine) (h : Reachable (· = start) Calls l) (hop : l.Calls op)
    (ha : l.Answered op id request child) (h' : Reachable (· = l.after op) Calls l')
    (hready : l'.cache.get? p key = some (.ready id)) :
    (∀ k, (l'.run (resolve request (some id))).1 = .ok k → k = (l'.graph.entry child).key) ∧
      (((l'.graph.entry id).package.options.cjs.paths = true →
          (l'.graph.entry id).module.filename.extension ≠ some "mjs" → (l'.graph.entry id).format = .legacy) →
        (l'.run (resolve request (some id))).1 = .ok (l'.graph.entry child).key) := by
  have hl : l.Mapped start.world := h.invariant (by rintro _ rfl; exact hs.mapped) fun _ _ hl hop => hl.after hop
  obtain ⟨file, format, prog, found, hbody, hfound, hid, hfile, hchild, hkey⟩ := hl.resolve_of_answered ha
  -- entries keep their keys
  obtain ⟨hl', hgrown⟩ : l'.Mapped start.world ∧ (l.after op).graph.Develops l'.graph :=
    h'.invariant (P := fun l' => l'.Mapped start.world ∧ (l.after op).graph.Develops l'.graph)
      (by rintro _ rfl; exact ⟨hl.after hop, .refl _⟩)
      fun l₁ op ⟨hl₁, hgrown⟩ hop => ⟨hl₁.after hop, hgrown.trans (develops_after l₁ op)⟩
  have hentry : keyFile key = file := by
    rw [← hfile, ← (hgrown.entry hid).key, (hl'.keyed (hl'.exclusive.slot?_eq_some.mpr hready) rfl).2]
  have hformat : (l'.graph.entry id).format = format := by
    refine eq_of_declarative_iff ((hl'.surveyed.filed hready).format.trans ?_)
    rw [hentry]
    exact (World.declarative_iff_of_body hbody).symm
  have hf := hl'.surveyed.filed hready
  have hresolved : l'.resolved request (some id) false = resolution start.world.resolver start.world.files
      (splitQuery request).1 (some (start.world.searcher id file format format)) false := by
    unfold resolved
    rw [hl'.referrer_of_ready hready, hentry, hformat, hl'.surveyed.sees.resolver, hl'.surveyed.sees.files]
  rw [run_resolve, hresolved, (hgrown.entry hchild).key, hkey, hf.package, hf.filename, hentry, hformat]
  refine ⟨fun k hk => ?_, fun hpaths => ?_⟩
  · -- what is found is what the request stands for
    dsimp only at hk
    generalize hagain : resolution _ _ _ _ _ = again at hk
    obtain e | found' := again
    · cases hk
    · cases hk
      have hsame := World.resolve_of_searcher hagain
      rw [hfound] at hsame
      cases hsame
      rfl
  · rw [World.resolution_searcher hpaths, hfound]
    rfl

/-- One of the modules that ask for each other asks for the other one again. -/
theorem resolve_of_answers_circular :
    let l := (bare circularFiles).after (.load "./a.js" none true)
    l.cache.get? .legacy "/app/a.js" = some (.ready 0) ∧
      (l.run (resolve "./b.js" (some 0))).1 = .ok (l.graph.entry 1).key := by
  have hready : ((bare circularFiles).after (.load "./a.js" none true)).cache.get? .legacy "/app/a.js"
      = some (.ready 0) := by decide +kernel
  have hasked : (bare circularFiles).Answered (.load "./a.js" none true) 0 "./b.js" 1 :=
    Answered.of_first (show answersFirst _ _ 9 _ _ _ = true by decide +kernel)
  have hcalls : (bare circularFiles).Calls (.load "./a.js" none true) := trivial
  obtain ⟨-, hresolve⟩ := resolve_of_answers pristine_bare_circular (.start rfl) hcalls hasked (.start rfl) hready
  exact ⟨hready, hresolve (by decide +kernel)⟩

/-- A directory with a declarative module in whose package legacy modules search the global folders, and a module in a
global folder. -/
def globalFiles : FileSystem where
  nodes := ⟨[
    (["app"], .directory),
    (["package.json", "app"], .file "\x7b\"spacey\":\x7b\"cjs\":\x7b\"paths\":true\x7d\x7d\x7d".toUTF8),
    (["main.js", "app"], .file "import \"pkg\"\nexport const v = 1".toUTF8),
    (["global"], .directory),
    (["pkg.js", "global"], .file "exports.n = 2".toUTF8)]⟩
  workingDirectory := ["app"]

/-- A loader with one global folder, before the modules of `globalFiles` are asked for. -/
def searching : Loader := .ofConfig { Config.default ⟨none, none⟩ with globalPaths := [⟨"/global"⟩] } globalFiles

theorem pristine_searching : searching.Pristine := pristine_ofConfig rfl (by decide) proper_app

/-- A declarative module begins as a legacy one and finds a module in a global folder, and when it is ready it does not
find it any more. -/
theorem resolve_global :
    let l := searching.after (.load "./main.js" none true)
    searching.Pristine ∧ searching.Answered (.load "./main.js" none true) 0 "pkg" 1 ∧
      l.cache.get? .declarative "/app/main.js" = some (.ready 0) ∧ (l.graph.entry 0).isLoaded = true ∧
      (l.graph.entry 0).children.get? "pkg" = some 1 ∧
      (l.run (resolve "pkg" (some 0))).1 = .error (.moduleNotFound "pkg" (some ⟨"/app/main.js"⟩)) :=
  ⟨pristine_searching, .of_first (show answersFirst _ _ 9 _ _ _ = true by decide +kernel), by decide +kernel⟩

end Loader
end ModGraph
