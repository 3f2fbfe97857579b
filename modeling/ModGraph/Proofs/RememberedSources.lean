import ModGraph.Proofs.Renewal

/-!
# One source for each file

A loader keeps two tables for the files it has read, one of sources and one of programs. Compilers fill them wherever
they come to in a call, and between calls files are forgotten. Without a code cache the two always agree: a program that
is remembered is what its source comes to (`Loader.Literal`). And a file has one source for all of its keys: once it was
read, whoever asks for it is told the same text, later in the call and in the calls after that, until the file is
forgotten (`Loader.one_source_of_reachable`). What the file says by then does not matter.
-/

namespace ModGraph

open Relation (ReflTransGen TransGen)
open Source (Program)

/-- Whether a task has come to an instruction that reads its file. -/
def Task.reads : Task → Bool
  | .readSource _ | .readProgram _ => true
  | _ => false

/-- A file is forgotten: one of its keys is invalidated, or the cache is cleared. -/
def Operation.Drops (file : Path) : Operation → Prop
  | .invalidate key => (Path.mk (splitQuery key).1).components = file.components
  | .clearCache => True
  | _ => False

/-! ## Later in a call -/

/-- Where a call is while a module is compiled. -/
structure Site where
  /-- The moment at which the module was asked for. -/
  moment : Moment
  /-- The module. -/
  job : Loader.Job
  /-- What is left of its task. -/
  task : Task
  /-- The loader. -/
  loader : Loader

namespace Site

/-- The next instruction is run. -/
def step (s : Site) : Except LoadError (Option Task) × Loader :=
  s.loader.run (Loader.stepTask (Loader.loadNested s.moment.limit) s.job.id s.job.target.filename s.task)

/-- The moment at which a request of the module is answered. -/
def asked (s : Site) (limit : Nat) (request : String) : Moment :=
  ⟨limit, request, some s.job.id, false, s.job :: s.moment.stack, s.loader⟩

/-- From where a call is to where it is next. -/
inductive Then : Site → Site → Prop where
  /-- The module goes on with its task. -/
  | goesOn {s : Site} {t : Task} {l : Loader} (h : s.step = (.ok (some t), l)) :
      Then s { s with task := t, loader := l }
  /-- What the module asks for is compiled. -/
  | enters {s : Site} {limit : Nat} {request : String} {next : Dependency → Task} {job : Loader.Job} {t : Task}
      {l : Loader} (hlimit : s.moment.limit = limit + 1) (htask : s.task = .require request next)
      (hc : (s.asked limit request).Compiling job t l) : Then s ⟨s.asked limit request, job, t, l⟩
  /-- What the module asked for is loaded, and the module goes on. -/
  | leaves {s : Site} {limit : Nat} {request : String} {next : Dependency → Task} {job : Loader.Job} {t t' : Task}
      {l l' : Loader} (hlimit : s.moment.limit = limit + 1) (htask : s.task = .require request next)
      (hc : (s.asked limit request).Compiling job t l) (h : s.step = (.ok (some t'), l')) :
      Then ⟨s.asked limit request, job, t, l⟩ { s with task := t', loader := l' }

/-- Where a call is when the module that is asked for at a moment begins. -/
def first? (m : Moment) : Option Site :=
  match m.loader.run (do
      Loader.report (.enters m.request .resolving)
      Loader.seek m.request m.parent m.isMain) with
  | (.ok (.needs job), l) =>
    let l := l.occupied job
    some ⟨m, job, (l.compilation job.id job.target.filename).task, l.begun job.id job.target.filename⟩
  | _ => none

theorem compiling_of_first? {m : Moment} {s : Site} (h : first? m = some s) :
    s.moment = m ∧ m.Compiling s.job s.task s.loader := by
  unfold first? at h
  split at h
  · next hseek =>
    cases h
    exact ⟨rfl, hseek, Loader.run_occupy _ _, Loader.run_beginCompile _ _ _, .refl⟩
  · cases h

end Site

namespace Loader

variable {R : Loader → Loader → Prop} {l l' : Loader} {file path : Path} {text : String} {op : Operation} {s s' : Site}

/-- From inside of what a module asks for to where it is loaded. -/
theorem Respects.leaves (h : Respects R) {limit : Nat} {request : String} {next : Dependency → Task} {job : Job}
    {t : Task} (hlimit : s.moment.limit = limit + 1) (htask : s.task = .require request next)
    (hc : (s.asked limit request).Compiling job t l) :
    R (Site.step ⟨s.asked limit request, job, t, l⟩).2 s.step.2 := by
  rw [Site.step, Site.step, htask, loader_stepTask_require hlimit]
  exact h.rest_of_step hc

theorem Respects.step (h : Respects R) (s : Site) : R s.loader s.step.2 :=
  have := h.toIsPreorder
  ends_self.mp ((h.compiles s.job.id).stepTask .self (fun request => ends_self.mpr (h.loadNested _ request s.job.id))
    s.job.target.filename (Task.within_of_all h.report (fun _ => trivial) (fun _ => trivial) s.task)) s.loader

theorem Respects.of_then (h : Respects R) (hs : s.Then s') : R s.loader s'.loader := by
  have := h.toIsPreorder
  cases hs with
  | goesOn hstep =>
    have hran := h.step s
    rwa [hstep] at hran
  | enters _ _ hc => exact h.of_compiling hc
  | leaves hlimit htask hc hstep =>
    have hleft := h.leaves hlimit htask hc
    rw [hstep] at hleft
    exact IsTrans.trans _ _ _ (h.step _) hleft

/-- An instruction that reads is over before the call goes on. -/
theorem Respects.rest_of_then (h : Respects R) (hs : s.Then s') (hr : s.task.reads = true) : R s.step.2 s'.loader := by
  have := h.toIsPreorder
  cases hs with
  | goesOn hstep =>
    rw [hstep]
    exact refl _
  | enters _ htask =>
    rw [htask] at hr
    cases hr
  | leaves hlimit htask hc hstep =>
    have hleft := h.leaves hlimit htask hc
    rwa [hstep] at hleft

/-- From an instruction that reads to whatever comes later in the call. -/
theorem Respects.rest_of_later (h : Respects R) (hs : TransGen Site.Then s s') (hr : s.task.reads = true) :
    R s.step.2 s'.loader := by
  have := h.toIsPreorder
  induction hs with
  | single hs => exact h.rest_of_then hs hr
  | tail _ hs ih => exact IsTrans.trans _ _ _ ih (h.of_then hs)

/-! ## Programs and sources -/

/-- A loader without a code cache, whose programs are what the sources that it has come to. -/
structure Literal (l : Loader) : Prop where
  codeCache : l.codeCache? = none
  program : ∀ {file p}, l.programs.get? file = some p →
    ∃ text, l.sources.get? file = some text ∧ Program.scan text = .ok p

/-- A loader has a text for a file. Whoever asks for the source gets the text and the file is not read, as nothing
happens to the loader; and the program is what the text comes to. -/
structure HasText (l : Loader) (file : Path) (text : String) : Prop where
  source : ∀ {path : Path}, path.components = file.components → l.run (sourceOf path) = (.ok text, l)
  program : ∀ {path : Path}, path.components = file.components →
    (l.run (programOf path)).1 = scanOf path text ∧ (l.run (programOf path)).2.journal = l.journal

namespace Literal

theorem of_eq (h : l.Literal) (hc : l'.codeCache? = l.codeCache?) (hs : l'.sources = l.sources)
    (hp : l'.programs = l.programs) : l'.Literal where
  codeCache := hc.trans h.codeCache
  program hget := by
    rw [hs]
    exact h.program (hp ▸ hget)

theorem sourceOf (h : l.Literal) (path : Path) : (l.run (sourceOf path)).2.Literal := by
  have hreads := reads_sourceOf l path
  refine ⟨hreads.codeCache.trans h.codeCache, fun hget => ?_⟩
  obtain ⟨text, hs, hscan⟩ := h.program (hreads.programs ▸ hget)
  exact ⟨text, hreads.keeps hs, hscan⟩

theorem programOf (h : l.Literal) (path : Path) : (l.run (programOf path)).2.Literal := by
  cases hp : l.programs.get? path.components with
  | some p =>
    rw [run_programOf_of_get? hp]
    exact h
  | none =>
    have hreads := reads_sourceOf l path
    have hsource := h.sourceOf path
    rw [run_programOf_bare h.codeCache hp]
    generalize l.run (Loader.sourceOf path) = r at hreads hsource
    obtain ⟨e | text, l₁⟩ := r
    · exact hsource
    dsimp only
    cases hscan : scanOf path text with
    | error e => exact hsource
    | ok p =>
      refine ⟨hsource.codeCache, fun {file p'} hget => ?_⟩
      change (l₁.programs.insert path.components p).get? file = some p' at hget
      rw [Table.get?_insert] at hget
      split at hget
      · next heq =>
        cases hget
        exact ⟨text, heq ▸ hreads.learns hreads.found.symm, scanOf_eq_ok.mp hscan⟩
      · exact hsource.program hget

/-- However the tables are filled in a call, they agree. -/
theorem respects : Respects fun l l' => l.Literal → l'.Literal where
  refl _ h := h
  trans _ _ _ h h' := h' ∘ h
  report _ _ h := h.of_eq rfl rfl rfl
  addEntry _ _ h := h.of_eq rfl rfl rfl
  updateEntry _ _ _ _ h := h.of_eq rfl rfl rfl
  updateCache _ _ h := h.of_eq rfl rfl rfl
  builtin name l h := by
    have helsewhere := Elsewhere.builtinOf l name
    rw [run_builtin]
    exact h.of_eq helsewhere.codeCache helsewhere.sources helsewhere.programs
  package _ _ h := h.of_eq rfl rfl rfl
  source path _ h := h.sourceOf path
  program path _ h := h.programOf path

theorem withParsing (l : Loader) (parsing : Bool) (h : l.Literal) : (l.withParsing parsing).Literal :=
  h.of_eq rfl rfl rfl

/-- When a file is forgotten its program is forgotten with it. -/
theorem after (h : l.Literal) (op : Operation) : (l.after op).Literal := by
  cases op with
  | load request parent isMain => exact respects.load request parent isMain l h
  | discover request parent =>
    rw [Loader.after, run_discover]
    exact withParsing _ _ (respects.load request parent false _ (withParsing _ _ h))
  | resolve request parent =>
    rw [Loader.after, run_resolve]
    exact h.of_eq rfl rfl rfl
  | invalidate key =>
    refine ⟨h.codeCache, fun {file p} hget => ?_⟩
    change (l.programs.erase (Path.mk (splitQuery key).1).components).get? file = some p at hget
    change ∃ text, (l.sources.erase (Path.mk (splitQuery key).1).components).get? file = some text ∧ _
    rw [Table.get?_erase] at hget ⊢
    split at hget
    · cases hget
    · next hne =>
      rw [if_neg hne]
      exact h.program hget
  | clearCache => exact ⟨h.codeCache, fun hget => by cases (Table.get?_empty _).symm.trans hget⟩
  | _ => exact h.of_eq rfl rfl rfl

/-- The program of a file is what its source comes to, and asking for it does no more than asking for the source. -/
theorem run_programOf (h : l.Literal) (path : Path) :
    (l.run (Loader.programOf path)).1 = (l.run (Loader.sourceOf path)).1 >>= scanOf path ∧
      (l.run (Loader.programOf path)).2.sources = (l.run (Loader.sourceOf path)).2.sources ∧
      (l.run (Loader.programOf path)).2.journal = (l.run (Loader.sourceOf path)).2.journal := by
  cases hp : l.programs.get? path.components with
  | some p =>
    -- the source is remembered with the program
    obtain ⟨text, hs, hscan⟩ := h.program hp
    rw [run_sourceOf_of_get? hs, run_programOf_of_get? hp]
    exact ⟨(scanOf_eq_ok.mpr hscan).symm, rfl, rfl⟩
  | none =>
    rw [run_programOf_bare h.codeCache hp]
    generalize l.run (Loader.sourceOf path) = r
    obtain ⟨e | text, l₁⟩ := r
    · exact ⟨rfl, rfl, rfl⟩
    · change _ = scanOf path text ∧ _
      dsimp only
      cases scanOf path text <;> exact ⟨rfl, rfl, rfl⟩

theorem hasText (h : l.Literal) (hs : l.sources.get? file.components = some text) : l.HasText file text where
  source hpath := run_sourceOf_of_get? (hpath ▸ hs)
  program {path} hpath := by
    obtain ⟨hfound, -, hjournal⟩ := h.run_programOf path
    rw [run_sourceOf_of_get? (hpath ▸ hs)] at hfound hjournal
    exact ⟨hfound, hjournal⟩

end Literal

/-- A loader without a code cache remembers a text for a file. -/
structure Remembers (file : Path) (text : String) (l : Loader) : Prop extends Literal l where
  source : l.sources.get? file.components = some text

namespace Remembers

theorem sourceOf (h : Remembers file text l) (path : Path) : Remembers file text (l.run (sourceOf path)).2 :=
  ⟨h.toLiteral.sourceOf path, (reads_sourceOf l path).keeps h.source⟩

theorem programOf (h : Remembers file text l) (path : Path) : Remembers file text (l.run (programOf path)).2 := by
  obtain ⟨-, hsources, -⟩ := h.toLiteral.run_programOf path
  exact ⟨h.toLiteral.programOf path, hsources ▸ (h.sourceOf path).source⟩

/-- Whatever a call does, it reads no file again. -/
theorem respects (file : Path) (text : String) :
    Respects fun l l' => Remembers file text l → Remembers file text l' where
  refl _ h := h
  trans _ _ _ h h' := h' ∘ h
  report event l h := ⟨Literal.respects.report event l h.toLiteral, h.source⟩
  addEntry e l h := ⟨Literal.respects.addEntry e l h.toLiteral, h.source⟩
  updateEntry id _ hf l h := ⟨Literal.respects.updateEntry id hf l h.toLiteral, h.source⟩
  updateCache hf l h := ⟨Literal.respects.updateCache hf l h.toLiteral, h.source⟩
  builtin name l h := by
    have hliteral := Literal.respects.builtin name l h.toLiteral
    rw [run_builtin] at hliteral ⊢
    exact ⟨hliteral, (Elsewhere.builtinOf l name).sources ▸ h.source⟩
  package path l h := ⟨Literal.respects.package path l h.toLiteral, h.source⟩
  source path _ h := h.sourceOf path
  program path _ h := h.programOf path

theorem withParsing (l : Loader) (parsing : Bool) (h : Remembers file text l) :
    Remembers file text (l.withParsing parsing) :=
  ⟨h.toLiteral.withParsing l parsing, h.source⟩

/-- Between calls too, unless the file is forgotten. -/
theorem after (h : Remembers file text l) (hop : ¬ op.Drops file) : Remembers file text (l.after op) := by
  refine ⟨h.toLiteral.after op, ?_⟩
  cases op with
  | load request parent isMain => exact ((respects file text).load request parent isMain l h).source
  | discover request parent =>
    rw [Loader.after, run_discover]
    exact ((respects file text).load request parent false _ (withParsing l true h)).source
  | resolve request parent =>
    rw [Loader.after, run_resolve]
    exact h.source
  | invalidate key => exact (Table.get?_erase_of_ne _ hop).trans h.source
  | clearCache => exact absurd trivial hop
  | _ => exact h.source

theorem hasText (h : Remembers file text l) : l.HasText file text := h.toLiteral.hasText h.source

/-- A module that reads its file leaves behind that the text is remembered. -/
theorem of_step (h : s.loader.Literal) (hr : s.task.reads = true)
    (hread : (s.loader.run (Loader.sourceOf s.job.target.filename)).1 = .ok text) :
    Remembers s.job.target.filename text s.step.2 := by
  have hreads := reads_sourceOf s.loader s.job.target.filename
  have hlearnt := hreads.learns (hreads.found.symm.trans hread)
  obtain ⟨-, hsources, -⟩ := h.run_programOf s.job.target.filename
  have hsource : Remembers s.job.target.filename text (s.loader.run (Loader.sourceOf s.job.target.filename)).2 :=
    ⟨h.sourceOf _, hlearnt⟩
  have hprogram : Remembers s.job.target.filename text (s.loader.run (Loader.programOf s.job.target.filename)).2 :=
    ⟨h.programOf _, hsources ▸ hlearnt⟩
  have hdone : ∀ {α : Type} (r : Except LoadError α × Loader) (next : α → Task),
      (andThen r fun a => pure (some (next a))).2 = r.2 := by
    rintro α ⟨_ | _, _⟩ next <;> rfl
  obtain ⟨m, job, t, l⟩ := s
  cases t with
  | readSource next =>
    rw [Site.step, stepTask, run_bind, hdone]
    exact hsource
  | readProgram next =>
    rw [Site.step, stepTask, run_bind, hdone]
    exact hprogram
  | _ => cases hr

end Remembers

/-- In every state of a loader without a code cache its programs are what its sources come to. Once a module reads its
file, whoever asks for the file is told the same text, and the file is not read again: not later in the call, nor in the
calls after that until the file is forgotten. -/
theorem one_source_of_reachable (h : Reachable (fun l => l.Fresh ∧ l.codeCache? = none) (fun _ _ => True) l) :
    l.Literal ∧
    (∀ op m, l.ComesTo op m → m.loader.Literal ∧ ∀ job t l', m.Compiling job t l' → l'.Literal) ∧
    ∀ op s text, l.ComesTo op s.moment → s.moment.Compiling s.job s.task s.loader → s.task.reads = true →
      (s.loader.run (sourceOf s.job.target.filename)).1 = .ok text →
      (s.loader.run (programOf s.job.target.filename)).1 = scanOf s.job.target.filename text ∧
      (∀ s', TransGen Site.Then s s' → s'.loader.HasText s.job.target.filename text) ∧
      ∀ l', Reachable (· = l.after op) (fun _ op => ¬ op.Drops s.job.target.filename) l' →
        l'.HasText s.job.target.filename text ∧
        ∀ op m, l'.ComesTo op m → m.loader.HasText s.job.target.filename text ∧
          ∀ job t l₁, m.Compiling job t l₁ → l₁.HasText s.job.target.filename text := by
  have hl : l.Literal := h.invariant (fun l ⟨hfresh, hc⟩ => ⟨hc, fun hget => by
    rw [hfresh.programs] at hget
    cases (Table.get?_empty _).symm.trans hget⟩) fun _ op hl _ => hl.after op
  have hmoment : ∀ {op m}, l.ComesTo op m → m.loader.Literal := fun hm =>
    Literal.respects.of_comesTo (Literal.withParsing l true) hm hl
  refine ⟨hl, fun op m hm => ⟨hmoment hm, fun job t l' hc => Literal.respects.of_compiling hc (hmoment hm)⟩,
    fun op s text hm hc hr hread => ?_⟩
  have hgoes := Remembers.respects s.job.target.filename text
  have hsite := Literal.respects.of_compiling hc (hmoment hm)
  have hstep := Remembers.of_step hsite hr hread
  obtain ⟨hfound, -⟩ := hsite.run_programOf s.job.target.filename
  rw [hread] at hfound
  refine ⟨hfound, fun s' hs => (hgoes.rest_of_later hs hr hstep).hasText, fun l' hreach => ?_⟩
  have hend : Remembers s.job.target.filename text (l.after op) :=
    hgoes.rest_of_comesTo Remembers.withParsing hm (hgoes.rest_of_step hc hstep)
  have hl' : Remembers s.job.target.filename text l' :=
    hreach.invariant (fun _ heq => heq ▸ hend) fun _ _ hl hop => hl.after hop
  refine ⟨hl'.hasText, fun op m hm => ?_⟩
  have hm' := hgoes.of_comesTo (Remembers.withParsing l' true) hm hl'
  exact ⟨hm'.hasText, fun job t l₁ hc => (hgoes.of_compiling hc hm').hasText⟩

/-- A file is edited after it was read, and another one of its keys is loaded. -/
theorem one_source_editing :
    let l := ofConfig (.default ⟨none, none⟩) (editedFiles "exports.v = 1")
    let edited := (l.after (.load "./a.js" none false)).after (.changeFiles (editedFiles "exports.v = 2"))
    ∃ s : Site, l.ComesTo (.load "./a.js" none false) s.moment ∧ s.moment.Compiling s.job s.task s.loader ∧
      s.task.reads = true ∧ s.job.target.filename = ⟨"/app/a.js"⟩ ∧
      (s.loader.run (sourceOf ⟨"/app/a.js"⟩)).1 = .ok "exports.v = 1" ∧
      edited.HasText ⟨"/app/a.js"⟩ "exports.v = 1" ∧
      (edited.after (.load "./a.js?x" none false)).HasText ⟨"/app/a.js"⟩ "exports.v = 1" := by
  intro l edited
  let m : Moment := ⟨l.nestingBound "./a.js", "./a.js", none, false, [], l⟩
  have hfirst : (Site.first? m).any (fun s => decide (s.task.reads = true ∧ s.job.target.filename = ⟨"/app/a.js"⟩ ∧
      (s.loader.run (sourceOf ⟨"/app/a.js"⟩)).1 = .ok "exports.v = 1")) = true := by decide +kernel
  obtain ⟨s, hs, hfacts⟩ := (Option.any_eq_true ..).mp hfirst
  obtain ⟨hr, hfile, hread⟩ := of_decide_eq_true hfacts
  obtain ⟨hsm, hc⟩ := Site.compiling_of_first? hs
  have hm : l.ComesTo (.load "./a.js" none false) s.moment := ⟨m, rfl, hsm ▸ .refl⟩
  rw [← hsm] at hc
  obtain ⟨-, -, hwindow⟩ := one_source_of_reachable (l := l) (.start ⟨fresh_ofConfig _ _, rfl⟩)
  obtain ⟨-, -, hlater⟩ := hwindow _ s "exports.v = 1" hm hc hr (hfile ▸ hread)
  rw [hfile] at hlater
  have hedited : Reachable (· = l.after (.load "./a.js" none false)) (fun _ op => ¬ op.Drops ⟨"/app/a.js"⟩) edited :=
    .after (.start rfl) id
  exact ⟨s, hm, hc, hr, hfile, hread, (hlater _ hedited).1, (hlater _ (.after hedited id)).1⟩

end Loader
end ModGraph
