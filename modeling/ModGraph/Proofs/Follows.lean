import Mathlib.Order.Defs.Unbundled
import ModGraph.Loader

/-!
# Actions that follow a relation

Most of what is said about loaders is said about two of them: the one in which an action starts and the
one in which it ends. `Follows R a` says that every run of `a` goes along `R`; `Ends R E a` that a run
that succeeds goes along `R`, and one that fails along `E`.

For a preorder it is enough to look at the small actions. `Instructs id file R` lists those of a task that
runs on an entry, on behalf of a file, and `Instructs.runTask` goes from there to whole tasks, by induction on
them. `CompilesFile id file R` allows more in the entry, as the compiler does around the task, and
`Compiles id R` any file. `Respects R` lists those of a loader, and `Respects.loadNested` goes from there to
whole loads, by induction on the limit on nesting.
-/

namespace ModGraph

/-- What no action takes from an entry: its key, its package, and that it is loaded. -/
structure Entry.Develops (e e' : Entry) : Prop where
  key : e'.key = e.key
  package : e'.package = e.package
  loaded : e.isLoaded = true → e'.isLoaded = true

/-- What no instruction of a compiler changes in an entry. -/
structure Entry.Retains (e e' : Entry) : Prop where
  key : e'.key = e.key
  package : e'.package = e.package
  loaded : e'.isLoaded = e.isLoaded
  name : e'.module.id = e.module.id
  parent : e'.parent = e.parent
  children : e'.children = e.children

/-- At most the format, the exports and the mark of a parse-only pass are different. -/
structure Entry.Recast (e x : Entry) : Prop where
  key : x.key = e.key
  package : x.package = e.package
  parent : x.parent = e.parent
  children : x.children = e.children
  module : ∃ exports, x.module = { e.module with exports := exports }

/-- What no nested load takes from a cache: the builtin modules, and whether a parse-only pass runs. -/
structure Cache.Develops (c c' : Cache) : Prop where
  builtin : ∀ {name id}, c.builtins.get? name = some id → c'.builtins.get? name = some id
  parsing : c'.parsing = c.parsing

/-- The key that is compiled, where an event says that. -/
def Event.compiledKey? : Event → Option String
  | compilesIn key _ => some key
  | _ => none

/-- The events that a task reports, the requests that it makes and the errors that it fails with pass
tests, if the requests of the program that it reads do. -/
def Task.Within (heard : Event → Prop) (asked : String → Prop) (failing : LoadError → Prop) : Task → Prop
  | done => True
  | fail e => failing e
  | setFormat _ next => next.Within heard asked failing
  | report event next => heard event ∧ next.Within heard asked failing
  | readSource next => ∀ source, (next source).Within heard asked failing
  | readProgram next => ∀ p : Source.Program, (∀ request ∈ p.requests, asked request) →
      (next p).Within heard asked failing
  | require request next => asked request ∧ ∀ d, (next d).Within heard asked failing
  | setExports _ next => next.Within heard asked failing
  | setExport _ _ next => next.Within heard asked failing

theorem Task.within_of_all {heard : Event → Prop} {asked : String → Prop} {failing : LoadError → Prop}
    (h : ∀ event, heard event) (ha : ∀ request, asked request) (hf : ∀ e, failing e) (t : Task) :
    t.Within heard asked failing := by
  induction t with
  | done => trivial
  | fail e => exact hf e
  | setFormat format next ih => exact ih
  | report event next ih => exact ⟨h event, ih⟩
  | readSource next ih => exact ih
  | readProgram next ih => exact fun p _ => ih p
  | require request next ih => exact ⟨ha request, ih⟩
  | setExports v next ih => exact ih
  | setExport name v next ih => exact ih

namespace Loader

variable {α β : Type} {R E : Loader → Loader → Prop}

/-- Wherever an action starts, it leads along a relation. -/
def Follows (R : Loader → Loader → Prop) (action : LoadM α) : Prop := ∀ l, R l (l.run action).2

/-- An action that succeeds leads along one relation, and one that fails along another. -/
def Ends (R E : Loader → Loader → Prop) (action : LoadM α) : Prop :=
  ∀ l : Loader, match l.run action with
    | (.ok _, l') => R l l'
    | (.error _, l') => E l l'

/-- Relations for success and failure: failing after some success is failing. -/
structure Outcomes (R E : Loader → Loader → Prop) : Prop extends IsPreorder Loader R where
  weaken : ∀ {l l'}, R l l' → E l l'
  absorb : ∀ {l l' l''}, R l l' → E l' l'' → E l l''

theorem Outcomes.self [h : IsPreorder Loader R] : Outcomes R R :=
  ⟨h, id, IsTrans.trans _ _ _⟩

theorem ends_self {action : LoadM α} : Ends R R action ↔ Follows R action := by
  refine forall_congr' fun l => ?_
  rcases l.run action with ⟨_ | _, _⟩ <;> exact Iff.rfl

/-! ## Composition -/

namespace Ends

theorem of_follows (ho : Outcomes R E) {action : LoadM α} (h : Follows R action) : Ends R E action := by
  intro l
  have hl := h l
  generalize l.run action = r at hl ⊢
  rcases r with ⟨_ | _, l'⟩
  · exact ho.weaken hl
  · exact hl

theorem bind (ho : Outcomes R E) {action : LoadM α} {next : α → LoadM β} (h : Ends R E action)
    (hnext : ∀ a, Ends R E (next a)) : Ends R E (action >>= next) := by
  intro l
  have hl := h l
  rw [run_bind]
  generalize l.run action = r at hl ⊢
  rcases r with ⟨e | a, l'⟩
  · exact hl
  · have hl' := hnext a l'
    rw [andThen_ok]
    generalize l'.run (next a) = r' at hl' ⊢
    rcases r' with ⟨_ | _, l''⟩
    · exact ho.absorb hl hl'
    · exact ho.toIsPreorder.trans _ _ _ hl hl'

end Ends

namespace Follows

theorem pure [IsPreorder Loader R] (a : α) : Follows R (Pure.pure a : LoadM α) := fun l => refl l

theorem throw [IsPreorder Loader R] (e : LoadError) : Follows R (MonadExcept.throw e : LoadM α) :=
  fun l => refl l

theorem get [IsPreorder Loader R] : Follows R (MonadState.get : LoadM Loader) := fun l => refl l

theorem bind [IsPreorder Loader R] {action : LoadM α} {next : α → LoadM β}
    (h : Follows R action) (hnext : ∀ a, Follows R (next a)) : Follows R (action >>= next) := by
  intro l
  have hl := h l
  rw [run_bind]
  generalize l.run action = r at hl ⊢
  rcases r with ⟨e | a, l'⟩
  · exact hl
  · exact IsTrans.trans _ _ _ hl (hnext a l')

theorem onError [IsPreorder Loader R] {action : LoadM α} {cleanUp : LoadError → LoadM Unit}
    (h : Follows R action) (hclean : ∀ e, Follows R (cleanUp e)) :
    Follows R (Loader.onError action cleanUp) := by
  intro l
  have hl := h l
  rw [run_onError]
  generalize l.run action = r at hl ⊢
  rcases r with ⟨e | a, l'⟩
  · have hl' := (hclean e).bind (fun _ => throw (α := α) e) l'
    rw [run_bind] at hl'
    exact IsTrans.trans _ _ _ hl hl'
  · exact hl

/-- A request is answered along a relation if it is sought along it, and the module that it needs is compiled along
it. -/
theorem rel_answer [IsPreorder Loader R] {l : Loader} {nested : NestedLoad} {request : String}
    {parent : Option EntryId} {isMain : Bool} (hseek : R l (l.run (seek request parent isMain)).2)
    (hperform : ∀ {l' job}, l.run (seek request parent isMain) = (.ok (.needs job), l') →
      R l' (l'.run (perform nested job)).2) :
    R l (l.run (answer nested request parent isMain)).2 := by
  unfold answer
  rw [run_bind]
  generalize l.run (seek request parent isMain) = r at hseek hperform
  obtain ⟨e | found, l'⟩ := r
  · exact hseek
  · cases found with
    | found id => exact hseek
    | needs job => exact IsTrans.trans _ _ _ hseek (hperform rfl)

/-- What is said about an answer is said along a relation along which everything may be said. -/
theorem reported [IsPreorder Loader R] (hreport : ∀ event, Follows R (report event)) {action : LoadM EntryId}
    (ha : Follows R action) (request : String) : Follows R (Loader.reported request action) := by
  refine (hreport _).bind fun _ => .bind (.onError ha fun _ => hreport _) fun _ => ?_
  exact (hreport _).bind fun _ => .pure _

/-- Nested loads go along relations, one for each module that asks, if answers do as far as the loads in them do. -/
theorem loadNested {R : EntryId → Loader → Loader → Prop} [∀ id, IsPreorder Loader (R id)]
    (hreport : ∀ id event, Follows (R id) (report event))
    (hanswer : ∀ limit, (∀ request id, Follows (R id) (Loader.loadNested limit request id)) →
      ∀ request id, Follows (R id) (answer (Loader.loadNested limit) request (some id) false))
    (limit : Nat) (request : String) (id : EntryId) : Follows (R id) (Loader.loadNested limit request id) := by
  induction limit generalizing request id with
  | zero => exact .throw _
  | succ limit ih => exact .reported (hreport id) (hanswer limit ih request id) request

/-- What comes after an action leads on from there. -/
theorem rest_of_bind [IsPreorder Loader R] (l : Loader) (action : LoadM α) {next : α → LoadM β}
    (hnext : ∀ a, Follows R (next a)) : R (l.run action).2 (l.run (action >>= next)).2 := by
  rw [run_bind]
  generalize l.run action = r
  rcases r with ⟨e | a, l'⟩
  · exact refl l'
  · exact hnext a l'

theorem rest_of_onError [IsPreorder Loader R] (l : Loader) (action : LoadM α) {cleanUp : LoadError → LoadM Unit}
    (hclean : ∀ e, Follows R (cleanUp e)) : R (l.run action).2 (l.run (Loader.onError action cleanUp)).2 := by
  rw [run_onError]
  generalize l.run action = r
  rcases r with ⟨e | a, l'⟩
  · have hl' := (hclean e).bind (fun _ => throw (α := α) e) l'
    rwa [run_bind] at hl'
  · exact refl l'

theorem onlyIf [IsPreorder Loader R] {c : Prop} [Decidable c] {action : LoadM Unit}
    (h : Follows R action) : Follows R (Loader.onlyIf c action) := by
  intro l
  rw [run_onlyIf]
  split
  · exact h l
  · exact refl l

theorem ite {c : Prop} [Decidable c] {a b : LoadM α} (ha : Follows R a) (hb : Follows R b) :
    Follows R (if c then a else b) := by
  split
  · exact ha
  · exact hb

end Follows

/-- An action that starts with a property ends with it, gives results that pass one test, and fails with
errors that pass another. -/
def Keeps (P : Loader → Prop) (good : α → Prop) (bad : LoadError → Prop) (action : LoadM α) : Prop :=
  ∀ l : Loader, P l → match l.run action with
    | (.ok a, l') => P l' ∧ good a
    | (.error e, l') => P l' ∧ bad e

namespace Keeps

variable {P : Loader → Prop} {good : α → Prop} {better : β → Prop} {bad : LoadError → Prop}

theorem pure {a : α} (h : good a) : Keeps P good bad (Pure.pure a : LoadM α) := fun _ hl => ⟨hl, h⟩

theorem throw {e : LoadError} (h : bad e) : Keeps P good bad (MonadExcept.throw e : LoadM α) :=
  fun _ hl => ⟨hl, h⟩

theorem bind {action : LoadM α} {next : α → LoadM β} (h : Keeps P good bad action)
    (hnext : ∀ a, good a → Keeps P better bad (next a)) : Keeps P better bad (action >>= next) := by
  intro l hP
  have hl := h l hP
  rw [run_bind]
  generalize l.run action = r at hl ⊢
  obtain ⟨e | a, l'⟩ := r
  · exact hl
  · exact hnext a hl.2 l' hl.1

/-- An action that keeps the property only has to fail well. -/
theorem of_errors {action : LoadM α} (h : Follows (fun l l' => P l → P l') action)
    (herror : ∀ {l e}, P l → (l.run action).1 = .error e → bad e) : Keeps P (fun _ => True) bad action := by
  intro l hP
  have hl := h l hP
  have hbad : ∀ e, (l.run action).1 = .error e → bad e := fun e => herror hP
  generalize l.run action = r at hl hbad ⊢
  obtain ⟨e | a, l'⟩ := r
  · exact ⟨hl, hbad e rfl⟩
  · exact ⟨hl, trivial⟩

/-- An action that never fails only has to keep the property. -/
theorem of_follows {action : LoadM α} (h : Follows (fun l l' => P l → P l') action)
    (hok : ∀ l : Loader, ∃ a, (l.run action).1 = .ok a) : Keeps P (fun _ => True) bad action :=
  of_errors h fun {l _} _ he => by
    obtain ⟨a, ha⟩ := hok l
    cases ha.symm.trans he

theorem follows {action : LoadM α} (h : Keeps P good bad action) :
    Follows (fun l l' => P l → P l') action := by
  intro l hP
  have hl := h l hP
  generalize l.run action = r at hl ⊢
  obtain ⟨_ | _, l'⟩ := r
  · exact hl.1
  · exact hl.1

theorem onError {action : LoadM α} {cleanUp : LoadError → LoadM Unit} (h : Keeps P good bad action)
    (hclean : ∀ e, Keeps P (fun _ => True) bad (cleanUp e)) : Keeps P good bad (Loader.onError action cleanUp) := by
  intro l hP
  have hl := h l hP
  rw [run_onError]
  generalize l.run action = r at hl ⊢
  obtain ⟨e | a, l'⟩ := r
  · have hthrown : Keeps P good bad (cleanUp e >>= fun _ => MonadExcept.throw e) :=
      (hclean e).bind fun _ _ => .throw hl.2
    have hrun := hthrown l' hl.1
    rw [run_bind] at hrun
    exact hrun
  · exact hl

/-- A request is answered well if it is sought well, and if the module that it needs is compiled well. -/
theorem answer {nested : NestedLoad} {request : String} {parent : Option EntryId} {isMain : Bool}
    (hseek : Keeps P (fun _ => True) bad (seek request parent isMain))
    (hperform : ∀ {l l' job}, P l → l.run (seek request parent isMain) = (.ok (.needs job), l') → P l' →
      match l'.run (perform nested job) with
      | (.ok _, l') => P l'
      | (.error e, l') => P l' ∧ bad e) :
    Keeps P (fun _ => True) bad (Loader.answer nested request parent isMain) := by
  intro l hl
  have hsought := hseek l hl
  unfold Loader.answer
  rw [run_bind]
  generalize hr : l.run (seek request parent isMain) = r at hsought ⊢
  obtain ⟨e | found, l'⟩ := r
  · exact hsought
  · cases found with
    | found id => exact hsought
    | needs job =>
      have hdone := hperform hl hr hsought.1
      rw [andThen_ok]
      dsimp only
      generalize l'.run (perform nested job) = r at hdone ⊢
      obtain ⟨_ | _, l''⟩ := r
      · exact hdone
      · exact ⟨hdone, trivial⟩

/-- What is said about an answer is said without failing. -/
theorem reported {action : LoadM EntryId} (h : Keeps P (fun _ => True) bad action)
    (hreport : ∀ event, Follows (fun l l' => P l → P l') (report event)) (request : String) :
    Keeps P (fun _ => True) bad (Loader.reported request action) := by
  have hquiet : ∀ event, Keeps P (fun _ => True) bad (report event) :=
    fun event => .of_follows (hreport event) fun _ => ⟨(), rfl⟩
  exact (hquiet _).bind fun _ _ => (h.onError fun _ => hquiet _).bind fun id _ =>
    (hquiet _).bind fun _ _ => .pure trivial

end Keeps

/-! ## The small actions -/

/-- The small changes that a task makes on behalf of a file go along a relation. -/
structure Instructs (id : EntryId) (file : Path) (R : Loader → Loader → Prop) : Prop
    extends IsPreorder Loader R where
  report : ∀ event, event.compiledKey? = none → Follows R (report event)
  updateEntry : ∀ {f}, (∀ e : Entry, e.Recast (f e)) → Follows R (updateEntry id f)
  source : Follows R (sourceOf file)
  program : Follows R (programOf file)

/-- The small changes that the compiler of an entry makes go along a relation. -/
structure Compiles (id : EntryId) (R : Loader → Loader → Prop) : Prop extends IsPreorder Loader R where
  report : ∀ event, event.compiledKey? = none → Follows R (report event)
  updateEntry : ∀ {f}, (∀ e : Entry, e.Retains (f e)) → Follows R (updateEntry id f)
  source : ∀ file, Follows R (sourceOf file)
  program : ∀ file, Follows R (programOf file)

/-- The small changes that the compiler of an entry makes on behalf of a file go along a relation. -/
structure CompilesFile (id : EntryId) (file : Path) (R : Loader → Loader → Prop) : Prop
    extends IsPreorder Loader R where
  report : ∀ event, event.compiledKey? = none → Follows R (report event)
  updateEntry : ∀ {f}, (∀ e : Entry, e.Retains (f e)) → Follows R (updateEntry id f)
  source : Follows R (sourceOf file)
  program : Follows R (programOf file)

theorem Compiles.file {id : EntryId} (h : Compiles id R) (file : Path) : CompilesFile id file R :=
  { h with source := h.source file, program := h.program file }

/-- The small changes of a loader go along a relation. -/
structure Respects (R : Loader → Loader → Prop) : Prop extends IsPreorder Loader R where
  report : ∀ event, Follows R (report event)
  addEntry : ∀ e, Follows R (addEntry e)
  updateEntry : ∀ id {f}, (∀ e : Entry, e.Develops (f e)) → Follows R (updateEntry id f)
  updateCache : ∀ {f}, (∀ c : Cache, c.Develops (f c)) → Follows R (updateCache f)
  builtin : ∀ name, Follows R (builtin name)
  package : ∀ file, Follows R (packageOfFile file)
  source : ∀ file, Follows R (sourceOf file)
  program : ∀ file, Follows R (programOf file)

end Loader

/-! ## Entries and caches develop -/

namespace Entry.Develops

theorem refl (e : Entry) : e.Develops e := ⟨rfl, rfl, id⟩

theorem of_retains {e e' : Entry} (h : e.Retains e') : e.Develops e' :=
  ⟨h.key, h.package, fun hl => h.loaded.trans hl⟩

end Entry.Develops

theorem Entry.Retains.setFormat (e : Entry) (format : Format) : e.Retains (e.setFormat format) := by
  unfold Entry.setFormat
  split <;> exact ⟨rfl, rfl, rfl, rfl, rfl, rfl⟩

namespace Entry.Recast

variable {e x : Entry}

theorem refl (e : Entry) : e.Recast e := ⟨rfl, rfl, rfl, rfl, _, rfl⟩

theorem setFormat (e : Entry) (format : Format) : e.Recast (e.setFormat format) := by
  unfold Entry.setFormat
  split <;> exact ⟨rfl, rfl, rfl, rfl, _, rfl⟩

theorem setExports (e : Entry) (v : Json.Value) : e.Recast (e.setExports v) := ⟨rfl, rfl, rfl, rfl, _, rfl⟩

theorem isLoaded (h : e.Recast x) : x.isLoaded = e.isLoaded := by
  obtain ⟨exports, hmodule⟩ := h.module
  rw [Entry.isLoaded, hmodule]
  rfl

theorem retains (h : e.Recast x) : e.Retains x := by
  obtain ⟨exports, hmodule⟩ := h.module
  exact ⟨h.key, h.package, h.isLoaded, by rw [hmodule], h.parent, h.children⟩

end Entry.Recast

namespace Cache.Develops

theorem refl (c : Cache) : c.Develops c := ⟨id, rfl⟩

theorem trans {c c' c'' : Cache} (h : c.Develops c') (h' : c'.Develops c'') : c.Develops c'' :=
  ⟨fun hb => h'.builtin (h.builtin hb), h'.parsing.trans h.parsing⟩

theorem withSlots (c : Cache) (p : Partition) (slots : Table String Slot) :
    c.Develops (c.withSlots p slots) := by
  cases p <;> exact ⟨id, rfl⟩

theorem set (c : Cache) (p : Partition) (key : String) (slot : Slot) : c.Develops (c.set p key slot) :=
  withSlots c p _

theorem delete (c : Cache) (p : Partition) (key : String) : c.Develops (c.delete p key) :=
  withSlots c p _

theorem finish (c : Cache) (p : Partition) (key : String) : c.Develops (c.finish p key) := by
  unfold Cache.finish
  split
  · exact set c p key _
  · exact refl c

theorem commit (c : Cache) (key : String) (p : Partition) : c.Develops (c.commit key p).1 := by
  unfold Cache.commit
  split
  · exact refl c
  · dsimp only
    split
    · exact delete c .discovery key
    · exact (delete c .discovery key).trans (set _ p key _)

end Cache.Develops

namespace Loader

variable {R E : Loader → Loader → Prop}

/-! ## Running tasks -/

namespace Instructs

variable {id : EntryId} {filename : Path} {nested : NestedLoad} (h : Instructs id filename R)
include h

theorem setFormat (format : Format) : Follows R (Loader.setFormat id format) := by
  have := h.toIsPreorder
  refine Follows.bind (fun l => refl l) fun _ => .bind (.onlyIf (h.report _ rfl)) fun _ => ?_
  exact h.updateEntry fun e => .setFormat e format

theorem setExports (f : Entry → Json.Value) : Follows R (Loader.updateEntry id fun e => e.setExports (f e)) :=
  h.updateEntry fun e => .setExports e (f e)

theorem stepTask (ho : Outcomes R E) (hn : ∀ request, Ends R E (nested request id))
    {t : Task} (ht : t.Within (fun event => Follows R (Loader.report event)) (fun _ => True) fun _ => True) :
    Ends R E (Loader.stepTask nested id filename t) := by
  have := h.toIsPreorder
  have hpure : ∀ rest : Option Task, Follows R (pure rest) := fun rest => .pure rest
  cases t with
  | done => exact .of_follows ho (.pure _)
  | fail e => exact .of_follows ho (.throw e)
  | setFormat format next => exact .of_follows ho ((h.setFormat format).bind fun _ => .pure _)
  | report event next => exact .of_follows ho (Follows.bind ht.1 fun _ => .pure _)
  | readSource next => exact .of_follows ho (h.source.bind fun _ => .pure _)
  | readProgram next => exact .of_follows ho (h.program.bind fun _ => .pure _)
  | require request next =>
    refine .bind ho (hn request) fun child => .of_follows ho ?_
    exact Follows.bind (fun l => refl l) fun _ => .pure _
  | setExports v next => exact .of_follows ho ((h.setExports fun _ => v).bind fun _ => .pure _)
  | setExport name v next =>
    exact .of_follows ho ((h.setExports fun e => e.module.exports.set name v).bind fun _ => .pure _)

/-- What each step of a task does the whole task does. -/
theorem runTask (ho : Outcomes R E) (hn : ∀ request, Ends R E (nested request id))
    {t : Task} (ht : t.Within (fun event => Follows R (Loader.report event)) (fun _ => True) fun _ => True) :
    Ends R E (Loader.runTask nested id filename t) := by
  have hdone : Ends R E (pure () : LoadM Unit) := .of_follows ho fun l => ho.toIsPreorder.refl l
  induction t with
  | done => exact hdone
  | fail e => exact .of_follows ho fun l => ho.toIsPreorder.refl l
  | setFormat format next ih =>
    exact .bind ho (.of_follows ho (h.setFormat format)) fun _ => ih ht
  | report event next ih =>
    exact .bind ho (.of_follows ho ht.1) fun _ => ih ht.2
  | readSource next ih =>
    exact .bind ho (.of_follows ho h.source) fun s => ih s (ht s)
  | readProgram next ih =>
    exact .bind ho (.of_follows ho h.program) fun p => ih p (ht p fun _ _ => trivial)
  | require request next ih =>
    refine .bind ho (hn request) fun child => .bind ho (.of_follows ho ?_) fun d => ih d (ht.2 d)
    exact fun l => ho.toIsPreorder.refl l
  | setExports v next ih => exact .bind ho (.of_follows ho (h.setExports fun _ => v)) fun _ => ih ht
  | setExport name v next ih =>
    exact .bind ho (.of_follows ho (h.setExports fun e => e.module.exports.set name v)) fun _ => ih ht

end Instructs

/-- A task whose instructions keep a property keeps it, and fails only with errors that its instructions fail with. -/
theorem Keeps.runTask {P : Loader → Prop} {good : String → Prop} {asked : String → Prop} {bad : LoadError → Prop}
    {id : EntryId} {filename : Path} {nested : NestedLoad} (h : Instructs id filename fun l l' => P l → P l')
    (hsource : Keeps P good bad (sourceOf filename))
    (hprogram : Keeps P (fun p => ∀ request ∈ p.requests, asked request) bad (programOf filename))
    (hn : ∀ request, asked request → Keeps P (fun _ => True) bad (nested request id)) {t : Task}
    (ht : t.Within (fun event => Follows (fun l l' => P l → P l') (Loader.report event)) asked bad) :
    Keeps P (fun _ => True) bad (Loader.runTask nested id filename t) := by
  induction t with
  | done => exact .pure trivial
  | fail e => exact .throw ht
  | setFormat format next ih =>
    refine Keeps.bind (.of_follows (h.setFormat format) fun l => ⟨(), ?_⟩) fun _ _ => ih ht
    unfold Loader.setFormat onlyIf
    rw [run_bind, run_getEntry, andThen_ok]
    cases (l.graph.entry id).isLoaded <;> rfl
  | report event next ih => exact Keeps.bind (.of_follows ht.1 fun _ => ⟨(), rfl⟩) fun _ _ => ih ht.2
  | readSource next ih => exact hsource.bind fun source _ => ih source (ht source)
  | readProgram next ih => exact hprogram.bind fun p hp => ih p (ht p hp)
  | require request next ih => exact (hn request ht.1).bind fun child _ l hl => ih _ (ht.2 _) l hl
  | setExports v next ih =>
    exact Keeps.bind (.of_follows (h.setExports fun _ => v) fun _ => ⟨(), rfl⟩) fun _ _ => ih ht
  | setExport name v next ih =>
    exact Keeps.bind (.of_follows (h.setExports fun e => e.module.exports.set name v) fun _ => ⟨(), rfl⟩)
      fun _ _ => ih ht

namespace CompilesFile

variable {id : EntryId} {filename : Path} {nested : NestedLoad} (h : CompilesFile id filename R)
include h

theorem instructs : Instructs id filename R :=
  { h with updateEntry := fun hf => h.updateEntry fun e => (hf e).retains }

theorem stepTask (ho : Outcomes R E) (hn : ∀ request, Ends R E (nested request id))
    {t : Task} (ht : t.Within (fun event => Follows R (Loader.report event)) (fun _ => True) fun _ => True) :
    Ends R E (Loader.stepTask nested id filename t) :=
  h.instructs.stepTask ho hn ht

theorem runTask (ho : Outcomes R E) (hn : ∀ request, Ends R E (nested request id))
    {t : Task} (ht : t.Within (fun event => Follows R (Loader.report event)) (fun _ => True) fun _ => True) :
    Ends R E (Loader.runTask nested id filename t) :=
  h.instructs.runTask ho hn ht

theorem beginCompile : Follows R (Loader.beginCompile id filename) := by
  have := h.toIsPreorder
  refine Follows.get.bind fun l => ?_
  refine .bind (h.updateEntry fun e => ⟨rfl, rfl, rfl, rfl, rfl, rfl⟩) fun _ => ?_
  refine .bind (.onlyIf (h.updateEntry fun e => ⟨rfl, rfl, rfl, rfl, rfl, rfl⟩)) fun _ => ?_
  exact (h.report _ rfl).bind fun _ => .pure _

end CompilesFile

namespace Compiles

variable {id : EntryId} {nested : NestedLoad} (h : Compiles id R)
include h

theorem stepTask (ho : Outcomes R E) (hn : ∀ request, Ends R E (nested request id)) (filename : Path)
    {t : Task} (ht : t.Within (fun event => Follows R (Loader.report event)) (fun _ => True) fun _ => True) :
    Ends R E (Loader.stepTask nested id filename t) :=
  (h.file filename).stepTask ho hn ht

theorem runTask (ho : Outcomes R E) (hn : ∀ request, Ends R E (nested request id)) (filename : Path)
    {t : Task} (ht : t.Within (fun event => Follows R (Loader.report event)) (fun _ => True) fun _ => True) :
    Ends R E (Loader.runTask nested id filename t) :=
  (h.file filename).runTask ho hn ht

theorem beginCompile (filename : Path) : Follows R (Loader.beginCompile id filename) :=
  (h.file filename).beginCompile

/-- Marking an entry as loaded is the one change that is not small. -/
theorem endCompile (hl : Follows R (Loader.updateEntry id fun e => e.setLoaded true)) (filename : Path)
    (c : Compilation) : Follows R (Loader.endCompile id filename c) := by
  have := h.toIsPreorder
  refine Follows.get.bind fun l => ?_
  refine .bind (.onlyIf (h.updateEntry fun e => ⟨rfl, rfl, rfl, rfl, rfl, rfl⟩)) fun _ => ?_
  exact .ite (h.updateEntry fun e => ⟨rfl, rfl, rfl, rfl, rfl, rfl⟩) hl

/-- Where all events may be reported, it does not matter which compiler runs. -/
theorem compile (hr : ∀ event, Follows R (Loader.report event))
    (hl : Follows R (Loader.updateEntry id fun e => e.setLoaded true))
    (hn : ∀ request, Follows R (nested request id)) (filename : Path) :
    Follows R (Loader.compile nested id filename) := by
  have := h.toIsPreorder
  refine (h.beginCompile filename).bind fun c => .bind ?_ fun _ => h.endCompile hl filename c
  refine ends_self.mp (h.runTask .self (fun request => ends_self.mpr (hn request)) filename ?_)
  exact Task.within_of_all hr (fun _ => trivial) (fun _ => trivial) _

end Compiles

/-! ## Answering requests -/

namespace Respects

variable (h : Respects R)
include h

theorem compiles (id : EntryId) : Compiles id R where
  toIsPreorder := h.toIsPreorder
  report event _ := h.report event
  updateEntry hf := h.updateEntry id fun e => .of_retains (hf e)
  source := h.source
  program := h.program

theorem commit (key : String) (p : Partition) : Follows R (Loader.commit key p) := by
  have := h.toIsPreorder
  refine Follows.get.bind fun _ => (h.updateCache fun c => .commit c key p).bind fun _ => ?_
  exact .onlyIf (h.report _)

theorem rollback (key : String) : Follows R (Loader.rollback key) := by
  have := h.toIsPreorder
  refine Follows.get.bind fun _ => .onlyIf ?_
  exact (h.updateCache fun c => .delete c .discovery key).bind fun _ => h.report _

theorem poison (p : Partition) (key : String) (e : LoadError) : Follows R (Loader.poison p key e) := by
  have := h.toIsPreorder
  exact (h.report _).bind fun _ => h.updateCache fun c => .set c p key _

theorem referrer (id : EntryId) : Follows R (Loader.referrer id) := by
  have := h.toIsPreorder
  exact Follows.bind (fun l => refl l) fun _ => .pure _

theorem link (referrer : Option Referrer) (request : String) (child : EntryId) :
    Follows R (Loader.link referrer request child) := by
  have := h.toIsPreorder
  cases referrer with
  | none => exact .pure _
  | some r => exact h.updateEntry r.id fun e => ⟨rfl, rfl, fun he => he⟩

theorem resolveSpecifier (specifier : String) (referrer : Option Referrer) (isMain : Bool) :
    Follows R (Loader.resolveSpecifier specifier referrer isMain) := by
  have := h.toIsPreorder
  refine Follows.get.bind fun l => ?_
  dsimp only
  split
  · exact .pure _
  · exact .throw _
  · refine .ite ((h.report _).bind fun _ => ?_) (.throw _)
    split
    · exact .pure _
    · exact .throw _

theorem lookup (p : Partition) (key : String) : Follows R (Loader.lookup p key) := by
  have := h.toIsPreorder
  refine Follows.get.bind fun l => ?_
  split
  · exact .pure _
  · exact .throw _
  · exact (h.report _).bind fun _ => .pure _
  · exact .ite (.pure _) (.pure _)

theorem classify (key : String) (fixed : Option Format) (unexposed : Bool) :
    Follows R (Loader.classify key fixed unexposed) := by
  have := h.toIsPreorder
  refine Follows.get.bind fun l => .ite (h.lookup _ key) (.ite (h.lookup _ key) ?_)
  split
  · exact .throw _
  · exact .pure _
  · exact .ite (.pure _) ((h.report _).bind fun _ => (h.commit key _).bind fun _ => h.lookup _ key)
  · exact .pure _

theorem seekTarget (request : String) (referrer : Option Referrer) (isMain : Bool) (target : Target) :
    Follows R (Loader.seekTarget request referrer isMain target) := by
  have := h.toIsPreorder
  refine (h.report _).bind fun _ => (h.classify _ _ _).bind fun found => ?_
  cases found with
  | hit id => exact (h.report _).bind fun _ => (h.link referrer request id).bind fun _ => .pure _
  | evaluate p id => exact .pure _
  | miss p => exact (h.addEntry _).bind fun _ => .pure _

theorem seek (request : String) (parent : Option EntryId) (isMain : Bool) :
    Follows R (Loader.seek request parent isMain) := by
  have := h.toIsPreorder
  have hparent : Follows R (parent.mapM Loader.referrer) := by
    cases parent with
    | none => exact .pure _
    | some id => exact (h.referrer id).bind fun _ => .pure _
  refine hparent.bind fun r => (h.resolveSpecifier _ r isMain).bind fun found => ?_
  cases found with
  | builtin name => exact (h.builtin name).bind fun id => (h.link r request id).bind fun _ => .pure _
  | file filename => exact (h.package filename).bind fun _ => h.seekTarget _ _ _ _

theorem occupy (job : Job) : Follows R (Loader.occupy job) := by
  have := h.toIsPreorder
  refine (h.updateCache fun c => .set c _ _ _).bind fun _ => ?_
  refine .bind (.onlyIf ?_) fun _ => h.report _
  refine .bind (h.updateEntry _ fun e => ⟨rfl, rfl, fun he => he⟩) fun _ => ?_
  exact h.updateCache fun c => ⟨fun hb => hb, rfl⟩

theorem vacate (job : Job) (e : LoadError) : Follows R (Loader.vacate job e) :=
  .ite (h.poison _ _ e) (h.rollback _)

theorem settle (p : Partition) (key : String) (unexposed : Bool) (format : Format) :
    Follows R (Loader.settle p key unexposed format) := by
  have := h.toIsPreorder
  refine Follows.get.bind fun l => .ite ?_ (h.updateCache fun c => .finish c p key)
  exact (h.commit key _).bind fun _ => h.updateCache fun c => .finish c _ key

theorem conceal (referrer : Option Referrer) (isMain unexposed : Bool) (key : String) (id : EntryId)
    (format : Format) : Follows R (Loader.conceal referrer isMain unexposed key id format) := by
  have := h.toIsPreorder
  refine Follows.get.bind fun l => .onlyIf (.bind (.onlyIf ?_) fun _ => .onlyIf ?_)
  · exact (h.report _).bind fun _ => h.updateCache fun c => ⟨fun hb => hb, rfl⟩
  · exact h.updateEntry id fun e => ⟨rfl, rfl, fun he => he⟩

theorem conclude (job : Job) : Follows R (Loader.conclude job) := by
  have := h.toIsPreorder
  refine Follows.bind (fun l => refl l) fun e => (h.settle _ _ _ _).bind fun _ => (h.report _).bind fun _ => ?_
  exact (h.link _ _ _).bind fun _ => h.conceal _ _ _ _ _ _

theorem compile {nested : NestedLoad} (hn : ∀ request id, Follows R (nested request id)) (id : EntryId)
    (filename : Path) : Follows R (Loader.compile nested id filename) :=
  (h.compiles id).compile h.report (h.updateEntry id fun _ => ⟨rfl, rfl, fun _ => rfl⟩)
    (fun request => hn request id) filename

theorem perform {nested : NestedLoad} (hn : ∀ request id, Follows R (nested request id)) (job : Job) :
    Follows R (Loader.perform nested job) := by
  have := h.toIsPreorder
  refine (h.occupy job).bind fun _ => .bind (.onError (h.compile hn _ _) (h.vacate job)) fun _ => ?_
  exact (h.conclude job).bind fun _ => .pure _

theorem answer {nested : NestedLoad} (hn : ∀ request id, Follows R (nested request id))
    (request : String) (parent : Option EntryId) (isMain : Bool) :
    Follows R (Loader.answer nested request parent isMain) := by
  have := h.toIsPreorder
  exact fun l => Follows.rel_answer (h.seek request parent isMain l) fun _ => h.perform hn _ _

theorem loadNested (limit : Nat) (request : String) (id : EntryId) :
    Follows R (Loader.loadNested limit request id) :=
  have := h.toIsPreorder
  .loadNested (fun _ => h.report) (fun _ ih request id => h.answer ih request (some id) false) limit request id

theorem load (request : String) (parent : Option EntryId) (isMain : Bool) :
    Follows R (Loader.load request parent isMain) := by
  have := h.toIsPreorder
  refine Follows.get.bind fun l => ?_
  exact .reported h.report (h.answer (h.loadNested _) request parent isMain) request

/-- What goes along a relation goes along every wider one. -/
theorem mono {R' : Loader → Loader → Prop} [IsPreorder Loader R'] (hR : ∀ {l l'}, R l l' → R' l l') : Respects R' where
  report event l := hR (h.report event l)
  addEntry e l := hR (h.addEntry e l)
  updateEntry id _ hf l := hR (h.updateEntry id hf l)
  updateCache hf l := hR (h.updateCache hf l)
  builtin name l := hR (h.builtin name l)
  package file l := hR (h.package file l)
  source file l := hR (h.source file l)
  program file l := hR (h.program file l)

end Respects
end Loader
end ModGraph
