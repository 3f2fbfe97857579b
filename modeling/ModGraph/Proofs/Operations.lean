import Mathlib.Logic.Relation
import ModGraph.Proofs.Requests

/-!
# States that a loader goes through

A loader starts without modules and is asked for one thing after the other, while the file system may
change in between (`Loader.Reachable`). Inside of a call there are the moments at which a module asks
for another one (`Moment.Asks`): the modules on the way are in progress then, and the loader is as the
nested load finds it.
-/

namespace ModGraph

open Json (Value)
open Loader (Compilation Job)
open Relation (ReflTransGen)

/-! ## Between calls -/

/-- What a loader can be asked for, and a change of the file system. -/
inductive Operation where
  | load (request : String) (parent : Option EntryId) (isMain : Bool)
  | discover (request : String) (parent : Option EntryId)
  | resolve (request : String) (parent : Option EntryId)
  | invalidate (key : String)
  | clearCache
  | registerBuiltin (name : String) (exports : Value)
  | registerCompiler (extension : String) (c : Compiler)
  | replaceCached (p : Partition) (key : String) (id : EntryId)
  | changeFiles (fs : FileSystem)

namespace Loader

/-- The loader after an operation, whether that succeeds or fails. -/
def after (l : Loader) : Operation → Loader
  | .load request parent isMain => (l.run (load request parent isMain)).2
  | .discover request parent => (l.run (discover request parent)).2
  | .resolve request parent => (l.run (resolve request parent)).2
  | .invalidate key => (l.run (invalidate key)).2
  | .clearCache => (l.run clearCache).2
  | .registerBuiltin name exports => (l.run (registerBuiltin name exports)).2
  | .registerCompiler extension c => (l.run (registerCompiler extension c)).2
  | .replaceCached p key id => (l.run (replaceCached p key id)).2
  | .changeFiles fs => { l with files := fs }

/-- Nothing was asked of the loader yet. Which builtin modules and compilers it has is left open. -/
structure Fresh (l : Loader) : Prop where
  packages : l.packages = .new l.packages.defaults
  cache : l.cache = .empty
  graph : l.graph = .empty
  sources : l.sources = .empty
  programs : l.programs = .empty
  journal : l.journal = []

theorem fresh_ofConfig (c : Config) (fs : FileSystem) : (ofConfig c fs).Fresh :=
  ⟨rfl, rfl, rfl, rfl, rfl, rfl⟩

/-- A directory with two modules that ask for each other. -/
def circularFiles : FileSystem where
  nodes := ⟨[
    (["app"], .directory),
    (["a.js", "app"], .file "exports.early = 1\nexports.b = require(\"./b.js\")".toUTF8),
    (["b.js", "app"], .file "exports.seen = require(\"./a.js\").early".toUTF8)]⟩
  workingDirectory := ["app"]

/-- A loader with nothing set, before the modules of `circularFiles` are asked for. -/
def circular : Loader := .ofConfig (.default ⟨none, none⟩) circularFiles

/-- The loaders that some operations lead to from some start. -/
inductive Reachable (start : Loader → Prop) (allowed : Loader → Operation → Prop) : Loader → Prop where
  | start {l : Loader} (h : start l) : Reachable start allowed l
  | after {l : Loader} {op : Operation} (h : Reachable start allowed l) (hop : allowed l op) :
      Reachable start allowed (l.after op)

/-- What the start and each allowed operation ensure holds of every reachable loader. -/
theorem Reachable.invariant {start : Loader → Prop} {allowed : Loader → Operation → Prop}
    {P : Loader → Prop} (hstart : ∀ l, start l → P l)
    (hafter : ∀ l op, P l → allowed l op → P (l.after op)) {l : Loader}
    (h : Reachable start allowed l) : P l := by
  induction h with
  | start h => exact hstart _ h
  | after _ hop ih => exact hafter _ _ ih hop

end Loader

/-! ## Inside of a call -/

/-- A moment in a call: a request is about to be answered. -/
structure Moment where
  /-- How deep requests may nest from here on. -/
  limit : Nat
  /-- The request. -/
  request : String
  /-- The entry that makes it. -/
  parent : Option EntryId
  /-- Whether the main module is asked for. -/
  isMain : Bool
  /-- The modules in progress, the innermost first. -/
  stack : List Job
  /-- The loader. -/
  loader : Loader

namespace Moment

/-- What happens next. -/
def action (m : Moment) : LoadM EntryId :=
  Loader.reported m.request (Loader.answer (Loader.loadNested m.limit) m.request m.parent m.isMain)

/-- One instruction of a compiler's task. -/
def TaskStep (nested : NestedLoad) (id : EntryId) (filename : Path) (a b : Task × Loader) : Prop :=
  a.2.run (Loader.stepTask nested id filename a.1) = (.ok (some b.1), b.2)

/-- The module that is asked for at one moment asks for another one at the next: its slot is marked, its
compiler has begun, and its task has come to a request. -/
inductive Asks : Moment → Moment → Prop where
  | intro {m : Moment} {limit : Nat} {job : Job} {c : Compilation} {request : String}
      {next : Dependency → Task} {l₁ l₂ l₃ l₄ : Loader}
      (hlimit : m.limit = limit + 1)
      (hseek : m.loader.run (do
          Loader.report (.enters m.request .resolving)
          Loader.seek m.request m.parent m.isMain) = (.ok (.needs job), l₁))
      (hoccupy : l₁.run (Loader.occupy job) = (.ok (), l₂))
      (hbegin : l₂.run (Loader.beginCompile job.id job.target.filename) = (.ok c, l₃))
      (htask : ReflTransGen (TaskStep (Loader.loadNested m.limit) job.id job.target.filename)
        (c.task, l₃) (.require request next, l₄)) :
      Asks m ⟨limit, request, some job.id, false, job :: m.stack, l₄⟩

/-- The later moment is the beginning of the nested load. -/
theorem Asks.action_eq {m m' : Moment} (h : Asks m m') :
    ∃ id, m'.parent = some id ∧ m'.action = Loader.loadNested m.limit m'.request id := by
  cases h with
  | intro hlimit => exact ⟨_, rfl, by rw [hlimit]; rfl⟩

/-- What a task does step by step it does altogether. -/
theorem rel_of_taskSteps {R : Loader → Loader → Prop} {nested : NestedLoad} {id : EntryId}
    {filename : Path} (hR : Loader.Compiles id R) (hr : ∀ event, Loader.Follows R (Loader.report event))
    (hn : ∀ request, Loader.Follows R (nested request id))
    {a b : Task × Loader} (h : ReflTransGen (TaskStep nested id filename) a b) : R a.2 b.2 := by
  have := hR.toIsPreorder
  induction h with
  | refl => exact refl a.2
  | @tail b c _ hbc ih =>
    have hstep := Loader.ends_self.mp (hR.stepTask .self (fun request => Loader.ends_self.mpr (hn request))
      filename (Task.within_of_all hr (fun _ => trivial) (fun _ => trivial) b.1)) b.2
    rw [hbc] at hstep
    exact IsTrans.trans _ _ _ ih hstep

/-! ### Tasks step by step -/

open Loader

variable {nested : NestedLoad} {id : EntryId} {filename : Path} {t : Task} {l l' : Loader} {e : LoadError}

theorem run_runTask_of_taskSteps {a b : Task × Loader} (h : ReflTransGen (TaskStep nested id filename) a b) :
    a.2.run (runTask nested id filename a.1) = b.2.run (runTask nested id filename b.1) := by
  induction h with
  | refl => rfl
  | @tail b _ _ hbc ih =>
    refine ih.trans ?_
    rw [runTask_eq, run_bind, hbc]
    rfl

/-- A task comes to an instruction at which it stops: it is done there, or it fails. -/
def Stops (nested : NestedLoad) (id : EntryId) (filename : Path) (a : Task × Loader) : Prop :=
  ∃ b, ReflTransGen (TaskStep nested id filename) a b ∧
    (b.1 = .done ∨ ∃ e, (b.2.run (stepTask nested id filename b.1)).1 = .error e)

/-- A task stops at its first instruction, or where what is left of it does. -/
theorem stops_of_bind {α : Type} (action : LoadM α) (next : α → Task)
    (hstep : stepTask nested id filename t = action >>= fun a => pure (some (next a)))
    (ih : ∀ a l, Stops nested id filename (next a, l)) : Stops nested id filename (t, l) := by
  have hrun : l.run (stepTask nested id filename t) = andThen (l.run action) fun a => pure (some (next a)) := by
    rw [hstep, run_bind]
  generalize l.run action = r at hrun
  obtain ⟨e | a, l₁⟩ := r
  · exact ⟨(t, l), .refl, .inr ⟨e, congrArg Prod.fst hrun⟩⟩
  · obtain ⟨b, hb, hstop⟩ := ih a l₁
    have hfirst : TaskStep nested id filename (t, l) (next a, l₁) := hrun
    exact ⟨b, .head hfirst hb, hstop⟩

theorem stops (nested : NestedLoad) (id : EntryId) (filename : Path) (t : Task) (l : Loader) :
    Stops nested id filename (t, l) := by
  induction t generalizing l with
  | done => exact ⟨_, .refl, .inl rfl⟩
  | fail e => exact ⟨_, .refl, .inr ⟨e, rfl⟩⟩
  | setFormat format next ih => exact stops_of_bind (setFormat id format) (fun _ => next) rfl fun _ => ih
  | report event next ih => exact stops_of_bind (Loader.report event) (fun _ => next) rfl fun _ => ih
  | readSource next ih => exact stops_of_bind (sourceOf filename) next rfl ih
  | readProgram next ih => exact stops_of_bind (programOf filename) next rfl ih
  | require request next ih => exact stops_of_bind (nested request id >>= dependency) next (by simp [stepTask]) ih
  | setExports v next ih =>
    exact stops_of_bind (updateEntry id fun e => e.setExports v) (fun _ => next) rfl fun _ => ih
  | setExport name v next ih =>
    exact stops_of_bind (updateEntry id fun e => e.setExport name v) (fun _ => next) rfl fun _ => ih

/-- A task that comes to its end does so step by step. -/
theorem taskSteps_of_run (h : l.run (runTask nested id filename t) = (.ok (), l')) :
    ReflTransGen (TaskStep nested id filename) (t, l) (.done, l') := by
  obtain ⟨⟨last, l₁⟩, hsteps, hdone | ⟨e, hfail⟩⟩ := stops nested id filename t l
  · obtain rfl := hdone
    have hend := (run_runTask_of_taskSteps hsteps).symm.trans h
    cases hend
    exact hsteps
  · have hend := (run_runTask_of_taskSteps hsteps).symm.trans h
    rw [runTask_eq, run_bind] at hend
    generalize l₁.run (stepTask nested id filename last) = r at hend hfail
    obtain ⟨e' | _, l₂⟩ := r
    · cases hend
    · cases hfail

/-- A task that fails does so at some instruction. -/
theorem exists_failing_step (h : l.run (runTask nested id filename t) = (.error e, l')) :
    ∃ b, ReflTransGen (TaskStep nested id filename) (t, l) b ∧
      b.2.run (stepTask nested id filename b.1) = (.error e, l') := by
  obtain ⟨⟨last, l₁⟩, hsteps, hdone | ⟨e', hfail⟩⟩ := stops nested id filename t l
  · obtain rfl := hdone
    have hend := (run_runTask_of_taskSteps hsteps).symm.trans h
    cases hend
  · have hend := (run_runTask_of_taskSteps hsteps).symm.trans h
    rw [runTask_eq, run_bind] at hend
    refine ⟨(last, l₁), hsteps, ?_⟩
    dsimp only
    generalize l₁.run (stepTask nested id filename last) = r at hend hfail
    obtain ⟨e' | _, l₂⟩ := r
    · cases hend
      rfl
    · cases hfail

end Moment

/-- The moment at which a call begins, if it loads something. -/
def Loader.beginning? (l : Loader) : Operation → Option Moment
  | .load request parent isMain => some ⟨l.nestingBound request, request, parent, isMain, [], l⟩
  | .discover request parent =>
    let l := l.withParsing true
    some ⟨l.nestingBound request, request, parent, false, [], l⟩
  | _ => none

/-- A call comes to a moment. -/
def Loader.ComesTo (l : Loader) (op : Operation) (m : Moment) : Prop :=
  ∃ first, l.beginning? op = some first ∧ ReflTransGen Moment.Asks first m

end ModGraph
