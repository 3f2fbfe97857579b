import Mathlib.Data.Fintype.Card
import Mathlib.Data.Set.Finite.Lattice
import ModGraph.Proofs.Nesting
import ModGraph.Proofs.World

/-!
# What a file comes to

The exports of a file, or the error that stands in their place, without any loader: the statements of
its program are folded one after the other, and the outcomes of other files stand in for requests
(`World.evaluate`). Where no file asks for itself, directly or through others, this is a recursion on
the files that are asked for, and `World.outcome` is its result. That it ends is `World.acc_of_acyclic`:
only finitely many files can be asked for, and along a chain of requests none comes twice.
-/

namespace ModGraph

open Json (Value)
open Loader (possibleKeys)
open Relation (ReflTransGen TransGen)
open Source (Expr Statement Program)

/-! ## Programs without their requests -/

/-- A value, or one property of it; a property that is not there is null. -/
def Json.Value.property (v : Value) : Option String → Value
  | none => v
  | some name => (v.get? name).getD .null

/-- The exports after an assignment to all of them, or to one property. -/
def Json.Value.assigned (exports : Value) (name : Option String) (v : Value) : Value :=
  match name with
  | none => v
  | some name => exports.set name v

/-- Why a statement cannot stand in a module of some format. -/
def Format.fault? : Format → Statement → Option CompileFault
  | .legacy => Statement.legacyFault?
  | .declarative => Statement.declarativeFault?

/-- A program is run as a module of some format. -/
def Format.run (cx : CompileContext) (p : Program) : Format → Task
  | .legacy => runLegacy cx p
  | .declarative => runDeclarative cx p

/-- What a statement of a legacy module does to the exports. -/
def legacyStep (ask : String → Except LoadError Value) (file : Path) (exports : Value) :
    Statement → Except LoadError Value
  | .assigns name (.literal v) => return exports.assigned name v
  | .assigns name (.require request property) => do
    let v ← ask request
    return exports.assigned name (v.property property)
  | .evaluates (.require request _) => do
    let _ ← ask request
    return exports
  | .throws message => throw (.compile file (.thrown message))
  | _ => return exports

/-- What a statement of a declarative module does to the exports, when its imports are loaded. -/
def declarativeStep (file : Path) (exports : Value) : Statement → Except LoadError Value
  | .exports name (.literal v) => return exports.set name v
  | .throws message => throw (.compile file (.thrown message))
  | _ => return exports

/-- What a file holds. -/
inductive Body where
  /-- A value. -/
  | value (v : Value)
  /-- A program that can stand in a module of its format. -/
  | program (format : Format) (p : Program)

namespace World

variable (w : World)

/-! ## Files -/

/-- The format of the module of a file with a program. -/
def format (file : Path) (p : Program) : Format :=
  let declarative := match file.extension with
    | some "js" => (w.package file).options.mode.isDeclarative p
    | some "mjs" => true
    | _ => false
  if declarative then .declarative else .legacy

/-- The program of a file, if it can stand in a module of its format. -/
def checked (file : Path) (p : Program) : Except LoadError Body :=
  let format := w.format file p
  match p.statements.findSome? format.fault? with
  | some fault => throw (.compile file fault)
  | none => return .program format p

/-- The value of a file with a JSON text. -/
def valueOf (file : Path) (source : String) : Except LoadError Body :=
  match Value.read source.toList with
  | .ok v => return .value v
  | .error fault => throw (.compile file (.badJson fault source.toList))

/-- What is found in a file. -/
def body (file : Path) : Except LoadError Body :=
  match file.extension with
  | some "json" => w.source file >>= valueOf file
  | some "node" => throw (.unsupported file "native addons are not supported")
  | _ => do
    let p ← w.program file
    w.checked file p

/-- What a request of a file stands for. Where the package of the file allows it, a failure is followed
by a look-up in the folders for legacy modules; if that fails too, the first error counts. -/
def resolve (file : Path) (format : Format) (request : String) : Except LoadError Resolution :=
  let q : Resolver.Query := ⟨(splitQuery request).1, some file, format, false, []⟩
  match w.resolver.resolve w.files q with
  | .ok found => return found
  | .error e =>
    if (w.package file).options.cjs.paths && file.extension != some "mjs" then
      let search := w.resolver.legacySearchPaths file.directory
      (w.resolver.resolve w.files { q with format := .legacy, search := search }).mapError fun _ => e
    else throw e

/-- The files that a file asks for. A program that cannot stand in a module asks for nothing. -/
def children (file : Path) : List Path :=
  match w.body file with
  | .ok (.program format p) => p.requests.filterMap fun request =>
    match w.resolve file format request with
    | .ok (.file child) => some child
    | _ => none
  | _ => []

/-- One file asks for another. -/
def Asks (file child : Path) : Prop := child ∈ w.children file

instance (file child : Path) : Decidable (w.Asks file child) :=
  inferInstanceAs (Decidable (child ∈ w.children file))

/-- No file asks for itself, directly or through others, as far as they are asked for by some file. -/
def Acyclic (file : Path) : Prop := ∀ f, ReflTransGen w.Asks file f → ¬ TransGen w.Asks f f

/-! ## Evaluation -/

/-- What is found comes to, given what files come to. -/
def answer (outcome : Path → Except LoadError Value) : Resolution → Except LoadError Value
  | .builtin name => return w.builtin name
  | .file file => outcome file

/-- What a request of a file comes to. -/
def ask (outcome : Path → Except LoadError Value) (file : Path) (format : Format) (request : String) :
    Except LoadError Value :=
  w.resolve file format request >>= w.answer outcome

/-- What a program comes to. The imports of a declarative module are loaded before it is run. -/
def fold (outcome : Path → Except LoadError Value) (file : Path) (p : Program) :
    Format → Except LoadError Value
  | .legacy => p.statements.foldlM (legacyStep (w.ask outcome file .legacy) file) (.object [])
  | .declarative => do
    let _ ← p.imports.mapM (w.ask outcome file .declarative)
    p.statements.foldlM (declarativeStep file) (.object [])

/-- What is found in a file comes to. -/
def value (outcome : Path → Except LoadError Value) (file : Path) : Body → Except LoadError Value
  | .value v => return v
  | .program format p => w.fold outcome file p format

/-- What a file comes to, given what the files that it asks for come to. -/
def evaluate (outcome : Path → Except LoadError Value) (file : Path) : Except LoadError Value :=
  w.body file >>= w.value outcome file

/-! ## Compilers -/

variable {w} {file child : Path}

theorem body_eq_program (h : file.HoldsProgram) : w.body file = w.program file >>= w.checked file := by
  unfold body
  split
  · next hjson => exact absurd hjson h.1
  · next hnode => exact absurd hnode h.2
  · rfl

/-- The module of a file with a program has the format that the file demands. -/
theorem format_eq_declarative_iff {p : Program} (hp : w.program file = .ok p) : w.format file p = .declarative ↔
    IsDeclarative file (w.package file).options.mode (w.program file) := by
  unfold format IsDeclarative
  split
  · next hjs => simpa [hjs, hp, isDeclarative_mode] using or_iff_not_imp_left.symm
  · next hmjs => simp [hmjs]
  · next hjs hmjs =>
    have hother : file.extension ≠ some "js" ∧ file.extension ≠ some "mjs" := ⟨hjs, hmjs⟩
    simp [hother]

/-- What the compilers that come with the loader do to a file is to run its program as a module of its format, to
take its value, or to reject it, as it is said in the body of the file. -/
theorem task_standard {P : Task → Prop} (cx : CompileContext)
    (hmode : cx.mode = (w.package cx.filename).options.mode)
    (hread : w.body cx.filename = w.program cx.filename >>= w.checked cx.filename →
      ∀ next, (∀ p, w.program cx.filename = .ok p → P (next p)) → P (.readProgram next))
    (hreport : ∀ event next, P next → P (.report event next))
    (hprogram : ∀ p, w.body cx.filename = w.checked cx.filename p → P ((w.format cx.filename p).run cx p))
    (hjson : w.body cx.filename = w.source cx.filename >>= valueOf cx.filename → P (Compiler.json.task cx))
    (hnative : w.body cx.filename = throw (.unsupported cx.filename "native addons are not supported") →
      P (Compiler.native.task cx)) : P ((CompilerTable.standard.forPath cx.filename).task cx) := by
  have hrun : ∀ {p}, cx.filename.HoldsProgram → w.program cx.filename = .ok p →
      P ((w.format cx.filename p).run cx p) := by
    intro p hholds hp
    refine hprogram p ?_
    rw [body_eq_program hholds, hp]
    rfl
  refine CompilerTable.task_standard cx (w.program cx.filename) (fun h => hread (body_eq_program h)) hreport
    (fun hholds hdeclarative p hp => ?_) (fun hholds hlegacy p hp => ?_) (fun hext => hjson ?_)
    fun hext => hnative ?_
  · have hformat : w.format cx.filename p = .declarative := (format_eq_declarative_iff hp).mpr (hmode ▸ hdeclarative)
    have hp := hrun hholds hp
    rwa [hformat] at hp
  · have hformat : w.format cx.filename p = .legacy := by
      cases hf : w.format cx.filename p with
      | legacy => rfl
      | declarative => exact absurd (hmode ▸ (format_eq_declarative_iff hp).mp hf) hlegacy
    have hp := hrun hholds hp
    rwa [hformat] at hp
  · rw [body, hext]
    rfl
  · rw [body, hext]
    rfl

/-! ## Recursion -/


theorem Acyclic.of_asks (h : w.Acyclic file) (ha : w.Asks file child) : w.Acyclic child :=
  fun f hf => h f (.head ha hf)

theorem asks_of_resolve {format : Format} {p : Program} {request : String}
    (hbody : w.body file = .ok (.program format p)) (hr : request ∈ p.requests)
    (h : w.resolve file format request = .ok (.file child)) : w.Asks file child := by
  unfold Asks children
  rw [hbody]
  exact List.mem_filterMap.mpr ⟨request, hr, by rw [h]⟩

theorem resolve_of_resolve {format : Format} {request : String} {found : Resolution}
    (h : w.resolve file format request = .ok found) : ∃ q, w.resolver.resolve w.files q = .ok found := by
  unfold resolve at h
  dsimp only at h
  split at h
  · next hq =>
    cases h
    exact ⟨_, hq⟩
  · split at h
    · generalize hq : w.resolver.resolve w.files _ = r at h
      cases r with
      | error e => cases h
      | ok found =>
        cases h
        exact ⟨_, hq⟩
    · cases h

theorem resolve_of_asks (h : w.Asks file child) :
    ∃ q, w.resolver.resolve w.files q = .ok (.file child) := by
  unfold Asks children at h
  split at h
  · obtain ⟨request, -, hr⟩ := List.mem_filterMap.mp h
    split at hr
    · next found hfound =>
      cases hr
      exact resolve_of_resolve hfound
    · cases hr
  · cases h

/-- Only finitely many files can be reached from one. -/
theorem finite_reached (file : Path) : {f | ReflTransGen w.Asks file f}.Finite := by
  have hpossible : ((possibleKeys w.files 0 : Set String).image Path.mk).Finite :=
    (possibleKeys w.files 0).finite_toSet.image _
  refine (hpossible.insert file).subset fun f hf => ?_
  rcases hf.cases_tail with rfl | ⟨f', -, ha⟩
  · exact Set.mem_insert _ _
  · refine Set.mem_insert_of_mem _ ⟨f.text, ?_, rfl⟩
    obtain ⟨q, hq⟩ := resolve_of_asks ha
    have hmem : f.text ++ "" ∈ possibleKeys w.files 0 := Loader.mem_possibleKeys_of_resolve hq (Nat.le_refl _)
    rwa [String.append_empty] at hmem

/-- Where no file comes twice along a chain of requests, all chains end. -/
theorem acc_of_acyclic (h : w.Acyclic file) : Acc (fun child file => w.Asks file child) file := by
  have hfinite : Finite {f | ReflTransGen w.Asks file f} := finite_reached file
  let below (child f : {f | ReflTransGen w.Asks file f}) : Prop := TransGen w.Asks f.1 child.1
  have htrans : IsTrans _ below := ⟨fun _ _ _ h h' => TransGen.trans h' h⟩
  have hirrefl : Std.Irrefl below := ⟨fun f => h f.1 f.2⟩
  have hwf : WellFounded below := Finite.wellFounded_of_trans_of_irrefl below
  have hacc : ∀ f, Acc (fun child file => w.Asks file child) (Subtype.val f) := fun f => by
    induction f using hwf.induction with
    | h f ih => exact .intro _ fun child ha => ih ⟨child, f.2.tail ha⟩ (.single ha)
  exact hacc ⟨file, .refl⟩

instance : WellFoundedRelation {file // w.Acyclic file} where
  rel child file := w.Asks file.1 child.1
  wf := ⟨fun file => InvImage.accessible Subtype.val (acc_of_acyclic file.2)⟩

/-- What a file comes to. -/
def outcome (w : World) (file : Path) (h : w.Acyclic file) : Except LoadError Value :=
  w.evaluate (fun child =>
    if ha : w.Asks file child then w.outcome child (h.of_asks ha)
    else throw (.nestedTooDeep child.text)) file
termination_by (⟨file, h⟩ : {file // w.Acyclic file})
decreasing_by exact ha

/-- What the files come to that a file asks for. -/
def childOutcome (h : w.Acyclic file) (child : Path) : Except LoadError Value :=
  if ha : w.Asks file child then w.outcome child (h.of_asks ha)
  else throw (.nestedTooDeep child.text)

theorem outcome_eq (h : w.Acyclic file) : w.outcome file h = w.evaluate (w.childOutcome h) file := by
  rw [outcome]
  rfl

section Unique

variable {f g : Path → Except LoadError Value}

theorem legacyStep_congr {ask ask' : String → Except LoadError Value} {s : Statement}
    (h : ∀ request, s.request? = some request → ask request = ask' request) (x : Value) :
    legacyStep ask file x s = legacyStep ask' file x s := by
  cases s with
  | imports request => rfl
  | exports name e => rfl
  | throws message => rfl
  | assigns name e =>
    cases e with
    | literal v => rfl
    | require request property => rw [legacyStep, h request rfl, legacyStep]
  | evaluates e =>
    cases e with
    | literal v => rfl
    | require request property => rw [legacyStep, h request rfl, legacyStep]

theorem foldlM_legacyStep_congr {ask ask' : String → Except LoadError Value} {statements : List Statement}
    (h : ∀ request ∈ statements.filterMap Statement.request?, ask request = ask' request) (x : Value) :
    statements.foldlM (legacyStep ask file) x = statements.foldlM (legacyStep ask' file) x := by
  induction statements generalizing x with
  | nil => rfl
  | cons s rest ih =>
    rw [List.foldlM_cons, List.foldlM_cons, legacyStep_congr (fun request hr => h request ?_)]
    · refine congrArg _ (funext fun y => ih (fun request hr => h request ?_) y)
      obtain ⟨s', hs', hr⟩ := List.mem_filterMap.mp hr
      exact List.mem_filterMap.mpr ⟨s', List.mem_cons_of_mem _ hs', hr⟩
    · exact List.mem_filterMap.mpr ⟨s, List.mem_cons_self, hr⟩

theorem mapM_congr_of_mem {ask ask' : String → Except LoadError Value} {requests : List String}
    (h : ∀ request ∈ requests, ask request = ask' request) : requests.mapM ask = requests.mapM ask' := by
  induction requests with
  | nil => rfl
  | cons request rest ih =>
    rw [List.mapM_cons, List.mapM_cons, h request List.mem_cons_self,
      ih fun r hr => h r (List.mem_cons_of_mem _ hr)]

/-- What a file comes to depends only on the files that it asks for. -/
theorem evaluate_congr (h : ∀ child, w.Asks file child → f child = g child) :
    w.evaluate f file = w.evaluate g file := by
  unfold evaluate
  cases hbody : w.body file with
  | error e => rfl
  | ok body =>
    cases body with
    | value v => rfl
    | program format p =>
      have hask : ∀ request ∈ p.requests, w.ask f file format request = w.ask g file format request := by
        intro request hr
        unfold ask
        cases hresolve : w.resolve file format request with
        | error e => rfl
        | ok found =>
          cases found with
          | builtin name => rfl
          | file child => exact h child (asks_of_resolve hbody hr hresolve)
      cases format with
      | legacy => exact foldlM_legacyStep_congr hask _
      | declarative =>
        have himports : ∀ request ∈ p.imports,
            w.ask f file .declarative request = w.ask g file .declarative request := fun request hr =>
          hask request (mem_requests_of_mem_imports hr)
        exact congrArg (· >>= fun _ => p.statements.foldlM (declarativeStep file) (.object []))
          (mapM_congr_of_mem himports)

/-- Outcomes are the only solution of their recursion. -/
theorem outcome_unique (hf : ∀ file, w.Acyclic file → f file = w.evaluate f file) (h : w.Acyclic file) :
    f file = w.outcome file h := by
  have hacc := acc_of_acyclic h
  induction hacc with
  | intro file _ ih =>
    rw [hf file h, outcome_eq]
    refine evaluate_congr fun child ha => ?_
    rw [ih child ha (h.of_asks ha), childOutcome, dif_pos ha]

end Unique

/-! ## Modules at work -/

/-- What is known about the entry of a file's module that has the search paths of another format. -/
def searcher (w : World) (id : EntryId) (file : Path) (format before : Format) : Referrer where
  id := id
  filename := file
  format := format
  package := w.package file
  paths := Loader.searchPaths w.resolver (w.package file) before file

/-- Where search paths do not matter, or are those for legacy modules, requests stand for what they should. -/
theorem resolution_searcher {w : World} {id : EntryId} {file : Path} {format before : Format} {request : String}
    (h : (w.package file).options.cjs.paths = true → file.extension ≠ some "mjs" → before = .legacy) :
    Loader.resolution w.resolver w.files (splitQuery request).1 (some (w.searcher id file format before)) false
      = w.resolve file format request := by
  unfold Loader.resolution resolve Loader.globalQuery?
  dsimp only [Loader.query, Option.map_some, Option.getD_some, searcher]
  generalize w.resolver.resolve w.files _ = first
  cases first with
  | ok found => rfl
  | error e =>
    dsimp only
    by_cases hpaths : (w.package file).options.cjs.paths = true
    · by_cases hext : file.extension = some "mjs"
      · simp [Option.filter, Loader.searchesGlobally, hext]
        rfl
      · simp [Option.filter, Loader.searchesGlobally, hpaths, hext, Loader.searchPaths, h hpaths hext]
    · simp [Option.filter, Loader.searchesGlobally, hpaths]
      rfl

/-- What is known about the entry of a file's module when it makes a request. -/
def referrer (w : World) (id : EntryId) (file : Path) (format : Format) : Referrer where
  id := id
  filename := file
  format := format
  package := w.package file
  paths := Loader.searchPaths w.resolver (w.package file) ((Format.ofPath? file).getD .legacy) file

theorem ofPath?_ne_declarative (h : file.extension ≠ some "mjs") :
    (Format.ofPath? file).getD .legacy = .legacy := by
  unfold Format.ofPath?
  split <;> simp_all

/-- Where packages are searched again, it is in the folders for legacy modules. -/
theorem resolution_referrer (w : World) (id : EntryId) (file : Path) (format : Format) (request : String) :
    Loader.resolution w.resolver w.files (splitQuery request).1 (some (w.referrer id file format)) false
      = w.resolve file format request :=
  resolution_searcher fun _ hext => ofPath?_ne_declarative hext

end World

end ModGraph
