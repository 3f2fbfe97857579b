import ModGraph.Proofs.ShippedCompilers

/-!
# Tasks that shadow each other

The compilers that come with the loader ask for the same modules whether they evaluate a module or only parse
it, and so does a compiler that runs on an entry that was parsed before. `Shadow` relates a task that evaluates
a module to one that follows it: instruction by instruction, apart from exports that a parse-only pass does
without. The follower also comes to its end where the first task gives up for an error that it does not run
into (`CompilerTable.shadow_standard`).
-/

namespace ModGraph

open Json (Value)
open Source (Expr Program Statement)

/-- A task is followed by another, in a parse-only pass or not. Whether the formats and the exports of their
modules agree at the beginning are the first two arguments; from the first request on both do, as far as there
are exports in the pass. -/
inductive Shadow (parsing : Bool) : Bool → Bool → Task → Task → Prop where
  | done : Shadow parsing true true .done .done
  | fail {f x : Bool} (e : LoadError) : Shadow parsing f x (.fail e) (.fail e)
  | fails {f x : Bool} (hp : parsing = true) (e : LoadError) (t : Task) : Shadow parsing f x (.fail e) t
  | setFormat {f x : Bool} {next next' : Task} (format : Format) (h : Shadow parsing true x next next') :
      Shadow parsing f x (.setFormat format next) (.setFormat format next')
  | report {f x : Bool} {next next' : Task} (event : Event) (h : Shadow parsing f x next next') :
      Shadow parsing f x (.report event next) (.report event next')
  | readSource {f x : Bool} {next next' : String → Task}
      (h : ∀ source, Shadow parsing f x (next source) (next' source)) :
      Shadow parsing f x (.readSource next) (.readSource next')
  | readProgram {f x : Bool} {next next' : Program → Task} (h : ∀ p, Shadow parsing f x (next p) (next' p)) :
      Shadow parsing f x (.readProgram next) (.readProgram next')
  | require {next next' : Dependency → Task} (request : String)
      (h : ∀ d d', (parsing = false → d = d') → Shadow parsing true true (next d) (next' d')) :
      Shadow parsing true true (.require request next) (.require request next')
  | setExports {f x : Bool} {next next' : Task} (v : Value) (h : Shadow parsing f true next next') :
      Shadow parsing f x (.setExports v next) (.setExports v next')
  | setExport {f : Bool} {next next' : Task} (name : String) (v : Value) (h : Shadow parsing f true next next') :
      Shadow parsing f true (.setExport name v next) (.setExport name v next')
  | skipExports {f x : Bool} {next t : Task} (hp : parsing = true) (v : Value) (h : Shadow parsing f x next t) :
      Shadow parsing f x (.setExports v next) t
  | skipExport {f x : Bool} {next t : Task} (hp : parsing = true) (name : String) (v : Value)
      (h : Shadow parsing f x next t) : Shadow parsing f x (.setExport name v next) t

namespace Shadow

variable {parsing f x : Bool} {next next' t : Task}

/-- A task follows itself, as far as it is told the same. -/
theorem refl (t : Task) : Shadow false true true t t := by
  induction t with
  | done => exact .done
  | fail e => exact .fail e
  | setFormat format next ih => exact .setFormat format ih
  | report event next ih => exact .report event ih
  | readSource next ih => exact .readSource ih
  | readProgram next ih => exact .readProgram ih
  | require request next ih => exact .require request fun d d' hd => hd rfl ▸ ih d
  | setExports v next ih => exact .setExports v ih
  | setExport name v next ih => exact .setExport name v ih

theorem requireAll (requests : List String) (h : Shadow parsing true true next next') :
    Shadow parsing true true (.requireAll requests next) (.requireAll requests next') := by
  induction requests with
  | nil => exact h
  | cons request rest ih => exact .require request fun _ _ _ => ih

theorem skipAssign (hp : parsing = true) (name : Option String) (v : Value) (h : Shadow parsing f x next t) :
    Shadow parsing f x (.assign name v next) t := by
  cases name with
  | none => exact .skipExports hp v h
  | some name => exact .skipExport hp name v h

variable (cx cx' : CompileContext)

/-- A legacy module that is run asks for what its program lists, until it throws. -/
theorem evaluateLegacy {statements : List Statement} (h : ∀ s ∈ statements, s.legacyFault? = none) :
    Shadow true true true (evaluateLegacy cx statements)
      (.requireAll (statements.filterMap Statement.request?) .done) := by
  induction statements with
  | nil => exact .done
  | cons first rest ih =>
    obtain ⟨hfirst, hrest⟩ := List.forall_mem_cons.mp h
    have ih := ih hrest
    cases first with
    | imports request => cases hfirst
    | exports name e => cases hfirst
    | assigns name e =>
      cases e with
      | literal v => exact skipAssign rfl name v ih
      | require request property => exact .require request fun d _ _ => skipAssign rfl name _ ih
    | evaluates e =>
      cases e with
      | literal v => exact ih
      | require request property => exact .require request fun _ _ _ => ih
    | throws message => exact .fails rfl _ _

theorem evaluateDeclarative (statements : List Statement) :
    Shadow true true true (evaluateDeclarative cx statements) .done := by
  induction statements with
  | nil => exact .done
  | cons first rest ih =>
    unfold ModGraph.evaluateDeclarative
    split
    · exact .done
    · next heq =>
      cases heq
      exact .skipExport rfl _ _ ih
    · exact .fails rfl _ _
    · next heq =>
      cases heq
      exact ih

variable (file : Path) (mode : Mode) (p : Program)

theorem runLegacy (parsing : Bool) :
    Shadow parsing f true (runLegacy ⟨file, mode, false⟩ p) (runLegacy ⟨file, mode, parsing⟩ p) := by
  refine .setFormat .legacy ?_
  cases parsing with
  | false => exact refl _
  | true =>
    cases hfault : p.statements.findSome? Statement.legacyFault? with
    | some fault => exact .fail _
    | none => exact evaluateLegacy ⟨file, mode, false⟩ (List.findSome?_eq_none_iff.mp hfault)

theorem runDeclarative (parsing : Bool) :
    Shadow parsing f true (runDeclarative ⟨file, mode, false⟩ p) (runDeclarative ⟨file, mode, parsing⟩ p) := by
  refine .setFormat .declarative ?_
  cases parsing with
  | false => exact refl _
  | true =>
    cases p.statements.findSome? Statement.declarativeFault? with
    | some fault => exact .fail _
    | none => exact requireAll p.imports (evaluateDeclarative ⟨file, mode, false⟩ p.statements)

end Shadow

/-- The compilers that come with the loader do the same in a parse-only pass as far as formats and requests go,
and in a module that was parsed before if it exports nothing yet or its file is its own value. -/
theorem CompilerTable.shadow_standard (file : Path) (mode : Mode) (parsing : Bool) {x : Bool}
    (hx : x = true ∨ file.extension = some "json") : Shadow parsing false x
      ((standard.forPath file).task ⟨file, mode, false⟩) ((standard.forPath file).task ⟨file, mode, parsing⟩) := by
  rw [forPath_standard]
  by_cases hjson : file.extension = some "json"
  · rw [hjson]
    refine .setFormat .legacy (.readSource fun source => ?_)
    cases Value.read source.toList with
    | error fault => exact .fail _
    | ok v => exact .setExports v .done
  · obtain rfl := hx.resolve_right hjson
    split
    · refine .readProgram fun p => ?_
      dsimp only
      split
      · exact .report _ (.runDeclarative file mode p parsing)
      · exact .report _ (.runLegacy file mode p parsing)
    · exact .readProgram fun p => .runDeclarative file mode p parsing
    · next hext => exact absurd hext hjson
    · exact .fail _
    · exact .readProgram fun p => .runLegacy file mode p parsing

end ModGraph
