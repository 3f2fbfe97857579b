import ModGraph.Proofs.Follows

/-!
# The compilers that come with the loader

Which of them takes a file follows from its extension, and it runs the program of the file as a declarative module
exactly if the file should be one (`CompilerTable.task_standard`). Their tasks report nothing but what a file was
classified as, they ask for nothing but what the file's program asks for, and they fail for nothing but the file
(`Compiler.within_of_isShipped`).
-/

namespace ModGraph

open Source (Expr Statement Program)

/-- Whether a file is a declarative module: by its extension, by the mode of its package, or as its program
has an import or export declaration. -/
def IsDeclarative (file : Path) (mode : Mode) (program : Except LoadError Program) : Prop :=
  file.extension = some "mjs" ∨ file.extension = some "js" ∧
    (mode = .all ∨ mode = .auto ∧ ∃ p, program = .ok p ∧ ∃ s ∈ p.statements, s.isDeclaration = true)

/-- A file holds a program: no value and no addon. -/
def Path.HoldsProgram (file : Path) : Prop := file.extension ≠ some "json" ∧ file.extension ≠ some "node"

theorem isDeclarative_mode {mode : Mode} {p : Program} : mode.isDeclarative p = true ↔
    mode = .all ∨ mode = .auto ∧ ∃ s ∈ p.statements, s.isDeclaration = true := by
  cases mode <;> simp [Mode.isDeclarative, Program.hasModuleSyntax]

/-- A compiler was not added from outside. -/
def Compiler.isShipped : Compiler → Bool
  | plugin _ _ => false
  | _ => true

namespace CompilerTable

/-- No compiler of a table was added from outside. -/
def Shipped (t : CompilerTable) : Prop := ∀ ext c, t.byExtension.get? ext = some c → c.isShipped = true

variable {t : CompilerTable}

theorem Shipped.register (h : t.Shipped) (ext : String) {c : Compiler} (hc : c.isShipped = true) :
    (t.register ext c).Shipped := by
  intro ext' c' hget
  rw [CompilerTable.register, Table.get?_insert] at hget
  split at hget
  · exact Option.some.inj hget ▸ hc
  · exact h _ _ hget

theorem shipped_standard : standard.Shipped := by
  have hempty : (CompilerTable.mk .empty).Shipped := fun _ _ h => by simp at h
  exact ((((hempty.register _ rfl).register _ rfl).register _ rfl).register _ rfl).register _ rfl

theorem Shipped.forPath (h : t.Shipped) (file : Path) : (t.forPath file).isShipped = true := by
  unfold CompilerTable.forPath
  cases hc : (t.extension? file).bind t.byExtension.get? with
  | none => rfl
  | some c =>
    obtain ⟨ext, -, hget⟩ := Option.bind_eq_some_iff.mp hc
    exact h _ _ hget

/-- Which of the compilers that come with the loader takes a file. -/
theorem forPath_standard (file : Path) :
    standard.forPath file = match file.extension with
      | some "js" => .script
      | some "mjs" => .declarative
      | some "json" => .json
      | some "node" => .native
      | _ => .legacy := by
  have hget : ∀ ext, standard.byExtension.get? ("." ++ ext) =
      if ext = "node" then some .native
      else if ext = "json" then some .json
      else if ext = "mjs" then some .declarative
      else if ext = "cjs" then some .legacy
      else if ext = "js" then some .script
      else none := fun ext => by
    have happend : ∀ t, "." ++ t = "." ++ ext ↔ ext = t := fun t => by
      rw [eq_comm, String.append_right_inj]
    simp only [standard, register, Table.get?_insert, Table.get?_empty]
    rw [show ".node" = "." ++ "node" from rfl, show ".json" = "." ++ "json" from rfl,
      show ".mjs" = "." ++ "mjs" from rfl, show ".cjs" = "." ++ "cjs" from rfl,
      show ".js" = "." ++ "js" from rfl]
    simp only [happend]
  have hpath : standard.forPath file =
      (file.extension.bind fun ext => standard.byExtension.get? ("." ++ ext)).getD .legacy := by
    unfold forPath extension?
    cases file.extension with
    | none => rfl
    | some ext =>
      simp only [Option.map_some, Option.bind_some, Option.filter]
      by_cases h : standard.byExtension.contains ("." ++ ext) = true
      · rw [if_pos h, Option.bind_some]
      · rw [if_neg h, Option.not_isSome_iff_eq_none.mp h]
        rfl
  rw [hpath]
  cases file.extension with
  | none => rfl
  | some ext =>
    rw [Option.bind_some, hget]
    by_cases hnode : ext = "node"
    · subst hnode
      rfl
    by_cases hjson : ext = "json"
    · subst hjson
      rfl
    by_cases hmjs : ext = "mjs"
    · subst hmjs
      rfl
    by_cases hjs : ext = "js"
    · subst hjs
      rfl
    have hlegacy : (if ext = "cjs" then some Compiler.legacy else none).getD .legacy = .legacy := by
      split <;> rfl
    simp only [hnode, hjson, hmjs, hjs, if_false, hlegacy]
    split <;> simp_all

/-- The compilers that come with the loader run a program as a declarative module exactly if its file should be
one. -/
theorem task_standard {P : Task → Prop} (cx : CompileContext) (program : Except LoadError Program)
    (hread : cx.filename.HoldsProgram → ∀ next, (∀ p, program = .ok p → P (next p)) → P (.readProgram next))
    (hreport : ∀ event next, P next → P (.report event next))
    (hdeclarative : cx.filename.HoldsProgram → IsDeclarative cx.filename cx.mode program →
      ∀ p, program = .ok p → P (runDeclarative cx p))
    (hlegacy : cx.filename.HoldsProgram → ¬ IsDeclarative cx.filename cx.mode program →
      ∀ p, program = .ok p → P (runLegacy cx p))
    (hjson : cx.filename.extension = some "json" → P (Compiler.json.task cx))
    (hnative : cx.filename.extension = some "node" → P (Compiler.native.task cx)) :
    P ((standard.forPath cx.filename).task cx) := by
  rw [forPath_standard]
  split
  · next hjs =>
    have hholds : cx.filename.HoldsProgram := ⟨by simp [hjs], by simp [hjs]⟩
    -- the extension leaves the format to the mode and the program
    refine hread hholds _ fun p hp => ?_
    have hiff : IsDeclarative cx.filename cx.mode program ↔ cx.mode.isDeclarative p = true := by
      rw [isDeclarative_mode]
      simp [IsDeclarative, hjs, hp]
    split
    · next hd => exact hreport _ _ (hdeclarative hholds (hiff.mpr hd) p hp)
    · next hd => exact hreport _ _ (hlegacy hholds (fun h => hd (hiff.mp h)) p hp)
  · next hmjs =>
    have hholds : cx.filename.HoldsProgram := ⟨by simp [hmjs], by simp [hmjs]⟩
    exact hread hholds _ (hdeclarative hholds (.inl hmjs))
  · next h => exact hjson h
  · next h => exact hnative h
  · next hjs hmjs hjson hnode =>
    have hholds : cx.filename.HoldsProgram := ⟨hjson, hnode⟩
    refine hread hholds _ (hlegacy hholds ?_)
    rintro (h | ⟨h, -⟩)
    · exact hmjs h
    · exact hjs h

end CompilerTable

namespace Task

variable {heard : Event → Prop} {asked : String → Prop} {failing : LoadError → Prop} {next : Task}

theorem within_requireAll {requests : List String} (h : ∀ request ∈ requests, asked request)
    (hnext : next.Within heard asked failing) : (requireAll requests next).Within heard asked failing := by
  induction requests with
  | nil => exact hnext
  | cons request rest ih =>
    exact ⟨h _ List.mem_cons_self, fun _ => ih fun r hr => h r (List.mem_cons_of_mem _ hr)⟩

theorem within_assign (name : Option String) (v : Json.Value) (hnext : next.Within heard asked failing) :
    (assign name v next).Within heard asked failing := by
  cases name <;> exact hnext

end Task

section Tasks

variable {heard : Event → Prop} {asked : String → Prop} {failing : LoadError → Prop}
  {cx : CompileContext} (hfault : ∀ fault, failing (.compile cx.filename fault))
include hfault

theorem within_evaluateLegacy {statements : List Statement}
    (h : ∀ request ∈ statements.filterMap Statement.request?, asked request) :
    (evaluateLegacy cx statements).Within heard asked failing := by
  induction statements with
  | nil => trivial
  | cons first rest ih =>
    have hfirst : ∀ request, first.request? = some request → asked request := fun request hr =>
      h request (List.mem_filterMap.mpr ⟨first, List.mem_cons_self, hr⟩)
    have hrest := ih fun request hr => by
      obtain ⟨s, hs, hr⟩ := List.mem_filterMap.mp hr
      exact h request (List.mem_filterMap.mpr ⟨s, List.mem_cons_of_mem _ hs, hr⟩)
    unfold evaluateLegacy
    split
    · trivial
    · next heq =>
      cases heq
      exact Task.within_assign _ _ hrest
    · next heq =>
      cases heq
      exact ⟨hfirst _ rfl, fun d => Task.within_assign _ _ hrest⟩
    · next heq =>
      cases heq
      exact ⟨hfirst _ rfl, fun d => hrest⟩
    · exact hfault _
    · next heq =>
      cases heq
      exact hrest

theorem within_evaluateDeclarative (statements : List Statement) :
    (evaluateDeclarative cx statements).Within heard asked failing := by
  induction statements with
  | nil => trivial
  | cons first rest ih =>
    unfold evaluateDeclarative
    split
    · trivial
    · next heq =>
      cases heq
      exact ih
    · exact hfault _
    · next heq =>
      cases heq
      exact ih

omit hfault in
theorem mem_requests_of_mem_imports {p : Program} {request : String} (h : request ∈ p.imports) :
    request ∈ p.requests := by
  obtain ⟨s, hs, hr⟩ := List.mem_filterMap.mp h
  refine List.mem_filterMap.mpr ⟨s, hs, ?_⟩
  cases s <;> simp_all [Statement.import?, Statement.request?]

theorem within_runLegacy {p : Program} (h : ∀ request ∈ p.requests, asked request) :
    (runLegacy cx p).Within heard asked failing := by
  simp only [runLegacy, Task.Within]
  split
  · exact hfault _
  · split
    · exact Task.within_requireAll h trivial
    · exact within_evaluateLegacy hfault h

theorem within_runDeclarative {p : Program} (h : ∀ request ∈ p.requests, asked request) :
    (runDeclarative cx p).Within heard asked failing := by
  simp only [runDeclarative, Task.Within]
  split
  · exact hfault _
  · refine Task.within_requireAll (fun request hr => h request (mem_requests_of_mem_imports hr)) ?_
    split
    · trivial
    · exact within_evaluateDeclarative hfault p.statements

/-- The tasks of the compilers that come with the loader report only how they classify a file, ask only
for what the program asks for, and blame only the file. -/
theorem Compiler.within_of_isShipped {c : Compiler} (hc : c.isShipped = true)
    (hheard : ∀ path format, heard (.detects path format))
    (hreason : ∀ reason, failing (.unsupported cx.filename reason)) :
    (c.task cx).Within heard asked failing := by
  cases c with
  | script =>
    intro p hp
    dsimp only
    split
    · exact ⟨hheard _ _, within_runDeclarative hfault hp⟩
    · exact ⟨hheard _ _, within_runLegacy hfault hp⟩
  | legacy => exact fun p hp => within_runLegacy hfault hp
  | declarative => exact fun p hp => within_runDeclarative hfault hp
  | json =>
    intro source
    dsimp only
    split
    · trivial
    · exact hfault _
  | native => exact hreason _
  | plugin requests task => cases hc

end Tasks
end ModGraph
