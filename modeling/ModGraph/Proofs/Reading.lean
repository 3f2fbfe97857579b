import ModGraph.Proofs.Requests

/-!
# Reading

What a loader answers when it is asked for the source or the program of a file, and what it remembers of that. A
source is read where it is not remembered (`Loader.run_sourceOf_of_none`), and a program is made of the source where it
is not remembered (`Loader.run_programOf_of_none`). Without a code cache it is scanned (`Loader.run_programOf_bare`).
-/

namespace ModGraph

open Source (Program)

namespace Loader

variable {l l' : Loader} {file : Path} {source : String} {p : Program}

/-! ## Sources -/

/-- The text of a file as a loader has it: as it was read before, or as it is. -/
def sourceText (l : Loader) (file : Path) : Except LoadError String :=
  match l.sources.get? file.components with
  | some source => .ok source
  | none => (l.reader l.files file).mapError (.io file)

theorem sourceText_of_none (h : l.sources.get? file.components = none) :
    l.sourceText file = (l.reader l.files file).mapError (.io file) := by
  rw [sourceText, h]

/-- A source is read: it is remembered, unless that was so before, and nothing else changes. -/
structure Reads (file : Path) (l : Loader) (found : Except LoadError String) (l' : Loader) : Prop where
  found : found = l.sourceText file
  codeCache : l'.codeCache? = l.codeCache?
  files : l'.files = l.files
  programs : l'.programs = l.programs
  keeps : ∀ {other text}, l.sources.get? other = some text → l'.sources.get? other = some text
  learns : ∀ {text}, l.sourceText file = .ok text → l'.sources.get? file.components = some text

/-- The loader after a source was read, which is remembered from then on. -/
def learning (l : Loader) (file : Path) (source : String) : Loader :=
  { l.noted [.readsSource file] with sources := l.sources.insert file.components source }

/-- A source that is remembered is not read again. -/
theorem run_sourceOf_of_get? (h : l.sources.get? file.components = some source) :
    l.run (sourceOf file) = (.ok source, l) := by
  unfold sourceOf
  rw [run_bind, run_get, andThen_ok, h]
  rfl

/-- A source that is not remembered is read, and remembered. -/
theorem run_sourceOf_of_none (h : l.sources.get? file.components = none) :
    l.run (sourceOf file) =
      match l.reader l.files file with
      | .error fault => (.error (.io file fault), l.noted [.readsSource file])
      | .ok source => (.ok source, l.learning file source) := by
  unfold sourceOf
  rw [run_bind, run_get, andThen_ok, h]
  dsimp only
  rw [run_bind, run_report, andThen_ok]
  cases l.reader l.files file <;> rfl

theorem reads_sourceOf (l : Loader) (file : Path) : Reads file l (l.run (sourceOf file)).1 (l.run (sourceOf file)).2 := by
  cases hs : l.sources.get? file.components with
  | some source =>
    have htext : l.sourceText file = .ok source := by rw [sourceText, hs]
    rw [run_sourceOf_of_get? hs]
    refine ⟨htext.symm, rfl, rfl, rfl, id, fun {text} h => ?_⟩
    obtain rfl : source = text := Except.ok.inj (htext.symm.trans h)
    exact hs
  | none =>
    rw [run_sourceOf_of_none hs]
    cases hr : l.reader l.files file with
    | error fault =>
      have htext : l.sourceText file = .error (.io file fault) := by
        rw [sourceText_of_none hs, hr]
        rfl
      exact ⟨htext.symm, rfl, rfl, rfl, id, fun h => by rw [htext] at h; cases h⟩
    | ok source =>
      have htext : l.sourceText file = .ok source := by
        rw [sourceText_of_none hs, hr]
        rfl
      refine ⟨htext.symm, rfl, rfl, rfl, fun {other text} h => ?_, fun {text} h => ?_⟩
      · -- the file was not remembered, so what was remembered is kept
        have hne : file.components ≠ other := by
          rintro rfl
          rw [hs] at h
          cases h
        exact (Table.get?_insert_of_ne _ _ hne).trans h
      · obtain rfl : source = text := Except.ok.inj (htext.symm.trans h)
        exact Table.get?_insert_self _ _ _

/-! ## Programs -/

/-- What scanning a source comes to. -/
def scanOf (file : Path) (source : String) : Except LoadError Program :=
  (Program.scan source).mapError fun e => .compile file (.badProgram e)

/-- The program that the text of a file says. -/
def scanned (l : Loader) (file : Path) : Except LoadError Program := l.sourceText file >>= scanOf file

theorem scanOf_eq_ok : scanOf file source = .ok p ↔ Program.scan source = .ok p := by
  unfold scanOf
  cases Program.scan source with
  | error e => exact ⟨nofun, nofun⟩
  | ok p' => exact ⟨fun h => congrArg _ (Except.ok.inj h), fun h => congrArg _ (Except.ok.inj h)⟩

theorem error_of_scanOf {e : LoadError} (h : scanOf file source = .error e) : ∃ fault, e = .compile file fault := by
  unfold scanOf at h
  cases hscan : Program.scan source <;> rw [hscan] at h <;> cases h
  exact ⟨_, rfl⟩

/-- A program that is remembered is not made again. -/
theorem run_programOf_of_get? (h : l.programs.get? file.components = some p) :
    l.run (programOf file) = (.ok p, l) := by
  unfold programOf
  rw [run_bind, run_get, andThen_ok, h]
  rfl

/-- The loader after a program was remembered. -/
def remembering (l : Loader) (file : Path) (p : Program) : Loader :=
  { l with programs := l.programs.insert file.components p }

/-- A program that is not remembered is made of the source, and remembered. -/
theorem run_programOf_of_none (h : l.programs.get? file.components = none) :
    l.run (programOf file) =
      match l.run (sourceOf file) with
      | (.error e, l₁) => (.error e, l₁)
      | (.ok source, l₁) =>
        match l₁.run (scanSource file source) with
        | (.error e, l₂) => (.error e, l₂)
        | (.ok p, l₂) => (.ok p, l₂.remembering file p) := by
  unfold programOf
  rw [run_bind, run_get, andThen_ok, h]
  dsimp only
  rw [run_bind]
  generalize l.run (sourceOf file) = r
  obtain ⟨e | source, l₁⟩ := r
  · rfl
  rw [andThen_ok, run_bind]
  dsimp only
  generalize l₁.run (scanSource file source) = r
  obtain ⟨e | p, l₂⟩ := r <;> rfl

/-! ## Without a code cache -/

theorem run_scanSource_bare (hc : l.codeCache? = none) (file : Path) (source : String) :
    l.run (scanSource file source) = (scanOf file source, l) := by
  unfold scanSource storedProgram? storeProgram scanOf
  simp only [run_bind, run_get, andThen_ok, hc, run_pure]
  cases Program.scan source with
  | error e => rfl
  | ok p =>
    simp only [run_bind, run_get, andThen_ok, hc, run_pure]
    rfl

/-- Without a code cache, a program that is not remembered is scanned. -/
theorem run_programOf_bare (hc : l.codeCache? = none) (h : l.programs.get? file.components = none) :
    l.run (programOf file) =
      match l.run (sourceOf file) with
      | (.error e, l₁) => (.error e, l₁)
      | (.ok source, l₁) =>
        match scanOf file source with
        | .error e => (.error e, l₁)
        | .ok p => (.ok p, l₁.remembering file p) := by
  have hcodeCache := (reads_sourceOf l file).codeCache
  rw [run_programOf_of_none h]
  generalize l.run (sourceOf file) = r at hcodeCache
  obtain ⟨e | source, l₁⟩ := r
  · rfl
  dsimp only
  rw [run_scanSource_bare (hcodeCache.trans hc)]
  cases scanOf file source <;> rfl

theorem result_programOf_bare (hc : l.codeCache? = none) (h : l.programs.get? file.components = none) :
    (l.run (programOf file)).1 = l.scanned file := by
  rw [run_programOf_bare hc h, scanned, ← (reads_sourceOf l file).found]
  generalize l.run (sourceOf file) = r
  obtain ⟨e | source, l₁⟩ := r
  · rfl
  · change _ = scanOf file source
    dsimp only
    cases scanOf file source <;> rfl

end Loader
end ModGraph
