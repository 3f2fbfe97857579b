import ModGraph.CodeCache

/-!
# What operations on files do

What an operation did if it succeeded: at which place, what was there before and what is there now. Paths
are looked up step by step (`locate_eq_ok_iff`); a file is written or removed where its path leads to, and an entry is
made under a free name in a directory (`vacancy_eq_ok`). A code cache does no more to the files than to remove and to
write its own.
-/

namespace ModGraph.FileSystem

variable {fs fs' : FileSystem} {path : Path} {loc : Location} {node : Node} {text : String}

/-! ## Looking -/

theorem isDirectoryAt_iff : fs.isDirectoryAt loc = true ↔ fs.node? loc = some .directory := by
  unfold isDirectoryAt
  cases hnode : fs.node? loc with
  | none => simp
  | some node => cases node <;> simp

theorem checkedText_eq (h : checkedText path = .ok text) :
    text = path.text ∧ path.text.utf8ByteSize ≤ maxPathBytes := by
  unfold checkedText at h
  repeat' split at h
  all_goals first
    | cases h; done
    | exact ⟨(Except.ok.inj h).symm, by omega⟩

/-- A path that passes the checks is looked up step by step. -/
theorem locate_eq_ok_iff {follow : Bool} : fs.locate follow path = .ok loc ↔
    checkedText path = .ok path.text ∧
      fs.walk follow maxLinks (start fs.workingDirectory path.text) (steps path.text) = .ok loc := by
  simp only [locate, bind, Except.bind]
  cases htext : checkedText path with
  | error fault => simp
  | ok text =>
    obtain ⟨rfl, -⟩ := checkedText_eq htext
    simp

theorem find_iff_locate :
    fs.find path = .ok (loc, node) ↔ fs.locate true path = .ok loc ∧ fs.node? loc = some node := by
  constructor
  · intro h
    simp only [find, bind, Except.bind] at h
    split at h
    · cases h
    next loc' hloc =>
    split at h
    · next node' hnode =>
      cases h
      exact ⟨hloc, hnode⟩
    · cases h
  · rintro ⟨hloc, hnode⟩
    simp only [find, bind, Except.bind, hloc, hnode]
    rfl

theorem find_of_isFile (h : fs.isFile path = true) : ∃ loc content, fs.find path = .ok (loc, .file content) := by
  unfold isFile at h
  split at h
  · next loc content hf => exact ⟨loc, content, hf⟩
  · cases h

theorem find_of_readBytes {content : ByteArray} (h : fs.readBytes path = .ok content) :
    ∃ loc, fs.find path = .ok (loc, .file content) := by
  simp only [readBytes, bind, Except.bind] at h
  split at h
  · cases h
  · next found hfind =>
    obtain ⟨loc, node⟩ := found
    cases node <;> cases h
    exact ⟨loc, hfind⟩

theorem readText_eq_ok (h : fs.readText path = .ok text) :
    ∃ loc content, fs.find path = .ok (loc, .file content) ∧ String.fromUTF8? content = some text := by
  simp only [readText, bind, Except.bind] at h
  split at h
  · cases h
  next content hread =>
  obtain ⟨loc, hfind⟩ := find_of_readBytes hread
  split at h
  · next htext =>
    cases h
    exact ⟨loc, content, hfind, htext⟩
  · cases h

/-! ## Files -/

theorem writeBytes_eq_ok {content : ByteArray} (h : fs.writeBytes path content = .ok fs') :
    ∃ loc, fs.locate true path = .ok loc ∧ fs.isDirectoryAt loc = false ∧ fs' = fs.put loc (.file content) := by
  simp only [writeBytes, bind, Except.bind] at h
  split at h
  · cases h
  · next loc hloc =>
    split at h
    · cases h
    · next hnode =>
      cases h
      refine ⟨loc, hloc, Bool.eq_false_iff.mpr fun hdir => hnode (isDirectoryAt_iff.mp hdir), rfl⟩

theorem removeFile_eq_ok (h : fs.removeFile path = .ok fs') :
    ∃ loc node, fs.locate false path = .ok loc ∧ fs.node? loc = some node ∧ node ≠ .directory ∧
      fs' = fs.removeTree loc := by
  simp only [removeFile, bind, Except.bind] at h
  split at h
  · cases h
  · next loc hloc =>
    split at h
    · cases h
    · cases h
    · next node hdir hnode =>
      cases h
      exact ⟨loc, node, hloc, hnode, fun heq => hdir heq, rfl⟩

theorem remove_eq_ok (h : fs.remove path = .ok fs') :
    ∃ loc node, fs.locate false path = .ok loc ∧ fs.node? loc = some node ∧ fs' = fs.removeTree loc := by
  simp only [remove, bind, Except.bind] at h
  split at h
  · cases h
  · next loc hloc =>
    split at h
    · cases h
    · next node hnode =>
      cases h
      exact ⟨loc, node, hloc, hnode, rfl⟩

/-! ## New entries -/

/-- A name that can be the name of an entry. -/
structure EntryName (name : String) : Prop where
  dot : name ≠ "."
  up : name ≠ ".."
  length : name.utf8ByteSize ≤ maxNameBytes

/-- The last name of a path is free in the directory that the path leads to. -/
structure Vacancy (fs : FileSystem) (path : Path) (name : String) (above : Location) : Prop where
  text : checkedText path = .ok path.text
  last : name ∈ names path.text
  directory : fs.isDirectoryAt above = true
  entryName : EntryName name
  free : fs.node? (name :: above) = none

theorem vacancy_eq_ok (h : fs.vacancy path = .ok loc) :
    ∃ name above, loc = name :: above ∧ fs.Vacancy path name above := by
  simp only [vacancy, bind, Except.bind] at h
  split at h
  · cases h
  next text htext =>
  obtain ⟨rfl, -⟩ := checkedText_eq htext
  split at h
  · cases h
  next name front hback =>
  have hlast : name ∈ names path.text := List.mem_reverse.mp (hback ▸ List.mem_cons_self)
  split at h
  · cases h
  next above _ =>
  split at h
  · cases h
  · next hdir =>
    split at h
    · cases h
    next hpoint =>
    split at h
    · cases h
    next hlength =>
    split at h
    · cases h
    next hfree =>
    cases h
    simp only [Bool.or_eq_true, decide_eq_true_eq, not_or] at hpoint
    exact ⟨name, above, rfl, htext, hlast, isDirectoryAt_iff.mpr hdir, ⟨hpoint.1, hpoint.2, by omega⟩,
      by simpa using hfree⟩
  · cases h

theorem make_eq_ok (h : (fs.vacancy path).map (fs.put · node) = .ok fs') :
    ∃ name above, fs.Vacancy path name above ∧ fs' = fs.put (name :: above) node := by
  cases hv : fs.vacancy path with
  | error fault =>
    rw [hv] at h
    cases h
  | ok loc =>
    rw [hv] at h
    cases h
    obtain ⟨name, above, rfl, hfree⟩ := vacancy_eq_ok hv
    exact ⟨name, above, hfree, rfl⟩

theorem ensureDirectory_eq_ok (h : fs.ensureDirectory path = .ok fs') :
    fs' = fs ∨ ∃ name above, fs.Vacancy path name above ∧ fs' = fs.put (name :: above) .directory := by
  unfold ensureDirectory at h
  split at h
  · next made hmade =>
    cases h
    exact .inr (make_eq_ok hmade)
  · split at h <;> cases h
    exact .inl rfl

/-- Whatever each of some directories leaves as it is when it is made stays as it is when they are made. -/
theorem ensureDirectories_induction {motive : FileSystem → Prop} {dirs : List Path}
    (hstep : ∀ {fs fs'}, ∀ dir ∈ dirs, motive fs → fs.ensureDirectory dir = .ok fs' → motive fs') (h : motive fs) :
    motive (fs.ensureDirectories dirs).1 := by
  induction dirs with
  | nil => exact h
  | cons dir above ih =>
    have hdir : ∀ {fs fs'}, motive fs → fs.ensureDirectory dir = .ok fs' → motive fs' := hstep dir List.mem_cons_self
    have habove := ih fun dir hmem => hstep dir (List.mem_cons_of_mem _ hmem)
    unfold ensureDirectories
    split
    · exact h
    split
    · next hok => exact hdir h hok
    · -- the directories above are made first
      split
      · next heq =>
        rw [heq] at habove
        exact habove
      · next heq =>
        rw [heq] at habove
        split
        · next hok => exact hdir habove hok
        · exact habove
    · exact h

end ModGraph.FileSystem

namespace ModGraph.CodeCache

variable (cache : CodeCache) (fs : FileSystem) (path : Path) (digest : String)

/-- A look-up leaves the files alone, or removes the one that it looked for. -/
theorem afterLookup_cases : afterLookup fs (cache.lookup fs path digest) = fs ∨
    fs.removeFile (cache.blob path digest) = .ok (afterLookup fs (cache.lookup fs path digest)) := by
  unfold lookup
  dsimp only
  split
  · exact .inl rfl
  · split
    · exact .inl rfl
    · unfold afterLookup
      dsimp only
      split
      · next hremove => exact .inr hremove
      · exact .inl rfl

/-- Directories are made for a program that is stored, and then its file may be written. -/
theorem store_cases (p : Source.Program) :
    (cache.store fs path digest p).1 = (fs.makeDirectories cache.dir).1 ∨
      (fs.makeDirectories cache.dir).1.writeBytes (cache.blob path digest) p.store.toUTF8 =
        .ok (cache.store fs path digest p).1 := by
  unfold store
  generalize fs.makeDirectories cache.dir = made
  obtain ⟨fs, made⟩ := made
  cases made with
  | error fault => exact .inl rfl
  | ok _ =>
    dsimp only
    split
    · next hwrite => exact .inr hwrite
    · exact .inl rfl

end ModGraph.CodeCache
