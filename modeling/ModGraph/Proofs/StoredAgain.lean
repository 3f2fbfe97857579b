import Mathlib.Logic.Function.Iterate
import ModGraph.Proofs.PrintedPrograms
import ModGraph.Proofs.RestoredPrograms
import ModGraph.Proofs.StoredBlobs
import ModGraph.Proofs.Ways

/-!
# Programs that are found again

What was stored for a source is found again, and again, if the cache can write in its directory and the program nests no
deeper than reading goes; of a program that is deeper than that nothing is ever found (`CodeCache.program?_stored`).
Reading goes as deep for a stored program as for the literals of a source, but the stored form of a program is deeper than
its literals. So there are sources that are scanned and stored, and scanned again every time.
-/

namespace ModGraph

open Source (Program)

namespace FileSystem

variable {fs fs' : FileSystem} {links left : Nat} {path dir : Path} {loc above home found : Location} {name : String}
  {names : List String} {node : Node} {text : String}

/-! ## Directories that were made -/

/-- The names before the last one lead to the directory of a new entry. -/
theorem walk_of_vacancy (h : fs.vacancy path = .ok (name :: above)) : ∃ front,
    FileSystem.names path.text = front ++ [name] ∧
      fs.walk true maxLinks (start fs.workingDirectory path.text) front = .ok above := by
  simp only [vacancy, bind, Except.bind] at h
  split at h
  · cases h
  next text htext =>
  obtain ⟨rfl, -⟩ := checkedText_eq htext
  split at h
  · cases h
  next last front hback =>
  split at h
  · cases h
  next place hwalk =>
  repeat' split at h
  all_goals cases h
  exact ⟨front.reverse, by rw [← List.reverse_cons, ← hback, List.reverse_reverse], hwalk⟩

/-- A directory is at the end of a way along its names. -/
theorem way_of_isDirectory (h : fs.isDirectory path = true) :
    ∃ left home, Way fs maxLinks (start fs.workingDirectory path.text) (FileSystem.names path.text) left home ∧
      fs.isDirectoryAt home = true := by
  unfold isDirectory at h
  split at h
  · next home hfind =>
    obtain ⟨-, hnode, left, hway⟩ := find_eq_ok_iff.mp hfind
    obtain ⟨last, hsteps, rfl | rfl⟩ := steps_eq path.text
    · rw [hsteps, List.append_nil] at hway
      exact ⟨left, home, hway, isDirectoryAt_iff.mpr hnode⟩
    · obtain ⟨left', home', hnames, hdot⟩ := hway.split hsteps
      refine ⟨left', home', hnames, ?_⟩
      cases hdot with
      | here hdir => exact hdir
      | up hdir => exact hdir
      | enters hdir => exact hdir
      | follows hdir => exact hdir
  · cases h

theorem isDirectory_of_makeDirectory (h : fs.makeDirectory path = .ok fs') : fs'.isDirectory path = true := by
  unfold makeDirectory at h
  cases hv : fs.vacancy path with
  | error fault =>
    rw [hv] at h
    cases h
  | ok loc =>
    rw [hv] at h
    cases h
    obtain ⟨name, above, rfl, hfree⟩ := vacancy_eq_ok hv
    obtain ⟨front, hnames, hwalk⟩ := walk_of_vacancy hv
    have hkeeps : fs.Keeps (fs.put (name :: above) .directory) := .put (by simp [hfree.free]) (by simp) (.inl rfl)
    have hhere : (fs.put (name :: above) .directory).node? (name :: above) = some .directory := by
      rw [node?_put (by simp), if_pos rfl]
    have habove := hkeeps.directory hfree.directory
    obtain ⟨left, hway⟩ := way_of_walk (by rw [isDirectoryAt_iff.mp habove]; rfl) (hkeeps.walk hwalk)
    have hlast : Way (fs.put (name :: above) .directory) left above [name] left (name :: above) :=
      .enters habove hfree.entryName hhere (by simp) .done
    obtain ⟨last, hsteps, hpoint⟩ := steps_eq path.text
    -- behind the new entry there is at most the point of a slash at the end
    have hend : Way (fs.put (name :: above) .directory) left (name :: above) last left (name :: above) := by
      obtain rfl | rfl := hpoint
      · exact .done
      · exact .here (isDirectoryAt_iff.mpr hhere) rfl .done
    refine isDirectory_of_find (find_eq_ok_iff.mpr ⟨hfree.text, hhere, left, ?_⟩)
    rw [hsteps, hnames]
    exact (hway.append hlast).append hend

theorem isDirectory_of_ensureDirectory (h : fs.ensureDirectory path = .ok fs') : fs'.isDirectory path = true := by
  unfold ensureDirectory at h
  split at h
  · next made hmade =>
    cases h
    exact isDirectory_of_makeDirectory hmade
  · split at h
    · next hdir =>
      cases h
      exact hdir
    · cases h

theorem isDirectory_of_ensureDirectories {dirs : List Path} (hne : dir.text ≠ "")
    (h : fs.ensureDirectories (dir :: dirs) = (fs', .ok ())) : fs'.isDirectory dir = true := by
  unfold ensureDirectories at h
  split at h
  · next hempty => exact absurd (by simpa using hempty) hne
  split at h
  · next hok =>
    cases h
    exact isDirectory_of_ensureDirectory hok
  · -- the directories above were made first
    split at h
    · cases h
    · split at h
      · next hok =>
        cases h
        exact isDirectory_of_ensureDirectory hok
      · cases h
  · cases h

/-- A directory that was made, with whatever was missing above it, is there. -/
theorem isDirectory_of_makeDirectories (hne : path.text ≠ "") (h : fs.makeDirectories path = (fs', .ok ())) :
    fs'.isDirectory path = true := by
  rw [makeDirectories, Path.ancestors_eq] at h
  exact isDirectory_of_ensureDirectories hne h

/-- The path of an entry leads to the entry, if it is no link. -/
theorem locate_join_eq_ok (hname : (Path.Component.name name).IsStep) (hentry : EntryName name)
    (htext : checkedText (dir.join ⟨name⟩) = .ok (dir.join ⟨name⟩).text)
    (hway : Way fs maxLinks (start fs.workingDirectory dir.text) (FileSystem.names dir.text) left home)
    (hdir : fs.isDirectoryAt home = true) (hlink : ∀ target, fs.node? (name :: home) ≠ some (.link target)) :
    fs.locate true (dir.join ⟨name⟩) = .ok (name :: home) := by
  refine locate_eq_ok_iff.mpr ⟨htext, ?_⟩
  rw [start_join hname, steps_join hname]
  exact hway.walk_concat hdir hentry fun target hnode => absurd hnode (hlink target)

theorem Keeps.locate {follow : Bool} (h : fs.Keeps fs') (hloc : fs.locate follow path = .ok loc) :
    fs'.locate follow path = .ok loc := by
  obtain ⟨htext, hwalk⟩ := locate_eq_ok_iff.mp hloc
  refine locate_eq_ok_iff.mpr ⟨htext, ?_⟩
  rw [h.working]
  exact h.walk hwalk

theorem writeBytes_of_locate (hloc : fs.locate true path = .ok loc) (hfree : fs.isDirectoryAt loc = false)
    (content : ByteArray) : fs.writeBytes path content = .ok (fs.put loc (.file content)) := by
  simp only [writeBytes, bind, Except.bind, hloc]
  split
  · next hdir =>
    rw [isDirectoryAt_iff.mpr hdir] at hfree
    cases hfree
  · rfl

/-- A file can be written at a place: there is nothing, or a file. -/
def FitsFile (fs : FileSystem) (loc : Location) : Prop :=
  ∀ node, fs.node? loc = some node → ∃ content, node = .file content

theorem FitsFile.ne_link (h : fs.FitsFile loc) (target : String) : fs.node? loc ≠ some (.link target) := by
  intro hnode
  obtain ⟨content, hfile⟩ := h _ hnode
  cases hfile

/-- What was written where a file fits can be looked up. -/
theorem find_of_writeBytes (hloc : fs.locate true path = .ok loc) (hfits : fs.FitsFile loc) (content : ByteArray) :
    ∃ fs', fs.writeBytes path content = .ok fs' ∧ fs'.find path = .ok (loc, .file content) := by
  have hfree : fs.isDirectoryAt loc = false := by
    rw [Bool.eq_false_iff]
    intro htrue
    obtain ⟨content, hfile⟩ := hfits _ (isDirectoryAt_iff.mp htrue)
    cases hfile
  cases loc with
  | nil => cases hfree
  | cons name above =>
    have hkeeps : fs.Keeps (fs.put (name :: above) (.file content)) := .put hfits.ne_link (by simp) (.inr hfree)
    refine ⟨_, writeBytes_of_locate hloc hfree content, find_iff_locate.mpr ⟨hkeeps.locate hloc, ?_⟩⟩
    rw [node?_put (by simp), if_pos rfl]

/-! ## Reading files -/

theorem readText_of_find {content : ByteArray} (h : fs.find path = .ok (found, .file content))
    (htext : String.fromUTF8? content = some text) : fs.readText path = .ok text := by
  simp only [readText, readBytes, bind, Except.bind, h, pure, Except.pure, htext]

/-- What is there after a removal was there before. -/
theorem node?_of_removeTree (h : (fs.removeTree loc).node? found = some node) : fs.node? found = some node := by
  cases found with
  | nil => exact h
  | cons name above =>
    rw [node?_removeTree] at h
    split at h
    · cases h
    · exact h

theorem Way.of_removeTree (h : Way (fs.removeTree loc) links above names left found) :
    Way fs links above names left found := by
  have hdir : ∀ {place}, (fs.removeTree loc).isDirectoryAt place = true → fs.isDirectoryAt place = true :=
    fun h => isDirectoryAt_iff.mpr (node?_of_removeTree (isDirectoryAt_iff.mp h))
  induction h with
  | done => exact .done
  | here hdir' hname _ ih => exact .here (hdir hdir') hname ih
  | up hdir' hname _ ih => exact .up (hdir hdir') hname ih
  | enters hdir' hname hnode hlink _ ih => exact .enters (hdir hdir') hname (node?_of_removeTree hnode) hlink ih
  | follows hdir' hname hnode _ ih => exact .follows (hdir hdir') hname (node?_of_removeTree hnode) ih

theorem find_of_removeTree (h : (fs.removeTree loc).find path = .ok (found, node)) : fs.find path = .ok (found, node) := by
  obtain ⟨htext, hnode, left, hway⟩ := find_eq_ok_iff.mp h
  exact find_eq_ok_iff.mpr ⟨htext, node?_of_removeTree hnode, left, hway.of_removeTree⟩

/-- A text that can be read after a removal could be read before. -/
theorem readText_of_removeTree (h : (fs.removeTree loc).readText path = .ok text) : fs.readText path = .ok text := by
  obtain ⟨found, content, hfind, htext⟩ := readText_eq_ok h
  exact readText_of_find (find_of_removeTree hfind) htext

end FileSystem

theorem fromUTF8?_toUTF8 (s : String) : String.fromUTF8? s.toUTF8 = some s := by
  unfold String.fromUTF8?
  split
  · rfl
  · next hvalid => exact absurd s.isValidUTF8 hvalid

namespace CodeCache

open FileSystem (Way)

variable {cache : CodeCache} {fs fs' : FileSystem} {home : Location} {path : Path} {source : String} {p : Program}

/-! ## Storing -/

/-- The name of a blob is short. -/
theorem utf8ByteSize_blobName (path : Path) (source : String) : (blobName path source).utf8ByteSize = 38 := by
  have hsize : ∀ cs : List Char, (∀ c ∈ cs, c.utf8Size = 1) → (String.ofList cs).utf8ByteSize = cs.length := by
    intro cs hcs
    induction cs with
    | nil => rfl
    | cons c cs ih =>
      obtain ⟨hc, hrest⟩ := List.forall_mem_cons.mp hcs
      rw [String.ofList_cons, String.utf8ByteSize_append, String.utf8ByteSize_singleton, hc, ih hrest, List.length_cons,
        Nat.add_comm]
  have hone : ∀ c ∈ (blobName path source).toList, c.utf8Size = 1 :=
    forall_mem_blobName (P := fun c => c.utf8Size = 1) (by decide) (by simp; decide) path source
  rw [← String.ofList_toList (s := blobName path source), hsize _ hone, toList_blobName]
  simp [length_short, digestDigits]

/-- The path of a blob is longer by a slash and a name. -/
theorem utf8ByteSize_blob_le (cache : CodeCache) (path : Path) (source : String) :
    (cache.blob path (Digest.ofText source)).text.utf8ByteSize ≤ cache.dir.text.utf8ByteSize + 39 := by
  have hname := utf8ByteSize_blobName path source
  rw [blob_eq]
  obtain ⟨-, htext⟩ | ⟨cs, htext, hcs⟩ := FileSystem.text_join cache.dir (isStep_blobName path source)
  · rw [htext]
    omega
  · have hfront : (String.ofList cs).utf8ByteSize ≤ cache.dir.text.utf8ByteSize := by
      obtain ⟨-, hdir⟩ | hdir := hcs
      · rw [hdir]
      · rw [hdir, String.ofList_append, String.utf8ByteSize_append]
        exact Nat.le_add_right _ _
    have hslash : '/'.utf8Size = 1 := rfl
    rw [htext, String.ofList_append, String.utf8ByteSize_append, String.ofList_cons, String.utf8ByteSize_append,
      String.ofList_toList, String.utf8ByteSize_singleton, hname]
    omega

theorem entryName_blobName (path : Path) (source : String) : FileSystem.EntryName (blobName path source) := by
  obtain ⟨-, -, hdot, hup⟩ := Path.isStep_name.mp (isStep_blobName path source)
  exact ⟨hdot, hup, by rw [utf8ByteSize_blobName]; decide⟩

/-- A cache can write for a source: its directory is there or can be made, the path of the blob is not too long, and at
its place there is nothing but a file, or a link that leads to such a place. -/
structure Accepts (cache : CodeCache) (fs : FileSystem) (path : Path) (source : String) : Prop where
  made : (fs.makeDirectories cache.dir).2 = .ok ()
  here : cache.dir.text = "" → fs.isDirectoryAt fs.workingDirectory = true
  length : (cache.blob path (Digest.ofText source)).text.utf8ByteSize ≤ FileSystem.maxPathBytes
  free : ∀ home, cache.place (fs.makeDirectories cache.dir).1 = .ok home →
    (fs.makeDirectories cache.dir).1.FitsFile (blobName path source :: home) ∨
      ∃ loc, (fs.makeDirectories cache.dir).1.locate true (cache.blob path (Digest.ofText source)) = .ok loc ∧
        (fs.makeDirectories cache.dir).1.FitsFile loc

/-- The path of a blob is one that can be looked up, if the path of the directory is. -/
theorem checkedText_blob (hzero : '\x00' ∉ cache.dir.text.toList)
    (hlength : (cache.blob path (Digest.ofText source)).text.utf8ByteSize ≤ FileSystem.maxPathBytes) :
    FileSystem.checkedText (cache.blob path (Digest.ofText source)) =
      .ok (cache.blob path (Digest.ofText source)).text := by
  have hname : '\x00' ∉ (blobName path source).toList := fun h =>
    forall_mem_blobName (P := (· ≠ '\x00')) (by decide) (by simp) path source _ h rfl
  have hsize : (blobName path source).toList ≠ [] := by simp [toList_blobName]
  rw [blob_eq] at hlength ⊢
  refine FileSystem.checkedText_eq_ok_iff.mpr ⟨?_, ?_, hlength⟩
  · obtain ⟨-, htext⟩ | ⟨cs, htext, hdir⟩ := FileSystem.text_join cache.dir (isStep_blobName path source)
    · rwa [htext]
    · have hcs : '\x00' ∉ cs := fun hmem => hzero (by obtain ⟨-, hdir⟩ | hdir := hdir <;> simp [hdir, hmem])
      simp [htext, hcs, hname]
  · obtain ⟨-, htext⟩ | ⟨cs, htext, -⟩ := FileSystem.text_join cache.dir (isStep_blobName path source)
    · rw [htext]
      exact fun hempty => hsize (by rw [hempty]; rfl)
    · intro hempty
      have hlist := congrArg String.toList (htext.symm.trans hempty)
      simp at hlist

namespace Accepts

/-- The directory is there once it was made. -/
theorem exists_place (h : cache.Accepts fs path source) :
    ∃ left home, Way (fs.makeDirectories cache.dir).1 FileSystem.maxLinks
      (FileSystem.start (fs.makeDirectories cache.dir).1.workingDirectory cache.dir.text)
      (FileSystem.names cache.dir.text) left home ∧ (fs.makeDirectories cache.dir).1.isDirectoryAt home = true ∧
        '\x00' ∉ cache.dir.text.toList := by
  by_cases hempty : cache.dir.text = ""
  · have hkeeps := (FileSystem.grows_ensureDirectories fs cache.dir.ancestors).keeps
    rw [hempty]
    refine ⟨_, _, .done, ?_, by simp⟩
    show (fs.makeDirectories cache.dir).1.isDirectoryAt (fs.makeDirectories cache.dir).1.workingDirectory = true
    exact hkeeps.working ▸ hkeeps.directory (h.here hempty)
  · have hdir := FileSystem.isDirectory_of_makeDirectories hempty (Prod.ext rfl h.made)
    obtain ⟨left, home, hway, hhome⟩ := FileSystem.way_of_isDirectory hdir
    refine ⟨left, home, hway, hhome, ?_⟩
    unfold FileSystem.isDirectory at hdir
    split at hdir
    · next hfind => exact (FileSystem.checkedText_eq_ok_iff.mp (FileSystem.find_eq_ok_iff.mp hfind).1).1
    · cases hdir

/-- What a cache can write it writes, and then it can be read. -/
theorem readText_store (h : cache.Accepts fs path source) (p : Program) :
    (cache.store fs path (Digest.ofText source) p).2 = .ok () ∧
      (cache.store fs path (Digest.ofText source) p).1.readText (cache.blob path (Digest.ofText source)) =
        .ok p.store := by
  obtain ⟨left, home, hway, hdir, hzero⟩ := h.exists_place
  have hmade : fs.makeDirectories cache.dir = ((fs.makeDirectories cache.dir).1, .ok ()) := Prod.ext rfl h.made
  have hfree := h.free home hway.walk
  generalize (fs.makeDirectories cache.dir).1 = made at *
  obtain ⟨loc, hloc, hfits⟩ : ∃ loc, made.locate true (cache.blob path (Digest.ofText source)) = .ok loc ∧
      made.FitsFile loc := by
    obtain hfits | hlinked := hfree
    · exact ⟨_, FileSystem.locate_join_eq_ok (isStep_blobName path source) (entryName_blobName path source)
        (checkedText_blob hzero h.length) hway hdir hfits.ne_link, hfits⟩
    · exact hlinked
  obtain ⟨fs', hwrite, hfind⟩ := FileSystem.find_of_writeBytes hloc hfits p.store.toUTF8
  have hstore : cache.store fs path (Digest.ofText source) p = (fs', .ok ()) := by
    unfold store
    rw [hmade]
    dsimp only
    rw [hwrite]
  rw [hstore]
  exact ⟨rfl, FileSystem.readText_of_find hfind (fromUTF8?_toUTF8 _)⟩

end Accepts

/-! ## Looking up again -/

/-- The files after some look-ups for a source. -/
def afterLookups (cache : CodeCache) (path : Path) (digest : String) (n : Nat) (fs : FileSystem) : FileSystem :=
  (fun fs => afterLookup fs (cache.lookup fs path digest))^[n] fs

/-- Whatever can be read of a blob is what is stored of a program. -/
def Keeping (cache : CodeCache) (path : Path) (digest : String) (p : Program) (fs : FileSystem) : Prop :=
  ∀ text, fs.readText (cache.blob path digest) = .ok text → text = p.store

variable {digest : String}

theorem keeping_of_readText (h : fs.readText (cache.blob path digest) = .ok p.store) : cache.Keeping path digest p fs :=
  fun _ htext => (Except.ok.inj (h.symm.trans htext)).symm

theorem Keeping.afterLookup (h : cache.Keeping path digest p fs) :
    cache.Keeping path digest p (CodeCache.afterLookup fs (cache.lookup fs path digest)) := by
  obtain heq | hremove := cache.afterLookup_cases fs path digest
  · rw [heq]
    exact h
  · obtain ⟨loc, node, -, -, -, heq⟩ := FileSystem.removeFile_eq_ok hremove
    rw [heq]
    exact fun text htext => h text (FileSystem.readText_of_removeTree htext)

theorem Keeping.afterLookups (h : cache.Keeping path digest p fs) (n : Nat) :
    cache.Keeping path digest p (cache.afterLookups path digest n fs) := by
  induction n generalizing fs with
  | zero => exact h
  | succ n ih => exact ih h.afterLookup

/-- Nothing is found of a program that is too deep to be restored. -/
theorem Keeping.program?_eq_none (h : cache.Keeping path digest p fs) (ho : p.Ordered) (hn : ∀ n ∈ p.numbers, n.Fits)
    (hd : ¬p.toJson.depth ≤ Json.maxDepth) : (cache.lookup fs path digest).program? = none := by
  unfold lookup
  dsimp only
  split
  · rfl
  · next text htext =>
    obtain rfl := h text htext
    split
    · next hrestore => exact absurd ((Program.restore_store_iff ho hn).mp hrestore).2 hd
    · rfl

/-- A program that is not too deep is found, and stays. -/
theorem lookup_of_readText (hread : fs.readText (cache.blob path digest) = .ok p.store) (ho : p.Ordered)
    (hn : ∀ n ∈ p.numbers, n.Fits) (hd : p.toJson.depth ≤ Json.maxDepth) (n : Nat) :
    cache.lookup (cache.afterLookups path digest n fs) path digest = .hit p := by
  have hit : cache.lookup fs path digest = .hit p := by
    unfold lookup
    dsimp only
    rw [hread]
    dsimp only
    rw [Program.restore_store ho hn hd]
  have hsame : CodeCache.afterLookup fs (cache.lookup fs path digest) = fs := by
    rw [hit]
    rfl
  rw [afterLookups, Function.iterate_fixed (f := fun fs => CodeCache.afterLookup fs (cache.lookup fs path digest)) hsame]
  exact hit

/-! ## Assigned literals -/

/-- A program that assigns a literal. -/
def assigning (v : Json.Value) : Program := ⟨[.assigns (some "a") (.literal v)]⟩

theorem numbers_assigning (v : Json.Value) : (assigning v).numbers = v.numbers := by
  simp [assigning, Program.numbers, Source.Statement.numbers, Source.Expr.numbers]

/-- Around the literal there are five lists and objects in the stored form. -/
theorem depth_assigning (v : Json.Value) : (assigning v).toJson.depth = v.depth + 5 := by
  simp [assigning, Program.toJson, Source.Statement.toJson, Source.Expr.toJson, Json.Value.depth, Json.Value.membersDepth,
    Json.Value.itemsDepth]

theorem scan_assigning {v : Json.Value} (ho : v.Ordered) (hn : ∀ n ∈ v.numbers, n.Fits) (hd : v.depth ≤ Json.maxDepth) :
    Program.scan (String.ofList ("exports.a = ".toList ++ v.print)) = .ok (assigning v) := by
  have hexpressible : (assigning v).Expressible := by
    intro s hs
    obtain rfl := List.mem_singleton.mp hs
    refine ⟨?_, ho, hd⟩
    rintro _ ⟨⟩
    exact ⟨by decide, by decide⟩
  have hprint : (assigning v).print = String.ofList ("exports.a = ".toList ++ v.print) := rfl
  rw [← hprint]
  exact Program.scan_of_expressible hexpressible (by rwa [numbers_assigning])

/-- In a file system that holds nothing a directory can be made, and it holds no blob. -/
theorem accepts_empty (path : Path) (source : String) : Accepts ⟨⟨"/cache"⟩⟩ .empty path source := by
  have hdir : FileSystem.empty.ensureDirectory ⟨"/cache"⟩ = .ok (FileSystem.empty.put ["cache"] .directory) := rfl
  have hmade : FileSystem.empty.makeDirectories ⟨"/cache"⟩ = (FileSystem.empty.put ["cache"] .directory, .ok ()) := by
    rw [FileSystem.makeDirectories, Path.ancestors_eq, FileSystem.ensureDirectories, if_neg (by decide), hdir]
  refine ⟨by rw [hmade], by simp, (utf8ByteSize_blob_le _ _ _).trans (by decide), ?_⟩
  · refine fun home _ => .inl fun node hnode => ?_
    rw [hmade, FileSystem.node?_put (by simp)] at hnode
    split at hnode
    · next heq =>
      have hname : blobName path source = "cache" := (List.cons.inj heq).1.symm
      have hsize := utf8ByteSize_blobName path source
      rw [hname] at hsize
      exact absurd hsize (by decide)
    · cases hnode

/-! ## Looking up what was stored -/

/-- After the program of a source was stored, every look-up for the source gives that program, however often it is looked
for, unless the program is too deep to be restored: then every look-up gives none. -/
theorem program?_stored (hscan : Program.scan source = .ok p) (hn : ∀ n ∈ p.numbers, n.Fits)
    (h : cache.Accepts fs path source) (n : Nat) :
    (cache.store fs path (Digest.ofText source) p).2 = .ok () ∧
      (cache.lookup (cache.afterLookups path (Digest.ofText source) n (cache.store fs path (Digest.ofText source) p).1) path
        (Digest.ofText source)).program? = if p.toJson.depth ≤ Json.maxDepth then some p else none := by
  obtain ⟨hok, hread⟩ := h.readText_store p
  have ho := Program.ordered_of_scan hscan
  refine ⟨hok, ?_⟩
  -- a program that is found stays as it is; one that is lost stays lost, as look-ups only remove
  by_cases hd : p.toJson.depth ≤ Json.maxDepth
  · rw [if_pos hd, lookup_of_readText hread ho hn hd]
    rfl
  · rw [if_neg hd, ((keeping_of_readText hread).afterLookups n).program?_eq_none ho hn hd]

/-- A number is stored in a directory that is made for it, and found time and again. -/
theorem program?_stored_one :
    let cache : CodeCache := ⟨⟨"/cache"⟩⟩
    let p := assigning (.number (.integer 1))
    let digest := Digest.ofText "exports.a = 1"
    Program.scan "exports.a = 1" = .ok p ∧ (∀ n ∈ p.numbers, n.Fits) ∧
      cache.Accepts .empty ⟨"/app/a.js"⟩ "exports.a = 1" ∧
      (cache.lookup (cache.afterLookups ⟨"/app/a.js"⟩ digest 2 (cache.store .empty ⟨"/app/a.js"⟩ digest p).1)
        ⟨"/app/a.js"⟩ digest).program? = some p := by
  intro cache p digest
  have hn : ∀ n ∈ p.numbers, n.Fits := by
    rw [numbers_assigning]
    intro n hmem
    obtain rfl := List.mem_singleton.mp hmem
    exact ⟨by decide, by decide⟩
  have hscan : Program.scan "exports.a = 1" = .ok p :=
    scan_assigning (v := .number (.integer 1)) trivial (by rwa [← numbers_assigning]) (by decide)
  have haccepts := accepts_empty ⟨"/app/a.js"⟩ "exports.a = 1"
  refine ⟨hscan, hn, haccepts, ?_⟩
  have hfound := (program?_stored hscan hn haccepts 2).2
  rwa [if_pos (by decide)] at hfound

/-- A list in a list in a list, and so on. -/
def nested : Nat → Json.Value
  | 0 => .array []
  | n + 1 => .array [nested n]

theorem nested_ordered (n : Nat) : (nested n).Ordered := by
  induction n with
  | zero => exact trivial
  | succ n ih => exact ⟨ih, trivial⟩

theorem numbers_nested (n : Nat) : (nested n).numbers = [] := by
  induction n with
  | zero => rfl
  | succ n ih => rw [nested, Json.Value.numbers, Json.Value.itemNumbers, ih]; rfl

theorem depth_nested (n : Nat) : (nested n).depth = n + 1 := by
  induction n with
  | zero => rfl
  | succ n ih => rw [nested, Json.Value.depth, Json.Value.itemsDepth, ih, Json.Value.itemsDepth, Nat.max_zero]

theorem print_nested (n : Nat) : (nested n).print = List.replicate (n + 1) '[' ++ List.replicate (n + 1) ']' := by
  induction n with
  | zero => rfl
  | succ n ih =>
    have hprint : (nested (n + 1)).print = '[' :: ((nested n).print ++ [']']) := rfl
    rw [hprint, ih, List.append_assoc, ← List.replicate_succ', ← List.cons_append, ← List.replicate_succ]

/-- Lists that nest less deep than reading goes are scanned and stored, but in the stored form they are too deep. -/
theorem program?_stored_nested :
    let cache : CodeCache := ⟨⟨"/cache"⟩⟩
    let p := assigning (nested 122)
    let source := String.ofList ("exports.a = ".toList ++ (List.replicate 123 '[' ++ List.replicate 123 ']'))
    let digest := Digest.ofText source
    Program.scan source = .ok p ∧ (∀ n ∈ p.numbers, n.Fits) ∧ cache.Accepts .empty ⟨"/app/a.js"⟩ source ∧
      (cache.lookup (cache.store .empty ⟨"/app/a.js"⟩ digest p).1 ⟨"/app/a.js"⟩ digest).program? ≠ some p := by
  intro cache p source digest
  have hn : ∀ n ∈ p.numbers, n.Fits := by simp [p, numbers_assigning, numbers_nested]
  have hscan : Program.scan source = .ok p := by
    have hdepth : (nested 122).depth ≤ Json.maxDepth := by
      rw [depth_nested]
      decide
    have hnested := scan_assigning (nested_ordered 122) (by simp [numbers_nested]) hdepth
    rwa [print_nested] at hnested
  have haccepts : cache.Accepts .empty ⟨"/app/a.js"⟩ source := accepts_empty ⟨"/app/a.js"⟩ source
  have hdeep : ¬p.toJson.depth ≤ Json.maxDepth := by
    rw [depth_assigning, depth_nested]
    decide
  refine ⟨hscan, hn, haccepts, ?_⟩
  obtain ⟨-, hread⟩ := haccepts.readText_store p
  rw [(keeping_of_readText hread).program?_eq_none (Program.ordered_of_scan hscan) hn hdeep]
  exact nofun

end CodeCache
end ModGraph
