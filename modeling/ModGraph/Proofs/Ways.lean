import ModGraph.Proofs.FilePlaces

/-!
# Ways through the tree

A look-up that finds something goes a way: from place to place, along names and over links (`Way`). Unlike a look-up,
a way can start with some links used up and says how many are left, so that ways are put together (`Way.append`) and
taken apart (`Way.split`) at any name.

In a tree that holds what a system's trees hold (`WellFormed`) the path of a place leads to that place
(`find_path`), so that the real path of a real path is the path itself (`realPath_realPath`).
-/

namespace ModGraph.FileSystem

variable {fs : FileSystem} {links left left' : Nat} {loc mid found found' : Location} {name : String}
  {names front back rest : List String}

/-! ## Ways -/

/-- A way from a place along some names to a place. It begins with some links that may be followed; some are left. -/
inductive Way (fs : FileSystem) : Nat → Location → List String → Nat → Location → Prop where
  | done {links : Nat} {loc : Location} : Way fs links loc [] links loc
  | here {links left : Nat} {loc found : Location} {name : String} {rest : List String}
      (hdir : fs.isDirectoryAt loc = true) (hname : name = ".") (h : Way fs links loc rest left found) :
      Way fs links loc (name :: rest) left found
  | up {links left : Nat} {loc found : Location} {name : String} {rest : List String}
      (hdir : fs.isDirectoryAt loc = true) (hname : name = "..") (h : Way fs links loc.tail rest left found) :
      Way fs links loc (name :: rest) left found
  | enters {links left : Nat} {loc found : Location} {name : String} {node : Node} {rest : List String}
      (hdir : fs.isDirectoryAt loc = true) (hname : EntryName name) (hnode : fs.node? (name :: loc) = some node)
      (hlink : ∀ target, node ≠ .link target) (h : Way fs links (name :: loc) rest left found) :
      Way fs links loc (name :: rest) left found
  | follows {links left : Nat} {loc found : Location} {name target : String} {rest : List String}
      (hdir : fs.isDirectoryAt loc = true) (hname : EntryName name)
      (hnode : fs.node? (name :: loc) = some (.link target))
      (h : Way fs links (start loc target) (steps target ++ rest) left found) :
      Way fs (links + 1) loc (name :: rest) left found

namespace Way

/-- A way that goes on starts in a directory. -/
theorem directory (h : Way fs links loc names left found) (hne : names ≠ []) : fs.isDirectoryAt loc = true := by
  cases h with
  | done => exact absurd rfl hne
  | here hdir _ _ => exact hdir
  | up hdir _ _ => exact hdir
  | enters hdir _ _ _ _ => exact hdir
  | follows hdir _ _ _ => exact hdir

theorem append (h : Way fs links loc front left mid) (h' : Way fs left mid back left' found) :
    Way fs links loc (front ++ back) left' found := by
  induction h with
  | done => exact h'
  | here hdir hname _ ih => exact .here hdir hname (ih h')
  | up hdir hname _ ih => exact .up hdir hname (ih h')
  | enters hdir hname hnode hlink _ ih => exact .enters hdir hname hnode hlink (ih h')
  | follows hdir hname hnode _ ih =>
    have hrest := ih h'
    rw [List.append_assoc] at hrest
    exact .follows hdir hname hnode hrest

theorem split (h : Way fs links loc names left' found) (hnames : names = front ++ back) :
    ∃ left mid, Way fs links loc front left mid ∧ Way fs left mid back left' found := by
  induction h generalizing front with
  | done =>
    obtain ⟨rfl, rfl⟩ := List.append_eq_nil_iff.mp hnames.symm
    exact ⟨_, _, .done, .done⟩
  | here hdir hname h ih =>
    obtain ⟨rfl, rfl⟩ | ⟨front, rfl, hrest⟩ := List.cons_eq_append_iff.mp hnames
    · exact ⟨_, _, .done, .here hdir hname h⟩
    · obtain ⟨left, mid, hfront, hback⟩ := ih hrest
      exact ⟨left, mid, .here hdir hname hfront, hback⟩
  | up hdir hname h ih =>
    obtain ⟨rfl, rfl⟩ | ⟨front, rfl, hrest⟩ := List.cons_eq_append_iff.mp hnames
    · exact ⟨_, _, .done, .up hdir hname h⟩
    · obtain ⟨left, mid, hfront, hback⟩ := ih hrest
      exact ⟨left, mid, .up hdir hname hfront, hback⟩
  | enters hdir hname hnode hlink h ih =>
    obtain ⟨rfl, rfl⟩ | ⟨front, rfl, hrest⟩ := List.cons_eq_append_iff.mp hnames
    · exact ⟨_, _, .done, .enters hdir hname hnode hlink h⟩
    · obtain ⟨left, mid, hfront, hback⟩ := ih hrest
      exact ⟨left, mid, .enters hdir hname hnode hlink hfront, hback⟩
  | @follows _ _ _ _ _ target rest hdir hname hnode h ih =>
    obtain ⟨rfl, rfl⟩ | ⟨front, rfl, hrest⟩ := List.cons_eq_append_iff.mp hnames
    · exact ⟨_, _, .done, .follows hdir hname hnode h⟩
    · -- what the link leads to is gone through before the rest of the front
      obtain ⟨left, mid, hfront, hback⟩ := @ih (steps target ++ front) (by rw [hrest, List.append_assoc])
      exact ⟨left, mid, .follows hdir hname hnode hfront, hback⟩

end Way

/-! ## Look-ups are ways -/

theorem way_of_walkNames {jump : Location → String → List String → Except Fault Location}
    (hjump : ∀ {loc target rest}, jump loc target rest = .ok found → ∃ fewer left, links = fewer + 1 ∧
      Way fs fewer (start loc target) (steps target ++ rest) left found)
    (hfound : (fs.node? found).isSome) (h : fs.walkNames true jump loc names = .ok found) :
    ∃ left, Way fs links loc names left found := by
  induction names generalizing loc with
  | nil =>
    cases h
    exact ⟨_, .done⟩
  | cons name rest ih =>
    obtain ⟨hdir, hgoes⟩ := walkNames_cons_eq_ok.mp h
    cases hgoes with
    | here hname hrest =>
      obtain ⟨left, hway⟩ := ih hrest
      exact ⟨left, .here hdir hname hway⟩
    | up hname hrest =>
      obtain ⟨left, hway⟩ := ih hrest
      exact ⟨left, .up hdir hname hway⟩
    | enters hname hnode _ hrest =>
      obtain ⟨left, hway⟩ := ih hrest
      exact ⟨left, .enters hdir hname hnode (by simp) hway⟩
    | follows hname hnode _ hrest =>
      obtain ⟨fewer, left, rfl, hway⟩ := hjump hrest
      exact ⟨left, .follows hdir hname hnode hway⟩
    | stops hname hrest hplace hlink =>
      subst hrest hplace
      obtain ⟨node, hnode⟩ := Option.isSome_iff_exists.mp hfound
      refine ⟨links, .enters hdir hname hnode ?_ .done⟩
      rintro target rfl
      cases hlink target hnode

theorem way_of_walk (hfound : (fs.node? found).isSome) (h : fs.walk true links loc names = .ok found) :
    ∃ left, Way fs links loc names left found := by
  induction links generalizing loc names with
  | zero => exact way_of_walkNames (fun h => by cases h) hfound h
  | succ fewer ih =>
    refine way_of_walkNames (fun hjump => ?_) hfound h
    obtain ⟨left, hway⟩ := ih hjump
    exact ⟨fewer, left, rfl, hway⟩

/-- How a look-up goes on at a link. -/
def hop (fs : FileSystem) (follow : Bool) : Nat → Location → String → List String → Except Fault Location
  | 0, _, _, _ => .error .tooManyLinks
  | links + 1, loc, target, rest => fs.walk follow links (start loc target) (steps target ++ rest)

theorem walk_eq (follow : Bool) (links : Nat) : fs.walk follow links = fs.walkNames follow (fs.hop follow links) := by
  cases links <;> rfl

/-- A look-up goes along a way, and from its end, if that is a directory, to one more name. The last name is looked
up, a link there is followed only if that is asked for. -/
theorem Way.walk_concat {follow : Bool} (h : Way fs links loc names left mid) (hdir : fs.isDirectoryAt mid = true)
    (hname : EntryName name)
    (hlink : ∀ target, fs.node? (name :: mid) = some (.link target) → follow = false) :
    fs.walk follow links loc (names ++ [name]) = .ok (name :: mid) := by
  induction h with
  | done =>
    rw [List.nil_append, walk_eq]
    exact walkNames_cons_eq_ok.mpr ⟨hdir, .stops hname rfl rfl hlink⟩
  | here hdir' hnext _ ih =>
    have hrest := ih hdir hlink
    rw [walk_eq] at hrest ⊢
    exact walkNames_cons_eq_ok.mpr ⟨hdir', .here hnext hrest⟩
  | up hdir' hnext _ ih =>
    have hrest := ih hdir hlink
    rw [walk_eq] at hrest ⊢
    exact walkNames_cons_eq_ok.mpr ⟨hdir', .up hnext hrest⟩
  | @enters links left loc mid next node rest hdir' hnext hnode _ h ih =>
    have hrest := ih hdir hlink
    rw [walk_eq] at hrest ⊢
    -- whether the way ends here or goes on, this is a directory
    have hhere : fs.isDirectoryAt (next :: loc) = true := by
      by_cases hend : rest = []
      · subst hend
        cases h
        exact hdir
      · exact h.directory hend
    exact walkNames_cons_eq_ok.mpr ⟨hdir', .enters hnext (isDirectoryAt_iff.mp hhere) (by simp) hrest⟩
  | follows hdir' hnext hnode _ ih =>
    have hrest := ih hdir hlink
    rw [List.append_assoc] at hrest
    rw [walk_eq]
    exact walkNames_cons_eq_ok.mpr ⟨hdir', .follows hnext hnode (by simp) hrest⟩

theorem Way.walk (h : Way fs links loc names left found) : fs.walk true links loc names = .ok found := by
  induction h with
  | done => rw [walk_eq]; rfl
  | here hdir hname _ ih =>
    rw [walk_eq] at ih ⊢
    exact walkNames_cons_eq_ok.mpr ⟨hdir, .here hname ih⟩
  | up hdir hname _ ih =>
    rw [walk_eq] at ih ⊢
    exact walkNames_cons_eq_ok.mpr ⟨hdir, .up hname ih⟩
  | @enters _ _ loc _ name _ rest hdir hname hnode hlink h ih =>
    rw [walk_eq] at ih ⊢
    apply walkNames_cons_eq_ok.mpr
    by_cases hend : rest = []
    · subst hend
      cases h
      refine ⟨hdir, .stops hname rfl rfl fun target hnode' => ?_⟩
      exact absurd (Option.some.inj (hnode.symm.trans hnode')) (hlink target)
    · exact ⟨hdir, .enters hname (isDirectoryAt_iff.mp (h.directory hend)) hend ih⟩
  | follows hdir hname hnode _ ih =>
    rw [walk_eq]
    exact walkNames_cons_eq_ok.mpr ⟨hdir, .follows hname hnode (fun _ => rfl) ih⟩

/-- What a path names is at the end of a way. -/
theorem find_eq_ok_iff {p : Path} {node : Node} : fs.find p = .ok (found, node) ↔
    checkedText p = .ok p.text ∧ fs.node? found = some node ∧
      ∃ left, Way fs maxLinks (start fs.workingDirectory p.text) (steps p.text) left found := by
  rw [find_iff_locate, locate_eq_ok_iff]
  constructor
  · rintro ⟨⟨htext, hwalk⟩, hnode⟩
    exact ⟨htext, hnode, way_of_walk (by simp [hnode]) hwalk⟩
  · rintro ⟨htext, hnode, left, hway⟩
    exact ⟨⟨htext, hway.walk⟩, hnode⟩

theorem isDirectory_of_find {p : Path} (h : fs.find p = .ok (found, .directory)) : fs.isDirectory p = true := by
  rw [isDirectory, h]

theorem isFile_of_find {p : Path} {content : ByteArray} (h : fs.find p = .ok (found, .file content)) :
    fs.isFile p = true := by
  rw [isFile, h]

theorem checkedText_eq_ok_iff {p : Path} : checkedText p = .ok p.text ↔
    '\x00' ∉ p.text.toList ∧ p.text ≠ "" ∧ p.text.utf8ByteSize ≤ maxPathBytes := by
  unfold checkedText
  by_cases hzero : '\x00' ∈ p.text.toList
  · simp [hzero]
  by_cases hempty : p.text = ""
  · simp [hempty]
  by_cases hlong : maxPathBytes < p.text.utf8ByteSize
  · simp [hzero, hempty, hlong]
  · simp [hzero, hempty, hlong]
    omega

end ModGraph.FileSystem

/-! ## Paths of names -/

namespace ModGraph.Path

/-- The path that consists of some names, from the root or from where it is looked up. -/
def ofNames (absolute : Bool) (names : List String) : Path :=
  ofComponents ((if absolute then [.root] else []) ++ names.map .name)

theorem toList_ofNames (absolute : Bool) (names : List String) : (ofNames absolute names).text.toList =
    (if absolute then ['/'] else []) ++ Text.join '/' (names.map String.toList) := by
  have hchars : Component.chars ∘ Component.name = String.toList := rfl
  cases absolute with
  | true => simp [ofNames, ofComponents, hchars]
  | false => cases names <;> simp [ofNames, ofComponents, hchars, Component.chars]

end ModGraph.Path

namespace ModGraph.FileSystem

variable {fs : FileSystem} {links left : Nat} {loc found : Location} {name : String} {names : List String}
  {absolute : Bool}

theorem names_ne_nil_of_mem {text : String} {c : Char} (hc : c ∈ text.toList) (hslash : c ≠ '/') :
    FileSystem.names text ≠ [] := by
  obtain hroot | ⟨name, hname, -⟩ := mem_names hc
  · exact absurd hroot hslash
  · exact List.ne_nil_of_mem hname

/-- The steps of a text are its names, and a point if it ends in a slash. -/
theorem steps_eq (text : String) :
    ∃ last, steps text = FileSystem.names text ++ last ∧ (last = [] ∨ last = ["."]) := by
  unfold steps
  split
  · exact ⟨["."], rfl, .inr rfl⟩
  · exact ⟨[], by simp, .inl rfl⟩

theorem steps_ne_nil {text : String} (h : text ≠ "") : steps text ≠ [] := by
  unfold steps
  split
  · simp
  · next hlast =>
    cases hend : text.toList.getLast? with
    | none => exact absurd (by simpa using hend) h
    | some c =>
      apply names_ne_nil_of_mem (List.mem_of_getLast? hend)
      rintro rfl
      exact hlast hend

theorem names_ofNames (h : ∀ name ∈ names, (Path.Component.name name).IsStep) :
    FileSystem.names (Path.ofNames absolute names).text = names := by
  have hsplit := Path.split_join_chars (List.forall_mem_map.mpr h)
  have hchars : Path.Component.chars ∘ Path.Component.name = String.toList := rfl
  rw [List.map_map, hchars] at hsplit
  have hkept : ((names.map String.toList).filter (!·.isEmpty)).map String.ofList = names := by
    rw [List.filter_eq_self.mpr]
    · simp [Function.comp_def, String.ofList_toList]
    · intro piece hpiece
      obtain ⟨name, hname, rfl⟩ := List.mem_map.mp hpiece
      obtain ⟨-, hne, -, -⟩ := Path.isStep_name.mp (h name hname)
      simpa using hne
  have hjoined : FileSystem.names (String.ofList (Text.join '/' (names.map String.toList))) = names := by
    rw [FileSystem.names, String.toList_ofList, hsplit]
    split
    · next hnil =>
      rw [List.map_eq_nil_iff.mp hnil]
      rfl
    · exact hkept
  rw [← @String.ofList_toList (Path.ofNames absolute names).text, Path.toList_ofNames]
  cases absolute with
  | true =>
    have hroot : FileSystem.names (String.ofList []) = [] := rfl
    refine (names_append [] _).trans ?_
    rw [hroot]
    exact hjoined
  | false => exact hjoined

/-- Where absolute paths start, and where the others do. -/
def origin (fs : FileSystem) (absolute : Bool) : Location := if absolute then [] else fs.workingDirectory

theorem start_ofNames (h : ∀ name ∈ names, (Path.Component.name name).IsStep) :
    start fs.workingDirectory (Path.ofNames absolute names).text = fs.origin absolute := by
  rw [start, Path.toList_ofNames]
  cases absolute with
  | true => rfl
  | false =>
    rw [if_neg, origin, if_neg (by decide)]
    -- the first name is not empty and has no slash
    cases names with
    | nil => simp [Text.join]
    | cons name rest =>
      obtain ⟨hslash, hne, -, -⟩ := Path.isStep_name.mp (h name List.mem_cons_self)
      obtain ⟨c, letters, hletters⟩ := List.exists_cons_of_ne_nil (l := name.toList) (by simpa using hne)
      rw [List.map_cons, hletters, Text.join_cons_cons]
      rintro hc
      obtain rfl : c = '/' := by simpa using hc
      exact hslash (by simp [hletters])

theorem suffix_join {sep : Char} (pieces : List (List Char)) (last : List Char) :
    last <:+ Text.join sep (pieces ++ [last]) := by
  induction pieces with
  | nil => exact List.suffix_rfl
  | cons piece pieces ih =>
    obtain ⟨next, rest, hrest⟩ := List.exists_cons_of_ne_nil (List.concat_ne_nil last pieces)
    rw [hrest] at ih
    rw [List.cons_append, hrest, Text.join]
    exact (ih.trans (List.suffix_cons _ _)).trans (List.suffix_append _ _)

/-- Only the path of no names can end in a slash. -/
theorem steps_ofNames (h : ∀ name ∈ names, (Path.Component.name name).IsStep) (hne : names ≠ []) :
    steps (Path.ofNames absolute names).text = names := by
  obtain ⟨front, name, rfl⟩ : ∃ front name, names = front ++ [name] :=
    ⟨_, _, (List.dropLast_concat_getLast hne).symm⟩
  obtain ⟨hslash, hname, -, -⟩ := Path.isStep_name.mp (h name (by simp))
  have hends : name.toList <:+ (Path.ofNames absolute (front ++ [name])).text.toList := by
    rw [Path.toList_ofNames, List.map_append]
    exact (suffix_join _ _).trans (List.suffix_append _ _)
  rw [steps, names_ofNames h, if_neg]
  intro hlast
  obtain ⟨before, hbefore⟩ := hends
  rw [← hbefore, List.getLast?_append] at hlast
  cases hend : name.toList.getLast? with
  | none => exact hname (by simpa using hend)
  | some last =>
    obtain rfl : last = '/' := by simpa [hend] using hlast
    exact hslash (List.mem_of_getLast? hend)

/-! ## Places and their paths -/

/-- A name that an entry of a directory can have. -/
structure FileName (name : String) : Prop where
  step : (Path.Component.name name).IsStep
  zero : '\x00' ∉ name.toList
  length : name.utf8ByteSize ≤ maxNameBytes

theorem FileName.entryName (h : FileName name) : EntryName name := by
  obtain ⟨-, -, hdot, hup⟩ := Path.isStep_name.mp h.step
  exact ⟨hdot, hup, h.length⟩

/-- What holds of the trees that a system can hold: whatever there is lies in a directory and has a name. -/
structure WellFormed (fs : FileSystem) : Prop where
  rooted : fs.Rooted
  named : ∀ {name above}, (fs.node? (name :: above)).isSome → FileName name

theorem wellFormed_of_keys (hrooted : ∀ loc ∈ fs.nodes.keys, fs.isDirectoryAt loc.tail = true)
    (hnames : ∀ loc ∈ fs.nodes.keys, ∀ name ∈ loc, ('/' ∉ name.toList ∧ name ≠ "" ∧ name ≠ "." ∧ name ≠ "..") ∧
      '\x00' ∉ name.toList ∧ name.utf8ByteSize ≤ maxNameBytes) : fs.WellFormed := by
  refine ⟨rooted_of_keys hrooted, fun {name above} hnode => ?_⟩
  have hkey : name :: above ∈ fs.nodes.keys := (Table.mem_keys_iff _ _).mpr hnode
  obtain ⟨hstep, hzero, hlength⟩ := hnames _ hkey name List.mem_cons_self
  exact ⟨Path.isStep_name.mpr hstep, hzero, hlength⟩

namespace WellFormed

theorem fileName (h : fs.WellFormed) (hloc : (fs.node? loc).isSome) : ∀ name ∈ loc, FileName name := by
  induction loc with
  | nil => simp
  | cons first above ih =>
    intro name hname
    obtain rfl | hname := List.mem_cons.mp hname
    · exact h.named hloc
    · refine ih ?_ name hname
      rw [isDirectoryAt_iff.mp (h.rooted first above hloc)]
      rfl

theorem proper (h : fs.WellFormed) (hloc : (fs.node? loc).isSome) : Proper loc :=
  fun name hname => (h.fileName hloc name hname).step

/-- The names that lead to a place do so without any link. -/
theorem way (h : fs.WellFormed) {node : Node} (hnode : fs.node? loc = some node)
    (hlink : ∀ target, node ≠ .link target) (links : Nat) : Way fs links [] loc.reverse links loc := by
  induction loc generalizing node with
  | nil => exact .done
  | cons name above ih =>
    have hsome : (fs.node? (name :: above)).isSome := by simp [hnode]
    have habove := h.rooted name above hsome
    rw [List.reverse_cons]
    apply (ih (isDirectoryAt_iff.mp habove) (by simp)).append
    exact .enters habove (h.named hsome).entryName hnode hlink .done

end WellFormed

/-- The path of a place leads to it if it is not too long to be looked up. -/
theorem find_path (h : fs.WellFormed) {node : Node} (hnode : fs.node? loc = some node)
    (hlink : ∀ target, node ≠ .link target) (hlength : loc.path.text.utf8ByteSize ≤ maxPathBytes) :
    fs.find loc.path = .ok (loc, node) := by
  have hsome : (fs.node? loc).isSome := by simp [hnode]
  have hpath : loc.path = .ofNames true loc.reverse := rfl
  have hproper : ∀ name ∈ loc.reverse, (Path.Component.name name).IsStep :=
    fun name hname => h.proper hsome name (List.mem_reverse.mp hname)
  refine find_eq_ok_iff.mpr ⟨checkedText_eq_ok_iff.mpr ⟨?_, ?_, hlength⟩, hnode, maxLinks, ?_⟩
  · intro hzero
    rw [hpath, Path.toList_ofNames] at hzero
    obtain hzero | hzero := List.mem_cons.mp hzero
    · cases hzero
    obtain hzero | ⟨piece, hpiece, hzero⟩ := Text.mem_join hzero
    · cases hzero
    obtain ⟨name, hname, rfl⟩ := List.mem_map.mp hpiece
    exact (h.fileName hsome name (List.mem_reverse.mp hname)).zero hzero
  · intro hempty
    have htext := Path.toList_ofNames true loc.reverse
    rw [← hpath, hempty] at htext
    cases htext
  · rw [hpath, start_ofNames hproper]
    by_cases hroot : loc = []
    · subst hroot
      exact .here rfl rfl .done
    · rw [steps_ofNames hproper (by simpa using hroot)]
      exact h.way hnode hlink maxLinks

/-- No way ends at a link, if it does not start at one. -/
theorem Way.unlinked (hfs : fs.WellFormed) (h : Way fs links loc names left found)
    (hloc : ∀ target, fs.node? loc ≠ some (.link target)) : ∀ target, fs.node? found ≠ some (.link target) := by
  have hdirectory : ∀ {loc : Location}, fs.isDirectoryAt loc = true → ∀ target, fs.node? loc ≠ some (.link target) := by
    intro loc hdir
    simp [isDirectoryAt_iff.mp hdir]
  induction h with
  | done => exact hloc
  | here _ _ _ ih => exact ih hloc
  | @up _ _ loc _ _ _ hdir _ _ ih =>
    apply ih
    cases loc with
    | nil => exact hloc
    | cons name above => exact hdirectory (hfs.rooted name above (by rw [isDirectoryAt_iff.mp hdir]; rfl))
  | enters _ _ hnode hlink _ ih =>
    apply ih
    intro target heq
    exact hlink target (Option.some.inj (hnode.symm.trans heq))
  | follows hdir _ _ _ ih =>
    apply ih
    unfold start
    split
    · simp [node?]
    · exact hdirectory hdir

/-- A real path is real. -/
theorem realPath_realPath (h : fs.WellFormed) {p real : Path} (hreal : fs.realPath p = .ok real)
    (hlength : real.text.utf8ByteSize ≤ maxPathBytes) : fs.realPath real = .ok real := by
  rw [realPath] at hreal
  cases hfind : fs.find p with
  | error fault =>
    rw [hfind] at hreal
    cases hreal
  | ok found =>
    obtain ⟨loc, node⟩ := found
    rw [hfind] at hreal
    cases hreal
    obtain ⟨htext, hnode, left, hway⟩ := find_eq_ok_iff.mp hfind
    obtain ⟨-, hne, -⟩ := checkedText_eq_ok_iff.mp htext
    have hstart := isDirectoryAt_iff.mp (hway.directory (steps_ne_nil hne))
    have hlink := hway.unlinked h (by simp [hstart])
    rw [realPath, find_path h hnode (fun target heq => hlink target (heq ▸ hnode)) hlength]
    rfl

end ModGraph.FileSystem
