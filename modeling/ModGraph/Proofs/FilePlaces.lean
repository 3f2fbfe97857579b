import Mathlib.Logic.Basic
import ModGraph.Proofs.CanonicalPaths

/-!
# Places that paths lead to

Where a path leads is settled by the directories and links on the way (`Keeps.walk`): making
directories, writing files and removing them changes nothing about a path that leads somewhere. What is
written to the entry of a directory ends in that directory, or goes on at a link that stands there
(`locate_join`).
-/

namespace ModGraph.FileSystem

variable {fs fs' fs'' : FileSystem} {loc : Location}

/-! ## Writing to the tree -/

theorem node?_put {other : Location} {node : Node} (hloc : loc ≠ []) :
    (fs.put loc node).node? other = if loc = other then some node else fs.node? other := by
  cases other with
  | nil => rw [if_neg hloc]; rfl
  | cons name above => exact Table.get?_insert _ _ _ _

theorem node?_removeTree {name : String} :
    (fs.removeTree loc).node? (name :: above) =
      if loc <:+ name :: above then none else fs.node? (name :: above) := by
  refine (Table.get?_restrict fs.nodes (fun below => !loc.isSuffixOf below) (name :: above)).trans ?_
  cases hs : loc.isSuffixOf (name :: above) with
  | true => simp [List.isSuffixOf_iff_suffix.mp hs]
  | false =>
    have hs' : ¬loc <:+ name :: above := fun h => by simp [List.isSuffixOf_iff_suffix.mpr h] at hs
    rw [if_neg hs']
    rfl

/-- Whatever there is lies in a directory. -/
def Rooted (fs : FileSystem) : Prop :=
  ∀ name above, (fs.node? (name :: above)).isSome → fs.isDirectoryAt above = true

theorem rooted_of_keys (h : ∀ loc ∈ fs.nodes.keys, fs.isDirectoryAt loc.tail = true) : fs.Rooted :=
  fun _ _ hn => h _ ((Table.mem_keys_iff _ _).mpr hn)

namespace Rooted

/-- What something lies below is a directory. -/
theorem directory_above (h : fs.Rooted) {name : String} {names : List String}
    (hn : (fs.node? (name :: names ++ loc)).isSome) : fs.isDirectoryAt loc = true := by
  induction names generalizing name with
  | nil => exact h _ _ hn
  | cons next names ih =>
    have hnext : (fs.node? (next :: names ++ loc)).isSome := by
      rw [isDirectoryAt_iff.mp (h name (next :: names ++ loc) hn)]
      rfl
    exact ih hnext

/-- A new entry in a directory; a directory that is there is not replaced by something else. -/
theorem put (h : fs.Rooted) {name : String} {node : Node} (hdir : fs.isDirectoryAt loc = true)
    (hnew : node = .directory ∨ fs.isDirectoryAt (name :: loc) = false) : (fs.put (name :: loc) node).Rooted := by
  intro other above hn
  have hne : name :: loc ≠ [] := by simp
  rw [node?_put hne] at hn
  have habove : fs.isDirectoryAt above = true := by
    split at hn
    · next heq =>
      cases heq
      exact hdir
    · exact h other above hn
  rw [isDirectoryAt_iff, node?_put hne]
  split
  · next heq =>
    subst heq
    obtain rfl | hfree := hnew
    · rfl
    · rw [habove] at hfree
      cases hfree
  · exact isDirectoryAt_iff.mp habove

theorem removeTree (h : fs.Rooted) (loc : Location) : (fs.removeTree loc).Rooted := by
  intro name above hn
  rw [node?_removeTree] at hn
  split at hn
  · cases hn
  · next hkept =>
    have habove := isDirectoryAt_iff.mp (h name above hn)
    rw [isDirectoryAt_iff]
    cases above with
    | nil => rfl
    | cons next rest =>
      have hstays : ¬loc <:+ next :: rest := fun hs => hkept (hs.trans (List.suffix_cons _ _))
      rw [node?_removeTree, if_neg hstays, habove]

/-- Below a file there is nothing, so that nothing but the file is removed. -/
theorem node?_removeTree_file (h : fs.Rooted) {name : String} (hfile : fs.isDirectoryAt (name :: loc) = false)
    (other : Location) :
    (fs.removeTree (name :: loc)).node? other = if name :: loc = other then none else fs.node? other := by
  cases other with
  | nil => rfl
  | cons next above =>
    rw [node?_removeTree]
    by_cases hs : name :: loc <:+ next :: above
    · rw [if_pos hs]
      obtain ⟨names, hnames⟩ := hs
      cases names with
      | nil => rw [if_pos (by simpa using hnames)]
      | cons first names =>
        have hne : name :: loc ≠ next :: above := by
          intro heq
          have := congrArg List.length (heq.trans hnames.symm)
          simp at this
          omega
        rw [if_neg hne]
        cases hn : fs.node? (next :: above) with
        | none => rfl
        | some node =>
          have hbelow : (fs.node? (first :: names ++ name :: loc)).isSome := by
            rw [hnames, hn]
            rfl
          rw [h.directory_above hbelow] at hfile
          cases hfile
    · have hne : name :: loc ≠ next :: above := fun heq => hs (heq ▸ List.suffix_rfl)
      rw [if_neg hs, if_neg hne]

end Rooted

/-! ## One name after the other -/

/-- How a look-up goes on with a name, in a directory, so that it finds a place. -/
inductive Goes (fs : FileSystem) (follow : Bool)
    (jump : Location → String → List String → Except Fault Location) (loc : Location) (name : String)
    (rest : List String) (found : Location) : Prop where
  | here (hname : name = ".") (hrest : fs.walkNames follow jump loc rest = .ok found)
  | up (hname : name = "..") (hrest : fs.walkNames follow jump loc.tail rest = .ok found)
  | enters (hname : EntryName name) (hnode : fs.node? (name :: loc) = some .directory) (hne : rest ≠ [])
      (hrest : fs.walkNames follow jump (name :: loc) rest = .ok found)
  | follows {target : String} (hname : EntryName name) (hnode : fs.node? (name :: loc) = some (.link target))
      (hgoes : rest = [] → follow = true) (hrest : jump loc target rest = .ok found)
  | stops (hname : EntryName name) (hrest : rest = []) (hfound : found = name :: loc)
      (hlink : ∀ target, fs.node? (name :: loc) = some (.link target) → follow = false)

theorem goes_of_walkNames {follow : Bool} {jump : Location → String → List String → Except Fault Location}
    {name : String} {rest : List String} {found : Location}
    (h : fs.walkNames follow jump loc (name :: rest) = .ok found) :
    fs.isDirectoryAt loc = true ∧ Goes fs follow jump loc name rest found := by
  unfold walkNames at h
  split at h
  · cases h
  next hdir =>
  refine ⟨by simpa using hdir, ?_⟩
  split at h
  · next hdot => exact .here hdot h
  next hdot =>
  split at h
  · next hup => exact .up hup h
  next hup =>
  split at h
  · cases h
  next hlong =>
  have hname : EntryName name := ⟨hdot, hup, Nat.le_of_not_lt hlong⟩
  split at h
  · next target hnode =>
    split at h
    · next hlast =>
      cases h
      simp only [Bool.and_eq_true, List.isEmpty_iff, Bool.not_eq_true'] at hlast
      exact .stops hname hlast.1 rfl fun _ _ => hlast.2
    · next hlast => exact .follows hname hnode (fun hrest => by simpa [hrest] using hlast) h
  · next node hnolink hnode =>
    cases rest with
    | nil =>
      cases h
      exact .stops hname rfl rfl fun target hlink => absurd (Option.some.inj (hnode.symm.trans hlink)) (hnolink target)
    | cons next rest =>
      refine .enters hname ?_ (by simp) h
      -- another name follows, so this one is a directory
      unfold walkNames at h
      cases hdir' : fs.isDirectoryAt (name :: loc) with
      | true => exact isDirectoryAt_iff.mp hdir'
      | false => simp [hdir'] at h
  · next hnode =>
    split at h
    · next hlast =>
      cases h
      exact .stops hname (List.isEmpty_iff.mp hlast) rfl fun target hlink => by rw [hnode] at hlink; cases hlink
    · cases h

theorem walkNames_of_goes {follow : Bool} {jump : Location → String → List String → Except Fault Location}
    {name : String} {rest : List String} {found : Location} (hdir : fs.isDirectoryAt loc = true)
    (hstep : Goes fs follow jump loc name rest found) :
    fs.walkNames follow jump loc (name :: rest) = .ok found := by
  unfold walkNames
  rw [hdir]
  cases hstep with
  | here hname hrest => simpa [hname] using hrest
  | up hname hrest => simpa [hname] using hrest
  | enters hname hnode hne hrest => simpa [hname.dot, hname.up, Nat.not_lt.mpr hname.length, hnode] using hrest
  | follows hname hnode hgoes hrest =>
    have hlast : (rest.isEmpty && !follow) = false := by
      cases rest with
      | nil => simp [hgoes rfl]
      | cons => rfl
    simpa [hname.dot, hname.up, Nat.not_lt.mpr hname.length, hnode, hlast] using hrest
  | stops hname hrest hfound hlink =>
    subst hrest hfound
    cases hnode : fs.node? (name :: loc) with
    | none => simp [hname.dot, hname.up, Nat.not_lt.mpr hname.length]
    | some node =>
      cases node with
      | link target => simp [hname.dot, hname.up, Nat.not_lt.mpr hname.length, hlink target hnode]
      | file | directory => simp [hname.dot, hname.up, Nat.not_lt.mpr hname.length, walkNames]

theorem walkNames_cons_eq_ok {follow : Bool} {jump : Location → String → List String → Except Fault Location}
    {name : String} {rest : List String} {found : Location} :
    fs.walkNames follow jump loc (name :: rest) = .ok found ↔
      fs.isDirectoryAt loc = true ∧ Goes fs follow jump loc name rest found :=
  ⟨goes_of_walkNames, fun ⟨hdir, hstep⟩ => walkNames_of_goes hdir hstep⟩

/-! ## What look-ups go by -/

/-- Directories stay, and links are the same. -/
structure Keeps (fs fs' : FileSystem) : Prop where
  working : fs'.workingDirectory = fs.workingDirectory
  directory : ∀ {loc}, fs.isDirectoryAt loc = true → fs'.isDirectoryAt loc = true
  link : ∀ loc target, fs'.node? loc = some (.link target) ↔ fs.node? loc = some (.link target)

namespace Keeps

theorem refl (fs : FileSystem) : fs.Keeps fs := ⟨rfl, id, fun _ _ => .rfl⟩

theorem trans (h : fs.Keeps fs') (h' : fs'.Keeps fs'') : fs.Keeps fs'' :=
  ⟨h'.working.trans h.working, fun hd => h'.directory (h.directory hd),
    fun loc target => (h'.link loc target).trans (h.link loc target)⟩

/-- A file is written, or a directory is made where there was no link. -/
theorem put {name : String} {node : Node} (hfree : ∀ target, fs.node? (name :: loc) ≠ some (.link target))
    (hnode : ∀ target, node ≠ .link target)
    (hnew : node = .directory ∨ fs.isDirectoryAt (name :: loc) = false) : fs.Keeps (fs.put (name :: loc) node) where
  working := rfl
  directory {other} hd := by
    rw [isDirectoryAt_iff, node?_put (by simp)]
    split
    · next heq =>
      subst heq
      obtain rfl | hdir := hnew
      · rfl
      · rw [hd] at hdir
        cases hdir
    · exact isDirectoryAt_iff.mp hd
  link other target := by
    rw [node?_put (by simp)]
    split
    · next heq =>
      subst heq
      exact ⟨fun h => absurd (Option.some.inj h) (hnode target), fun h => absurd h (hfree target)⟩
    · exact .rfl

/-- A file is removed. -/
theorem removeTree (h : fs.Rooted) {name : String} {content : ByteArray}
    (hfile : fs.node? (name :: loc) = some (.file content)) : fs.Keeps (fs.removeTree (name :: loc)) := by
  have hdir : fs.isDirectoryAt (name :: loc) = false := by simp [isDirectoryAt, hfile]
  have hnode := h.node?_removeTree_file hdir
  refine ⟨rfl, fun {other} hd => ?_, fun other target => ?_⟩
  · rw [isDirectoryAt_iff, hnode, if_neg fun heq => by rw [heq, hd] at hdir; cases hdir]
    exact isDirectoryAt_iff.mp hd
  · rw [hnode]
    split
    · next heq =>
      rw [← heq, hfile]
      simp
    · exact .rfl

theorem walkNames {follow : Bool} {jump jump' : Location → String → List String → Except Fault Location}
    {found : Location} (h : fs.Keeps fs')
    (hjump : ∀ {loc target rest}, jump loc target rest = .ok found → jump' loc target rest = .ok found)
    {names : List String} {loc : Location} (hw : fs.walkNames follow jump loc names = .ok found) :
    fs'.walkNames follow jump' loc names = .ok found := by
  induction names generalizing loc with
  | nil => exact hw
  | cons name rest ih =>
    obtain ⟨hdir, hstep⟩ := walkNames_cons_eq_ok.mp hw
    refine walkNames_cons_eq_ok.mpr ⟨h.directory hdir, ?_⟩
    cases hstep with
    | here hname hrest => exact .here hname (ih hrest)
    | up hname hrest => exact .up hname (ih hrest)
    | enters hname hnode hne hrest =>
      exact .enters hname (isDirectoryAt_iff.mp (h.directory (isDirectoryAt_iff.mpr hnode))) hne (ih hrest)
    | follows hname hnode hgoes hrest => exact .follows hname ((h.link _ _).mpr hnode) hgoes (hjump hrest)
    | stops hname hrest hfound hlink =>
      exact .stops hname hrest hfound fun target hnode => hlink target ((h.link _ _).mp hnode)

/-- A look-up that leads somewhere goes on leading there. -/
theorem walk {follow : Bool} {links : Nat} {loc found : Location} {names : List String} (h : fs.Keeps fs')
    (hw : fs.walk follow links loc names = .ok found) : fs'.walk follow links loc names = .ok found := by
  induction links generalizing loc names with
  | zero => exact h.walkNames (fun h => by cases h) hw
  | succ links ih => exact h.walkNames ih hw

end Keeps

/-! ## Making directories -/

/-- Directories are made where there was nothing. -/
inductive Grows (fs : FileSystem) : FileSystem → Prop where
  | refl : Grows fs fs
  | makes {fs' : FileSystem} {name : String} {loc : Location} (h : Grows fs fs')
      (hdir : fs'.isDirectoryAt loc = true) (hfree : fs'.node? (name :: loc) = none) :
      Grows fs (fs'.put (name :: loc) .directory)

namespace Grows

theorem trans (h : Grows fs fs') (h' : Grows fs' fs'') : Grows fs fs'' := by
  induction h' with
  | refl => exact h
  | makes _ hdir hfree ih => exact .makes ih hdir hfree

theorem keeps (h : Grows fs fs') : fs.Keeps fs' := by
  induction h with
  | refl => exact .refl fs
  | makes _ _ hfree ih => exact ih.trans (.put (by simp [hfree]) (by simp) (.inl rfl))

theorem rooted (h : Grows fs fs') (hfs : fs.Rooted) : fs'.Rooted := by
  induction h with
  | refl => exact hfs
  | makes _ hdir _ ih => exact ih.put hdir (.inl rfl)

/-- What was there stays, and what is new is a directory. -/
theorem node (h : Grows fs fs') (loc : Location) :
    fs'.node? loc = fs.node? loc ∨ fs'.node? loc = some .directory := by
  induction h with
  | refl => exact .inl rfl
  | makes _ _ _ ih =>
    rw [node?_put (by simp)]
    split
    · exact .inr rfl
    · exact ih

end Grows

theorem grows_ensureDirectory {path : Path} (h : fs.ensureDirectory path = .ok fs') : Grows fs fs' := by
  obtain rfl | ⟨name, above, hfree, rfl⟩ := ensureDirectory_eq_ok h
  · exact .refl
  · exact .makes .refl hfree.directory hfree.free

theorem grows_ensureDirectories (fs : FileSystem) (dirs : List Path) : Grows fs (fs.ensureDirectories dirs).1 :=
  ensureDirectories_induction (fun _ _ h hok => h.trans (grows_ensureDirectory hok)) .refl

/-! ## Entries of a directory -/

/-- A name behind a directory leads to the entry, or to where a link goes that stands there. -/
structure EndsIn (fs : FileSystem) (above : Location) (name : String) (found : Location) : Prop where
  directory : fs.isDirectoryAt above = true
  last : found = name :: above ∨ ∃ target, fs.node? (name :: above) = some (.link target)

section Last

variable {follow : Bool} {name : String} {found : Location}

theorem walkNames_concat {jump jump' : Location → String → List String → Except Fault Location}
    (hdot : name ≠ ".") (hup : name ≠ "..")
    (hjump : ∀ {loc target rest}, jump loc target (rest ++ [name]) = .ok found →
      ∃ above, jump' loc target rest = .ok above ∧ fs.EndsIn above name found)
    {names : List String} {loc : Location} (h : fs.walkNames follow jump loc (names ++ [name]) = .ok found) :
    ∃ above, fs.walkNames true jump' loc names = .ok above ∧ fs.EndsIn above name found := by
  induction names generalizing loc with
  | nil =>
    obtain ⟨hdir, hstep⟩ := walkNames_cons_eq_ok.mp h
    refine ⟨loc, rfl, hdir, ?_⟩
    cases hstep with
    | here hname => exact absurd hname hdot
    | up hname => exact absurd hname hup
    | enters _ _ hne => exact absurd rfl hne
    | follows _ hnode => exact .inr ⟨_, hnode⟩
    | stops _ _ hfound => exact .inl hfound
  | cons first rest ih =>
    obtain ⟨hdir, hstep⟩ := walkNames_cons_eq_ok.mp h
    cases hstep with
    | here hname hrest =>
      obtain ⟨above, hw, hend⟩ := ih hrest
      exact ⟨above, walkNames_cons_eq_ok.mpr ⟨hdir, .here hname hw⟩, hend⟩
    | up hname hrest =>
      obtain ⟨above, hw, hend⟩ := ih hrest
      exact ⟨above, walkNames_cons_eq_ok.mpr ⟨hdir, .up hname hw⟩, hend⟩
    | follows hname hnode _ hrest =>
      obtain ⟨above, hw, hend⟩ := hjump hrest
      exact ⟨above, walkNames_cons_eq_ok.mpr ⟨hdir, .follows hname hnode (fun _ => rfl) hw⟩, hend⟩
    | stops _ hrest => simp at hrest
    | enters hname hnode _ hrest =>
      obtain ⟨above, hw, hend⟩ := ih hrest
      refine ⟨above, walkNames_cons_eq_ok.mpr ⟨hdir, ?_⟩, hend⟩
      cases rest with
      | nil =>
        cases hw
        exact .stops hname rfl rfl fun target hlink => by rw [hnode] at hlink; cases hlink
      | cons next rest => exact .enters hname hnode (by simp) hw

theorem walk_concat (hdot : name ≠ ".") (hup : name ≠ "..") {links : Nat} {loc : Location} {names : List String}
    (h : fs.walk follow links loc (names ++ [name]) = .ok found) :
    ∃ above, fs.walk true links loc names = .ok above ∧ fs.EndsIn above name found := by
  induction links generalizing loc names with
  | zero => exact walkNames_concat hdot hup (fun h => by cases h) h
  | succ links ih =>
    refine walkNames_concat hdot hup (fun hj => ?_) h
    rw [← List.append_assoc] at hj
    exact ih hj

theorem names_append (a b : List Char) :
    names (String.ofList (a ++ '/' :: b)) = names (String.ofList a) ++ names (String.ofList b) := by
  simp [names, Text.split_append]

theorem names_name (hname : (Path.Component.name name).IsStep) : names name = [name] := by
  obtain ⟨hslash, hne, -, -⟩ := Path.isStep_name.mp hname
  have hempty : name.toList.isEmpty = false := by simpa using hne
  simp [names, Text.split_of_not_mem hslash, hempty, String.ofList_toList]

/-- The spelling of an entry's path: a slash stands before the name, except behind the empty path. -/
theorem text_join (dir : Path) (hname : (Path.Component.name name).IsStep) :
    dir.text = "" ∧ (dir.join ⟨name⟩).text = name ∨
      ∃ cs, (dir.join ⟨name⟩).text = String.ofList (cs ++ '/' :: name.toList) ∧
        (cs ≠ [] ∧ dir.text = String.ofList cs ∨ dir.text = String.ofList (cs ++ ['/'])) := by
  obtain ⟨hslash, -, -, -⟩ := Path.isStep_name.mp hname
  have hrelative : (⟨name⟩ : Path).isAbsolute = false := by
    unfold Path.isAbsolute Path.lead Path.cutLead
    split
    · next hcs => exact absurd (hcs ▸ List.mem_cons_self) hslash
    all_goals rfl
  unfold Path.join
  rw [hrelative]
  cases hlast : dir.text.toList.getLast? with
  | none =>
    have hempty : dir.text = "" := by simpa using hlast
    exact .inl ⟨hempty, by simp [hempty, String.ofList_toList]⟩
  | some c =>
    obtain ⟨cs, hcs⟩ := List.getLast?_eq_some_iff.mp hlast
    have hdir : dir.text = String.ofList (cs ++ [c]) := by rw [← hcs, String.ofList_toList]
    by_cases hc : c = '/'
    · subst hc
      exact .inr ⟨cs, by simp [hcs], .inr hdir⟩
    · exact .inr ⟨cs ++ [c], by simp [hcs, hc], .inl ⟨by simp, hdir⟩⟩

theorem names_join {dir : Path} (hname : (Path.Component.name name).IsStep) :
    names (dir.join ⟨name⟩).text = names dir.text ++ [name] := by
  have hnone : names (String.ofList []) = [] := rfl
  obtain ⟨hdir, htext⟩ | ⟨cs, htext, ⟨-, hdir⟩ | hdir⟩ := text_join dir hname
  · rw [htext, hdir, names_name hname]
    rfl
  · rw [htext, hdir, names_append, String.ofList_toList, names_name hname]
  · rw [htext, hdir, names_append, names_append, String.ofList_toList, names_name hname, hnone, List.append_nil]

theorem start_join {dir : Path} (hname : (Path.Component.name name).IsStep) (base : Location) :
    start base (dir.join ⟨name⟩).text = start base dir.text := by
  obtain ⟨hslash, -, -, -⟩ := Path.isStep_name.mp hname
  unfold start
  obtain ⟨hdir, htext⟩ | ⟨cs, htext, hcs⟩ := text_join dir hname
  · have hhead : name.toList.head? ≠ some '/' := fun h => hslash (List.mem_of_head? h)
    rw [htext, hdir, if_neg hhead, if_neg (by simp)]
  · have hhead : (dir.join ⟨name⟩).text.toList.head? = dir.text.toList.head? := by
      obtain ⟨hne, hdir⟩ | hdir := hcs
      · obtain ⟨c, cs, rfl⟩ := List.exists_cons_of_ne_nil hne
        simp [htext, hdir]
      · cases cs <;> simp [htext, hdir]
    rw [hhead]

theorem steps_join {dir : Path} (hname : (Path.Component.name name).IsStep) :
    steps (dir.join ⟨name⟩).text = names dir.text ++ [name] := by
  obtain ⟨hslash, hne, -, -⟩ := Path.isStep_name.mp hname
  have hnil : name.toList ≠ [] := by simpa using hne
  have hlast : (dir.join ⟨name⟩).text.toList.getLast? = name.toList.getLast? := by
    obtain ⟨-, htext⟩ | ⟨cs, htext, -⟩ := text_join dir hname
    · rw [htext]
    · obtain ⟨c, rest, hrest⟩ := List.exists_cons_of_ne_nil hnil
      simp [htext, hrest, List.getLast?_append, List.getLast?_cons]
  rw [steps, hlast, if_neg fun h => hslash (List.mem_of_getLast? h), names_join hname]

/-- The path of an entry leads to its directory first. -/
theorem locate_join {dir : Path} (hname : (Path.Component.name name).IsStep)
    (h : fs.locate follow (dir.join ⟨name⟩) = .ok found) :
    ∃ above, fs.walk true maxLinks (start fs.workingDirectory dir.text) (names dir.text) = .ok above ∧
      fs.EndsIn above name found := by
  obtain ⟨-, -, hdot, hup⟩ := Path.isStep_name.mp hname
  have hwalk := (locate_eq_ok_iff.mp h).2
  rw [start_join hname, steps_join hname] at hwalk
  exact walk_concat hdot hup hwalk

end Last

/-! ## Paths without links -/

/-- Names that are the names of entries, with no link among these, lead to the place that they spell. -/
theorem walkNames_eq_ok_of_plain {follow : Bool} {jump : Location → String → List String → Except Fault Location}
    {found : Location} {names : List String} (hplain : ∀ name ∈ names, name ≠ "." ∧ name ≠ "..")
    (hlinks : ∀ front, front <+: names → ∀ target, fs.node? (front.reverse ++ loc) ≠ some (.link target))
    (h : fs.walkNames follow jump loc names = .ok found) : found = names.reverse ++ loc := by
  induction names generalizing loc with
  | nil =>
    cases h
    rfl
  | cons name rest ih =>
    obtain ⟨hdot, hup⟩ := hplain name List.mem_cons_self
    have hnext : ∀ front, front <+: rest → ∀ target, fs.node? (front.reverse ++ name :: loc) ≠ some (.link target) := by
      intro front hfront
      have := hlinks (name :: front) (List.cons_prefix_cons.mpr ⟨rfl, hfront⟩)
      simpa using this
    obtain ⟨-, hstep⟩ := walkNames_cons_eq_ok.mp h
    cases hstep with
    | here hname => exact absurd hname hdot
    | up hname => exact absurd hname hup
    | follows _ hnode => exact absurd hnode (hnext [] List.nil_prefix _)
    | stops _ hrest hfound => simp [hrest, hfound]
    | enters _ _ _ hrest =>
      rw [ih (fun other ho => hplain other (List.mem_cons_of_mem _ ho)) hnext hrest]
      simp

end ModGraph.FileSystem
