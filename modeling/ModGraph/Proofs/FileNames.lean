import Mathlib.Data.List.TakeWhile
import ModGraph.CodeCache
import ModGraph.Proofs.FileOperations
import ModGraph.Resolver

/-!
# The names that resolved paths are made of

A look-up that succeeds has found every name of the path that it started with (`knows_of_find`), so the
path of a file holds no characters but slashes, points and those of names in the file system. Where no
name holds a query mark, no resolved path does (`unmarked_of_resolve`), and a cache key can be cut into
the path and the query that it was made from (`splitQuery_cacheKey`).
-/

namespace ModGraph

/-- No character of a text starts a query. -/
def Unmarked (text : String) : Prop := ∀ c ∈ text.toList, isQueryMark c = false

/-- No name of an entry holds a query mark. -/
def FileSystem.Unmarked (fs : FileSystem) : Prop :=
  ∀ loc ∈ fs.nodes.keys, ∀ name ∈ loc, ModGraph.Unmarked name

-- by the characters of the text, not by all the characters there are
instance (text : String) : Decidable (Unmarked text) := List.decidableBAll _ text.toList

instance (fs : FileSystem) : Decidable fs.Unmarked := inferInstanceAs (Decidable (∀ loc ∈ _, ∀ name ∈ loc, _))

/-! ## Characters of joined and split texts -/

namespace Text

theorem mem_join {sep c : Char} {pieces : List (List Char)} (h : c ∈ join sep pieces) :
    c = sep ∨ ∃ piece ∈ pieces, c ∈ piece := by
  induction pieces with
  | nil => simp [join] at h
  | cons piece rest ih =>
    cases rest with
    | nil => exact .inr ⟨piece, List.mem_cons_self, h⟩
    | cons piece' rest =>
      simp only [join, List.mem_append, List.mem_cons] at h
      rcases h with h | h | h
      · exact .inr ⟨piece, List.mem_cons_self, h⟩
      · exact .inl h
      · rcases ih h with h | ⟨q, hq, hc⟩
        · exact .inl h
        · exact .inr ⟨q, List.mem_cons_of_mem _ hq, hc⟩

theorem mem_of_mem_split {sep c : Char} {cs piece : List Char} (hp : piece ∈ split sep cs)
    (hc : c ∈ piece) : c ∈ cs := by
  induction cs generalizing piece with
  | nil => simp_all [split]
  | cons d cs ih =>
    by_cases hd : d = sep
    · simp only [split, hd, if_true, List.mem_cons] at hp
      rcases hp with rfl | hp
      · simp at hc
      · exact List.mem_cons_of_mem _ (ih hp hc)
    · cases hl : split sep cs with
      | nil => exact absurd hl (split_ne_nil sep cs)
      | cons l ls =>
        rw [hl] at ih
        simp only [split, hd, if_false, hl, List.mem_cons] at hp
        rcases hp with rfl | hp
        · rcases List.mem_cons.mp hc with rfl | hc
          · exact List.mem_cons_self
          · exact List.mem_cons_of_mem _ (ih List.mem_cons_self hc)
        · exact List.mem_cons_of_mem _ (ih (List.mem_cons_of_mem _ hp) hc)

end Text

/-! ## Names that a look-up goes through -/

namespace FileSystem

variable {fs : FileSystem}

/-- A name in a path that a look-up can go through. -/
def Knows (fs : FileSystem) (name : String) : Prop :=
  name = "." ∨ name = ".." ∨ ∃ above, (fs.node? (name :: above)).isSome

theorem knows_of_walkNames {follow : Bool} {found : Location}
    {jump : Location → String → List String → Except Fault Location}
    (hjump : ∀ loc target rest, jump loc target rest = .ok found → ∀ name ∈ rest, fs.Knows name)
    (hfound : (fs.node? found).isSome) {names : List String} {loc : Location}
    (h : fs.walkNames follow jump loc names = .ok found) : ∀ name ∈ names, fs.Knows name := by
  induction names generalizing loc with
  | nil => simp
  | cons first rest ih =>
    have hcons : fs.Knows first → (∀ name ∈ rest, fs.Knows name) →
        ∀ name ∈ first :: rest, fs.Knows name := by
      intro hfirst hrest name hname
      rcases List.mem_cons.mp hname with rfl | hname
      · exact hfirst
      · exact hrest name hname
    unfold walkNames at h
    split at h
    · cases h
    split at h
    · next hdot => exact hcons (.inl hdot) (ih h)
    split at h
    · next hup => exact hcons (.inr (.inl hup)) (ih h)
    split at h
    · cases h
    split at h
    · next target hnode =>
      have hfirst : fs.Knows first := .inr (.inr ⟨loc, by rw [hnode]; rfl⟩)
      split at h
      · next hend =>
        obtain rfl : rest = [] := by simp_all
        exact hcons hfirst fun name hname => absurd hname List.not_mem_nil
      · exact hcons hfirst (hjump _ _ _ h)
    · next node _ hnode =>
      exact hcons (.inr (.inr ⟨loc, by simp [hnode]⟩)) (ih h)
    · next hnode =>
      split at h
      · cases h
        simp [hnode] at hfound
      · cases h

theorem knows_of_walk {follow : Bool} {links : Nat} {loc found : Location} {names : List String}
    (h : fs.walk follow links loc names = .ok found) (hfound : (fs.node? found).isSome) :
    ∀ name ∈ names, fs.Knows name := by
  induction links generalizing loc names with
  | zero => exact knows_of_walkNames (fun _ _ _ h => by cases h) hfound h
  | succ links ih =>
    refine knows_of_walkNames (fun loc target rest hj name hname => ?_) hfound h
    exact ih hj name (List.mem_append_right _ hname)

/-- The path of what is found is short enough, and all its names are known. -/
theorem knows_of_find {p : Path} {found : Location × Node} (h : fs.find p = .ok found) :
    fs.node? found.1 = some found.2 ∧ p.text.utf8ByteSize ≤ maxPathBytes ∧
      ∀ name ∈ names p.text, fs.Knows name := by
  obtain ⟨hloc, hnode⟩ := find_iff_locate.mp h
  obtain ⟨htext, hwalk⟩ := locate_eq_ok_iff.mp hloc
  refine ⟨hnode, (checkedText_eq htext).2, fun name hname => knows_of_walk hwalk (by simp [hnode]) name ?_⟩
  unfold steps
  split
  · exact List.mem_append_left _ hname
  · exact hname

theorem mem_names {text : String} {c : Char} (hc : c ∈ text.toList) :
    c = '/' ∨ ∃ name ∈ names text, c ∈ name.toList := by
  rw [← Text.join_split '/' text.toList] at hc
  rcases Text.mem_join hc with h | ⟨piece, hp, h⟩
  · exact .inl h
  · refine .inr ⟨String.ofList piece, ?_, by simpa using h⟩
    refine List.mem_map.mpr ⟨piece, List.mem_filter.mpr ⟨hp, ?_⟩, rfl⟩
    cases piece with
    | nil => simp at h
    | cons c piece => rfl

/-! ## Query marks -/

theorem unmarked_of_node {loc : Location} (h : fs.Unmarked) (hn : (fs.node? loc).isSome) :
    ∀ name ∈ loc, ModGraph.Unmarked name := by
  cases loc with
  | nil => simp
  | cons name above => exact h _ ((Table.mem_keys_iff _ _).mpr hn)

theorem unmarked_of_knows {name : String} (h : fs.Unmarked) (hk : fs.Knows name) :
    ModGraph.Unmarked name := by
  rcases hk with rfl | rfl | ⟨above, hn⟩
  · simp [ModGraph.Unmarked, isQueryMark]
  · simp [ModGraph.Unmarked, isQueryMark]
  · exact unmarked_of_node h hn _ List.mem_cons_self

theorem unmarked_of_find {p : Path} {found : Location × Node} (h : fs.Unmarked)
    (hf : fs.find p = .ok found) : ModGraph.Unmarked p.text := by
  intro c hc
  rcases mem_names hc with rfl | ⟨name, hname, hc⟩
  · rfl
  · exact unmarked_of_knows h ((knows_of_find hf).2.2 name hname) c hc

end FileSystem

namespace Path

theorem mem_ofComponents {cs : List Component} {c : Char} (h : c ∈ (ofComponents cs).text.toList) :
    c = '/' ∨ ∃ comp ∈ cs, c ∈ comp.chars := by
  have hmap : ∀ cs : List Component, c ∈ Text.join '/' (cs.map Component.chars) →
      c = '/' ∨ ∃ comp ∈ cs, c ∈ comp.chars := by
    intro cs h
    rcases Text.mem_join h with h | ⟨piece, hp, hc⟩
    · exact .inl h
    · obtain ⟨comp, hcomp, rfl⟩ := List.mem_map.mp hp
      exact .inr ⟨comp, hcomp, hc⟩
  unfold ofComponents at h
  split at h
  · next rest =>
    simp only [String.toList_ofList, List.mem_cons] at h
    rcases h with h | h
    · exact .inl h
    · rcases hmap rest h with h | ⟨comp, hcomp, hc⟩
      · exact .inl h
      · exact .inr ⟨comp, List.mem_cons_of_mem _ hcomp, hc⟩
  · exact hmap _ (by simpa using h)

theorem mem_of_mem_components {p : Path} {comp : Component} {c : Char} (h : comp ∈ p.components)
    (hc : c ∈ comp.chars) : c = '/' ∨ c = '.' ∨ c ∈ p.text.toList := by
  rcases List.mem_append.mp h with h | h
  · unfold lead at h
    generalize (cutLead p.text.toList).1 = start at h
    cases start <;> simp only [Lead.component?, Option.toList_some, Option.toList_none, List.mem_singleton,
      List.not_mem_nil] at h
    · subst h; exact .inl (by simpa [Component.chars] using hc)
    · subst h; exact .inr (.inl (by simpa [Component.chars] using hc))
  · obtain ⟨piece, hp, hcomp⟩ := List.mem_filterMap.mp h
    have htext : ∀ c ∈ piece, c ∈ p.text.toList := by
      intro c hc
      rw [← chars_cutLead p.text.toList]
      exact List.mem_append_right _ (Text.mem_of_mem_split hp hc)
    unfold pieceComponent at hcomp
    repeat' split at hcomp
    · cases hcomp
    · cases hcomp
      exact .inr (.inl (by simpa [Component.chars] using hc))
    · cases hcomp
      exact .inr (.inr (htext c (by simpa [Component.chars] using hc)))

theorem mem_normalStep {kept : List Component} {c comp : Component} (h : comp ∈ normalStep kept c) :
    comp = .up ∨ comp ∈ kept ∨ comp = c := by
  cases c with
  | here => exact .inr (.inl h)
  | up =>
    rcases kept with - | ⟨first, - | ⟨second, rest⟩⟩
    · exact .inl (by simpa [normalStep] using h)
    · cases first <;> simp_all [normalStep, or_comm]
    · exact .inr (.inl (List.mem_cons_of_mem _ (by simpa [normalStep] using h)))
  | root => exact .inr ((List.mem_cons.mp h).symm)
  | name n => exact .inr ((List.mem_cons.mp h).symm)

theorem mem_foldl_normalStep {cs kept : List Component} {comp : Component}
    (h : comp ∈ cs.foldl normalStep kept) : comp = .up ∨ comp ∈ kept ∨ comp ∈ cs := by
  induction cs generalizing kept with
  | nil => exact .inr (.inl h)
  | cons first rest ih =>
    rcases ih h with h | h | h
    · exact .inl h
    · rcases mem_normalStep h with h | h | h
      · exact .inl h
      · exact .inr (.inl h)
      · exact .inr (.inr (h ▸ List.mem_cons_self))
    · exact .inr (.inr (List.mem_cons_of_mem _ h))

theorem unmarked_normalize {p : Path} (h : Unmarked p.text) : Unmarked p.normalize.text := by
  intro c hc
  rcases mem_ofComponents hc with rfl | ⟨comp, hcomp, hc⟩
  · rfl
  · rcases mem_foldl_normalStep (List.mem_reverse.mp hcomp) with rfl | hcomp | hcomp
    · have : c = '.' := by simpa [Component.chars] using hc
      exact this ▸ rfl
    · cases hcomp
    · rcases mem_of_mem_components hcomp hc with rfl | rfl | hc
      · rfl
      · rfl
      · exact h c hc

end Path

/-! ## Resolved paths -/

theorem unmarked_location {fs : FileSystem} {loc : Location} (h : fs.Unmarked)
    (hn : (fs.node? loc).isSome) : Unmarked loc.path.text := by
  intro c hc
  rcases Path.mem_ofComponents hc with rfl | ⟨comp, hcomp, hc⟩
  · rfl
  · rcases List.mem_cons.mp hcomp with rfl | hcomp
    · have : c = '/' := by simpa [Path.Component.chars] using hc
      exact this ▸ rfl
    · obtain ⟨name, hname, rfl⟩ := List.mem_map.mp hcomp
      exact FileSystem.unmarked_of_node h hn name (List.mem_reverse.mp hname) c hc

theorem unmarked_realize {fs : FileSystem} {p : Path} (preserve : Bool) (h : fs.Unmarked)
    (hf : fs.isFile p = true) : Unmarked (realize fs p preserve).text := by
  obtain ⟨loc, content, hfind⟩ := FileSystem.find_of_isFile hf
  have hp := FileSystem.unmarked_of_find h hfind
  unfold realize
  split
  · exact Path.unmarked_normalize hp
  · split
    · next real hreal =>
      rw [FileSystem.realPath, hfind] at hreal
      cases hreal
      exact unmarked_location h (by simp [(FileSystem.knows_of_find hfind).1])
    · exact Path.unmarked_normalize hp

namespace Resolver

theorem isFile_of_firstFile {fs : FileSystem} {candidates : List Path} {p : Path}
    (h : firstFile? fs candidates = some p) : fs.isFile p = true := List.find?_some h

theorem isFile_of_resolveFile {fs : FileSystem} {extensions : List String} {path p : Path}
    (h : resolveFile fs extensions path = some p) : fs.isFile p = true := by
  have hdir : ∀ {o o' : Option Path}, o.or o' = some p → o = some p ∨ o' = some p := by
    intro o o' h
    cases o with
    | none => exact .inr h
    | some q => exact .inl h
  rcases hdir h with h | h
  · exact isFile_of_firstFile h
  · split at h
    · rcases hdir h with h | h
      · dsimp only at h
        split at h
        · cases h
        · exact isFile_of_firstFile h
      · exact isFile_of_firstFile h
    · cases h

/-- What a resolved path is the canonical form of: a path that names a file. -/
theorem realize_of_resolve {r : Resolver} {fs : FileSystem} {q : Query} {f : Path}
    (h : r.resolve fs q = .ok (.file f)) :
    ∃ p, fs.isFile p = true ∧ f = realize fs p (r.preserves q) := by
  unfold resolve at h
  split at h
  · cases h
  · split at h
    · next p hp =>
      cases h
      obtain ⟨start, _, hstart⟩ := List.exists_of_findSome?_eq_some hp
      exact ⟨p, isFile_of_resolveFile hstart, rfl⟩
    · cases h

theorem unmarked_of_resolve {r : Resolver} {fs : FileSystem} {q : Query} {f : Path}
    (h : r.resolve fs q = .ok (.file f)) (hfs : fs.Unmarked) : Unmarked f.text := by
  obtain ⟨p, hp, rfl⟩ := realize_of_resolve h
  exact unmarked_realize _ hfs hp

end Resolver

/-! ## Keys -/

/-- What stands behind a path in a key: nothing, or a text that starts with a query mark. -/
def IsQuery (query : Option String) : Prop :=
  ∀ text ∈ query, ∃ c rest, text = String.ofList (c :: rest) ∧ isQueryMark c = true

theorem isQuery_splitQuery (request : String) : IsQuery (splitQuery request).2 := by
  intro text h
  unfold splitQuery at h
  dsimp only at h
  split at h
  · cases h
  · next query hq =>
    cases h
    cases hd : request.toList.dropWhile (!isQueryMark ·) with
    | nil => exact absurd hd hq
    | cons c rest =>
      refine ⟨c, rest, by rw [← hd], ?_⟩
      have := List.head?_dropWhile_not (!isQueryMark ·) request.toList
      rw [hd] at this
      simpa using this

theorem dropWhile_of_unmarked {text : String} (h : Unmarked text) :
    text.toList.dropWhile (!isQueryMark ·) = [] := by
  rw [List.dropWhile_eq_nil_iff]
  intro c hc
  simp [h c hc]

/-- A key is cut where it was joined. -/
theorem splitQuery_cacheKey {path : Path} {query : Option String} (hp : Unmarked path.text)
    (hq : IsQuery query) : splitQuery (cacheKey path query) = (path.text, query) := by
  have hdrop := dropWhile_of_unmarked hp
  have htake : ∀ rest, (path.text.toList ++ rest).takeWhile (!isQueryMark ·)
      = path.text.toList ++ rest.takeWhile (!isQueryMark ·) := fun rest =>
    List.takeWhile_append_of_pos (fun c hc => by simp [hp c hc])
  cases query with
  | none => simp [splitQuery, cacheKey, hdrop]
  | some text =>
    obtain ⟨c, rest, rfl, hc⟩ := hq text rfl
    simp [splitQuery, cacheKey, hdrop, htake, hc, List.dropWhile_append]

theorem splitQuery_of_unmarked {text : String} (h : Unmarked text) : splitQuery text = (text, none) := by
  have hkey : splitQuery (cacheKey ⟨text⟩ none) = (text, none) := splitQuery_cacheKey h nofun
  simpa [cacheKey] using hkey

end ModGraph
