import Mathlib.Data.Set.Basic
import ModGraph.Proofs.FilePlaces
import ModGraph.Proofs.StoredForms
import ModGraph.Proofs.StoredNames

/-!
# What a code cache holds

All files of a code cache are in one directory, under names made of digests. As long as every one of them
holds the start of what was stored for a source with that digest (`Held`), a look-up gives the program of
its source or none (`scan_of_hit`), whatever was deleted or cut off. Looking up and storing keep it so
(`Held.afterLookup`, `Held.store`), and so does anybody who deletes files and cuts them off
(`Held.disturbed`).
-/

namespace ModGraph

open FileSystem (Fault)
open Source (Program)

/-- The text of the first bytes of a text is the start of it. -/
theorem isPrefix_of_fromUTF8 {content rest : ByteArray} {text whole : String}
    (htext : String.fromUTF8? content = some text) (hcontent : content ++ rest = whole.toUTF8) :
    text.toList <+: whole.toList := by
  unfold String.fromUTF8? at htext
  split at htext
  · next hvalid =>
    cases htext
    refine List.isPrefix_of_utf8Encode_append_eq_utf8Encode rest ?_
    rw [← String.toByteArray_ofList, ← String.toByteArray_ofList, String.ofList_toList, String.ofList_toList]
    exact hcontent
  · cases htext

/-! ## Names of blobs -/

theorem Digest.length_ofText (text : String) : (Digest.ofText text).toList.length = 64 := by
  have hbyte : ∀ b, (Text.hexByte b).length = 2 := fun _ => rfl
  have hword : ∀ n, (Digest.bigEndian 4 n).length = 4 := fun _ => rfl
  simp [Digest.ofText, Digest.sha256, Digest.State.words, hbyte, hword]

namespace CodeCache

variable {cache : CodeCache} {fs fs' : FileSystem} {home : Location} {path : Path} {source : String}

theorem length_short (text : String) : (short (Digest.ofText text)).toList.length = digestDigits := by
  simp [short, Digest.length_ofText, digestDigits]

theorem isStep_blobName (path : Path) (source : String) : (Path.Component.name (blobName path source)).IsStep := by
  have hslash : '/' ∉ (blobName path source).toList := fun h =>
    forall_mem_blobName (P := (· ≠ '/')) (by decide) (by simp) path source _ h rfl
  have hne : ∀ text : String, text.toList.length ≤ 2 → blobName path source ≠ text := by
    rintro text hlength rfl
    simp [toList_blobName, length_short, digestDigits] at hlength
  exact Path.isStep_name.mpr ⟨hslash, hne "" (by decide), hne "." (by decide), hne ".." (by decide)⟩

/-- A name tells the digest of its source. -/
theorem short_eq_of_blobName {path' : Path} {source' : String} (h : blobName path source = blobName path' source') :
    short (Digest.ofText source) = short (Digest.ofText source') := by
  have hlist := congrArg String.toList h
  rw [toList_blobName, toList_blobName] at hlist
  obtain ⟨-, hrest⟩ := List.append_inj hlist (by rw [length_short, length_short])
  obtain ⟨hshort, -⟩ := List.append_inj (List.cons.inj hrest).2 (by rw [length_short, length_short])
  exact String.toList_inj.mp hshort

/-! ## The directory -/

/-- Where the directory of a cache is. -/
def place (cache : CodeCache) (fs : FileSystem) : Except Fault Location :=
  fs.walk true FileSystem.maxLinks (FileSystem.start fs.workingDirectory cache.dir.text)
    (FileSystem.names cache.dir.text)

/-- The directory is at this place if it is anywhere, also when more directories are made. -/
def At (cache : CodeCache) (home : Location) (fs : FileSystem) : Prop :=
  ∀ fs', FileSystem.Grows fs fs' → ∀ loc, cache.place fs' = .ok loc → loc = home

theorem place_of_keeps (h : fs.Keeps fs') (hplace : cache.place fs = .ok home) : cache.place fs' = .ok home := by
  unfold place at hplace ⊢
  rw [h.working]
  exact h.walk hplace

theorem at_of_place (h : cache.place fs = .ok home) : cache.At home fs := by
  intro fs' hgrows loc hloc
  rw [place_of_keeps hgrows.keeps h] at hloc
  exact (Except.ok.inj hloc).symm

theorem At.grows (h : cache.At home fs) (hgrows : FileSystem.Grows fs fs') : cache.At home fs' :=
  fun fs'' hmore => h fs'' (hgrows.trans hmore)

/-- A path without links leads to the place that it spells. -/
theorem at_of_plain (hplain : ∀ name ∈ FileSystem.names cache.dir.text, name ≠ "." ∧ name ≠ "..")
    (hlinks : ∀ front, front <+: FileSystem.names cache.dir.text → ∀ target,
      fs.node? (front.reverse ++ FileSystem.start fs.workingDirectory cache.dir.text) ≠ some (.link target)) :
    cache.At ((FileSystem.names cache.dir.text).reverse ++ FileSystem.start fs.workingDirectory cache.dir.text) fs := by
  intro fs' hgrows loc hloc
  unfold place at hloc
  rw [hgrows.keeps.working] at hloc
  refine FileSystem.walkNames_eq_ok_of_plain hplain (fun front hfront target hnode => ?_) hloc
  exact hlinks front hfront target ((hgrows.keeps.link _ _).mp hnode)

/-! ## Blobs -/

/-- What there can be at a blob's place: the start of what is stored for a source with the same digest. -/
inductive Holds (texts : Set String) (source : String) : Node → Prop where
  | directory : Holds texts source .directory
  | file {content rest : ByteArray} {other : String} {p : Program} (hother : other ∈ texts)
      (hdigest : short (Digest.ofText other) = short (Digest.ofText source)) (hscan : Program.scan other = .ok p)
      (hcontent : content ++ rest = p.store.toUTF8) : Holds texts source (.file content)

/-- Every blob holds the start of what was stored for some of the sources. -/
structure Held (cache : CodeCache) (home : Location) (texts : Set String) (fs : FileSystem) : Prop where
  rooted : fs.Rooted
  place : cache.At home fs
  blobs : ∀ path source node, fs.node? (blobName path source :: home) = some node → Holds texts source node

/-- No blob is there: the directory holds none, or it is missing, or no directory can be there. -/
structure Vacant (cache : CodeCache) (home : Location) (fs : FileSystem) : Prop where
  rooted : fs.Rooted
  place : cache.At home fs
  blobs : ∀ path source, fs.node? (blobName path source :: home) = none

/-- Somebody changes the file system, but does nothing to blobs except to delete them or to cut them off. -/
structure Disturbed (cache : CodeCache) (home : Location) (fs fs' : FileSystem) : Prop where
  rooted : fs'.Rooted
  place : cache.At home fs'
  blobs : ∀ path source node, fs'.node? (blobName path source :: home) = some node →
    fs.node? (blobName path source :: home) = some node ∨
      ∃ content rest, node = .file content ∧
        fs.node? (blobName path source :: home) = some (.file (content ++ rest))

/-- Sources that the digests tell apart, and whose numbers can be stored. -/
structure Storable (texts : Set String) : Prop where
  distinct : ∀ a ∈ texts, ∀ b ∈ texts, short (Digest.ofText a) = short (Digest.ofText b) → a = b
  numbers : ∀ a ∈ texts, ∀ p, Program.scan a = .ok p → ∀ n ∈ p.numbers, n.Fits

variable {texts : Set String}

theorem Vacant.held (h : cache.Vacant home fs) (texts : Set String) : cache.Held home texts fs where
  rooted := h.rooted
  place := h.place
  blobs path source node hnode := by
    rw [h.blobs path source] at hnode
    cases hnode

namespace Disturbed

variable {name : String} {above : Location} {old : ByteArray}

/-- A file is written anew; if it is a blob, it is cut off. -/
theorem write {new : ByteArray} (hr : fs.Rooted) (hplace : cache.place fs = .ok home)
    (hold : fs.node? (name :: above) = some (.file old)) (hnew : above = home → ∃ rest, new ++ rest = old) :
    cache.Disturbed home fs (fs.put (name :: above) (.file new)) := by
  have hdir : fs.isDirectoryAt (name :: above) = false := by simp [FileSystem.isDirectoryAt, hold]
  refine ⟨hr.put (hr name above (by simp [hold])) (.inr hdir),
    at_of_place (place_of_keeps (.put (by simp [hold]) (by simp) (.inr hdir)) hplace),
    fun path source node hnode => ?_⟩
  rw [FileSystem.node?_put (by simp)] at hnode
  split at hnode
  · next heq =>
    cases hnode
    obtain ⟨rfl, rfl⟩ := List.cons.inj heq
    obtain ⟨rest, rfl⟩ := hnew rfl
    exact .inr ⟨new, rest, rfl, hold⟩
  · exact .inl hnode

/-- A file is deleted. -/
theorem delete (hr : fs.Rooted) (hplace : cache.place fs = .ok home)
    (hold : fs.node? (name :: above) = some (.file old)) :
    cache.Disturbed home fs (fs.removeTree (name :: above)) := by
  have hdir : fs.isDirectoryAt (name :: above) = false := by simp [FileSystem.isDirectoryAt, hold]
  refine ⟨hr.removeTree _, at_of_place (place_of_keeps (.removeTree hr hold) hplace), fun path source node hnode => ?_⟩
  rw [hr.node?_removeTree_file hdir] at hnode
  split at hnode
  · cases hnode
  · exact .inl hnode

end Disturbed

theorem lookup_eq_hit {found : Lookup} {p : Program} (h : found.program? = some p) : found = .hit p := by
  cases found with
  | hit q =>
    cases h
    rfl
  | _ => cases h

namespace Held

variable (h : cache.Held home texts fs)
include h

/-- The path of a blob leads to its place. -/
theorem locate {follow : Bool} {loc : Location}
    (hloc : fs.locate follow (cache.blob path (Digest.ofText source)) = .ok loc) :
    loc = blobName path source :: home ∧ fs.isDirectoryAt home = true ∧ cache.place fs = .ok home := by
  rw [blob_eq] at hloc
  obtain ⟨above, hplace, hdir, hlast⟩ := FileSystem.locate_join (isStep_blobName path source) hloc
  obtain rfl := h.place fs .refl above hplace
  obtain rfl | ⟨target, hlink⟩ := hlast
  · exact ⟨rfl, hdir, hplace⟩
  · cases h.blobs _ _ _ hlink

theorem disturbed (hd : cache.Disturbed home fs fs') : cache.Held home texts fs' where
  rooted := hd.rooted
  place := hd.place
  blobs path source node hnode := by
    obtain hsame | ⟨content, rest, rfl, hfile⟩ := hd.blobs path source node hnode
    · exact h.blobs path source node hsame
    · cases h.blobs path source _ hfile with
      | file hother hdigest hscan hcontent =>
        exact .file hother hdigest hscan (by rw [← ByteArray.append_assoc, hcontent])

theorem grows (hg : FileSystem.Grows fs fs') : cache.Held home texts fs' where
  rooted := hg.rooted h.rooted
  place := h.place.grows hg
  blobs path source node hnode := by
    obtain hsame | hnew := hg.node (blobName path source :: home)
    · exact h.blobs path source node (hsame ▸ hnode)
    · rw [hnew] at hnode
      cases hnode
      exact .directory

/-- A blob is written. -/
theorem put {p : Program} (hplace : cache.place fs = .ok home) (hdir : fs.isDirectoryAt home = true)
    (hfree : fs.isDirectoryAt (blobName path source :: home) = false) (hs : source ∈ texts)
    (hscan : Program.scan source = .ok p) :
    cache.Held home texts (fs.put (blobName path source :: home) (.file p.store.toUTF8)) := by
  have hnolink : ∀ target, fs.node? (blobName path source :: home) ≠ some (.link target) := fun target hlink => by
    cases h.blobs path source _ hlink
  refine ⟨h.rooted.put hdir (.inr hfree), at_of_place (place_of_keeps (.put hnolink (by simp) (.inr hfree)) hplace),
    fun path' source' node hnode => ?_⟩
  rw [FileSystem.node?_put (by simp)] at hnode
  split at hnode
  · next heq =>
    cases hnode
    have hname : blobName path source = blobName path' source' := (List.cons.inj heq).1
    exact .file hs (short_eq_of_blobName hname) hscan ByteArray.append_empty
  · exact h.blobs path' source' node hnode

/-- A blob is removed. -/
theorem removeTree {content : ByteArray} (hplace : cache.place fs = .ok home)
    (hfile : fs.node? (blobName path source :: home) = some (.file content)) :
    cache.Held home texts (fs.removeTree (blobName path source :: home)) := by
  have hdir : fs.isDirectoryAt (blobName path source :: home) = false := by simp [FileSystem.isDirectoryAt, hfile]
  refine ⟨h.rooted.removeTree _, at_of_place (place_of_keeps (.removeTree h.rooted hfile) hplace),
    fun path' source' node hnode => ?_⟩
  rw [h.rooted.node?_removeTree_file hdir] at hnode
  split at hnode
  · cases hnode
  · exact h.blobs path' source' node hnode

/-! ### Looking up and storing -/

/-- What is found is the program of the source. -/
theorem scan_of_hit {p : Program} (ht : Storable texts) (hs : source ∈ texts)
    (hit : cache.lookup fs path (Digest.ofText source) = .hit p) : Program.scan source = .ok p := by
  unfold lookup at hit
  dsimp only at hit
  split at hit
  · cases hit
  next text hread =>
  split at hit
  · next hrestore =>
    cases hit
    obtain ⟨loc, content, hfind, htext⟩ := FileSystem.readText_eq_ok hread
    obtain ⟨hloc, hnode⟩ := FileSystem.find_iff_locate.mp hfind
    obtain ⟨rfl, -, -⟩ := h.locate hloc
    cases h.blobs path source _ hnode with
    | @file _ rest other stored hother hdigest hscan hcontent =>
      obtain rfl := ht.distinct other hother source hs hdigest
      have hcut := isPrefix_of_fromUTF8 htext hcontent
      rw [Program.eq_of_restore (Program.ordered_of_scan hscan) (ht.numbers other hs stored hscan) hcut hrestore]
      exact hscan
  · cases hit

theorem afterLookup (path : Path) (source : String) :
    cache.Held home texts (CodeCache.afterLookup fs (cache.lookup fs path (Digest.ofText source))) := by
  obtain heq | hremove := cache.afterLookup_cases fs path (Digest.ofText source)
  · rw [heq]
    exact h
  · obtain ⟨loc, node, hloc, hnode, hdir, heq⟩ := FileSystem.removeFile_eq_ok hremove
    obtain ⟨rfl, -, hplace⟩ := h.locate hloc
    rw [heq]
    cases h.blobs path source node hnode with
    | directory => exact absurd rfl hdir
    | file => exact h.removeTree hplace hnode

theorem store {p : Program} (hs : source ∈ texts) (hscan : Program.scan source = .ok p) (path : Path) :
    cache.Held home texts (cache.store fs path (Digest.ofText source) p).1 := by
  have hmade := h.grows (FileSystem.grows_ensureDirectories fs cache.dir.ancestors)
  obtain heq | hwrite := cache.store_cases fs path (Digest.ofText source) p
  · rw [heq]
    exact hmade
  · obtain ⟨loc, hloc, hfree, heq⟩ := FileSystem.writeBytes_eq_ok hwrite
    obtain ⟨rfl, hdir, hplace⟩ := hmade.locate hloc
    rw [heq]
    exact hmade.put hplace hdir hfree hs hscan

end Held
end CodeCache
end ModGraph
