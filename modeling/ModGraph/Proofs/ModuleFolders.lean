import ModGraph.Proofs.FilePlaces
import ModGraph.Proofs.Parents

/-!
# Module folders on the way up

The module folders of a directory stand beside it and beside all directories above it that are no module folders
themselves: the nearest comes first, and none comes twice. The folders of a directory above are the last ones of them
(`moduleFolders_walk`).

All of this depends on the components of the directory alone. Joining a name puts it behind the components of a path,
however that is spelled (`components_join`), and the directories above a path have the first ones of its components
(`above_iff`).
-/

namespace ModGraph.Path

/-! ## Names behind a path -/

theorem cutLead_append {cs : List Char} (h : cs ≠ []) (rest : List Char) :
    cutLead (cs ++ '/' :: rest) = ((cutLead cs).1, (cutLead cs).2 ++ '/' :: rest) := by
  obtain ⟨c, cs, rfl⟩ := List.exists_cons_of_ne_nil h
  by_cases hroot : c = '/'
  · subst hroot
    rfl
  by_cases hpoint : c = '.'
  · subst hpoint
    cases cs with
    | nil => rfl
    | cons d cs =>
      by_cases hd : d = '/'
      · subst hd
        rfl
      · simp [cutLead, hd]
  · simp [cutLead, hroot, hpoint]

/-- What stands behind a slash is read on its own. -/
theorem components_append {cs : List Char} (h : cs ≠ []) (rest : List Char) :
    (⟨String.ofList (cs ++ '/' :: rest)⟩ : Path).components =
      (⟨String.ofList cs⟩ : Path).components ++ (Text.split '/' rest).filterMap pieceComponent := by
  unfold components lead pieces
  simp only [String.toList_ofList, cutLead_append h]
  rw [Text.split_append, List.filterMap_append, List.append_assoc]

theorem components_root (rest : List Char) : (⟨String.ofList ('/' :: rest)⟩ : Path).components =
    .root :: (Text.split '/' rest).filterMap pieceComponent := by
  simp [components, lead, pieces, cutLead, Lead.component?]

/-- An entry of a directory has one component more, its name. -/
theorem components_join (dir : Path) {name : String} (hname : (Component.name name).IsStep) :
    (dir.join ⟨name⟩).components = dir.components ++ [.name name] := by
  have hpieces : (Text.split '/' name.toList).filterMap pieceComponent = [.name name] := by
    rw [Text.split_of_not_mem (isStep_name.mp hname).1]
    exact List.filterMap_cons_some hname.2
  obtain ⟨hdir, htext⟩ | ⟨cs, htext, ⟨hne, hdir⟩ | hdir⟩ := FileSystem.text_join dir hname
  · obtain rfl : dir = ⟨""⟩ := congrArg mk hdir
    have hname' : join ⟨""⟩ ⟨name⟩ = ofComponents [.name name] :=
      congrArg mk (htext.trans (@String.ofList_toList name).symm)
    rw [hname', components_ofComponents (.relative (by simpa using hname))]
    rfl
  · have hjoin : dir.join ⟨name⟩ = ⟨String.ofList (cs ++ '/' :: name.toList)⟩ := congrArg mk htext
    have hspelled : dir = ⟨String.ofList cs⟩ := congrArg mk hdir
    rw [hjoin, hspelled, components_append hne, hpieces]
  · have hjoin : dir.join ⟨name⟩ = ⟨String.ofList (cs ++ '/' :: name.toList)⟩ := congrArg mk htext
    have hspelled : dir = ⟨String.ofList (cs ++ ['/'])⟩ := congrArg mk hdir
    have hnone : (Text.split '/' []).filterMap pieceComponent = [] := rfl
    rw [hjoin, hspelled]
    cases cs with
    | nil =>
      rw [List.nil_append, List.nil_append, components_root, components_root, hpieces, hnone]
      rfl
    | cons c cs => rw [components_append (by simp), components_append (by simp), hpieces, hnone, List.append_nil]

/-- The name of a path is its last component, if that is a name. -/
theorem fileName_eq_some_iff {p : Path} {name : String} :
    p.fileName = some name ↔ p.components.getLast? = some (.name name) := by
  have hcomponents : p.components = p.lead.component?.toList ++ (p.backPieces.filterMap pieceComponent).reverse := by
    rw [← filterMap_backPieces]
    rfl
  rw [hcomponents, fileName]
  split
  · next hback =>
    rw [hback]
    cases p.lead <;> simp [Lead.component?]
  · next piece above hback =>
    have hnoise := isNoise_of_head_dropWhile hback
    rw [hback]
    by_cases hup : piece = ['.', '.']
    · subst hup
      rw [@List.filterMap_cons_some _ _ pieceComponent _ _ .up rfl]
      simp
    · have hc : pieceComponent piece = some (.name (String.ofList piece)) := by simp [pieceComponent, hnoise, hup]
      rw [List.filterMap_cons_some hc]
      simp [hup]

/-! ## Directories above a path -/

/-- A path is another one or lies above it, however the two are spelled. -/
def Above (a p : Path) : Prop := a.components <+: p.components ∧ a.isAbsolute = p.isAbsolute

theorem above_of_mem_ancestors {a p : Path} (h : a ∈ p.ancestors) : a.Above p := by
  refine ⟨?_, isAbsolute_ancestors h⟩
  induction p using induction_parent with
  | h p ih =>
    rw [ancestors_eq] at h
    obtain rfl | h := List.mem_cons.mp h
    · exact List.prefix_rfl
    cases hp : p.parent with
    | none => simp [hp] at h
    | some q =>
      rw [hp] at h
      exact (ih q hp h).trans ((components_parent hp).1 ▸ List.dropLast_prefix _)

/-- What lies above a path is one of its ancestors, maybe in another spelling. -/
theorem above_iff {a p : Path} : a.Above p ↔ ∃ b ∈ p.ancestors, b.components = a.components := by
  constructor
  · intro h
    induction p using induction_parent with
    | h p ih =>
      obtain ⟨hinit, habsolute⟩ := h
      rw [ancestors_eq]
      by_cases heq : a.components = p.components
      · exact ⟨p, List.mem_cons_self, heq.symm⟩
      -- the path has a last component, and what lies above the path lies above its parent
      have hne : p.components ≠ [] := by
        intro hnil
        rw [hnil] at hinit heq
        exact heq (List.prefix_nil.mp hinit)
      have hfront : a.components <+: p.components.dropLast := by
        rw [← List.dropLast_concat_getLast hne] at hinit heq
        exact (List.prefix_concat_iff.mp hinit).resolve_left heq
      have hroot : p.components ≠ [.root] := by
        intro hroot
        have hp : p.isAbsolute = true := isAbsolute_iff_components.mpr (by rw [hroot]; rfl)
        rw [hp, isAbsolute_iff_components] at habsolute
        rw [hroot, List.dropLast_singleton, List.prefix_nil] at hfront
        rw [hfront] at habsolute
        cases habsolute
      obtain ⟨q, hq, hcomponents⟩ := exists_parent hne hroot
      obtain ⟨b, hb, hab⟩ := ih q hq ⟨hcomponents ▸ hfront, habsolute.trans (isAbsolute_parent hq).symm⟩
      exact ⟨b, List.mem_cons_of_mem _ (by rwa [hq]), hab⟩
  · rintro ⟨b, hb, heq⟩
    obtain ⟨hinit, habsolute⟩ := above_of_mem_ancestors hb
    refine ⟨heq ▸ hinit, ?_⟩
    rw [← habsolute, Bool.eq_iff_iff, isAbsolute_iff_components, isAbsolute_iff_components, heq]

theorem ancestors_suffix {a p : Path} (h : a ∈ p.ancestors) : a.ancestors <:+ p.ancestors := by
  obtain ⟨front, back, hsplit⟩ := List.append_of_mem h
  rw [ancestors_of_append hsplit, hsplit]
  exact List.suffix_append _ _

/-! ## Module folders -/

theorem isStep_moduleFolder : (Component.name moduleFolder).IsStep := isStep_name.mpr (by decide)

theorem moduleFolders_eq (dir : Path) : dir.moduleFolders =
    (dir.ancestors.filter fun a => a.components.getLast? != some (.name moduleFolder)).map fun a =>
      a.join ⟨moduleFolder⟩ := by
  unfold moduleFolders
  congr 1
  apply List.filter_congr
  intro a _
  rw [Bool.eq_iff_iff, bne_iff_ne, bne_iff_ne, Ne, fileName_eq_some_iff]

theorem mem_moduleFolders {dir folder : Path} : folder ∈ dir.moduleFolders ↔
    ∃ a ∈ dir.ancestors, a.components.getLast? ≠ some (.name moduleFolder) ∧ folder = a.join ⟨moduleFolder⟩ := by
  simp only [moduleFolders_eq, List.mem_map, List.mem_filter, bne_iff_ne, and_assoc, @eq_comm _ folder]

theorem map_components_moduleFolders (dir : Path) : dir.moduleFolders.map components =
    ((dir.ancestors.map components).filter (·.getLast? != some (.name moduleFolder))).map
      (· ++ [.name moduleFolder]) := by
  rw [moduleFolders_eq, List.filter_map, List.map_map, List.map_map]
  apply List.map_congr_left
  intro a _
  exact components_join a isStep_moduleFolder

theorem pairwise_moduleFolders (dir : Path) :
    dir.moduleFolders.Pairwise fun nearer farther => farther.components.length < nearer.components.length := by
  rw [moduleFolders_eq, List.pairwise_map]
  apply (dir.pairwise_ancestors.filter _).imp
  intro nearer farther hlt
  simpa [components_join _ isStep_moduleFolder] using hlt

theorem mem_map_moduleFolders {dir : Path} {cs : List Component} : cs ∈ dir.moduleFolders.map components ↔
    ∃ a : Path, a.Above dir ∧ a.components.getLast? ≠ some (.name moduleFolder) ∧
      cs = a.components ++ [.name moduleFolder] := by
  rw [map_components_moduleFolders]
  constructor
  · intro h
    obtain ⟨above, habove, rfl⟩ := List.mem_map.mp h
    obtain ⟨hmem, hlast⟩ := List.mem_filter.mp habove
    obtain ⟨a, ha, rfl⟩ := List.mem_map.mp hmem
    exact ⟨a, above_of_mem_ancestors ha, by simpa using hlast, rfl⟩
  · rintro ⟨a, ha, hlast, rfl⟩
    obtain ⟨b, hb, heq⟩ := above_iff.mp ha
    refine List.mem_map.mpr ⟨a.components, List.mem_filter.mpr ⟨?_, by simpa using hlast⟩, rfl⟩
    exact List.mem_map.mpr ⟨b, hb, heq⟩

theorem moduleFolders_suffix {a dir : Path} (h : a ∈ dir.ancestors) : a.moduleFolders <:+ dir.moduleFolders :=
  ((ancestors_suffix h).filter _).map _

theorem map_moduleFolders_suffix {a dir : Path} (h : a.Above dir) :
    a.moduleFolders.map components <:+ dir.moduleFolders.map components := by
  obtain ⟨b, hb, heq⟩ := above_iff.mp h
  have hspelling : a.moduleFolders.map components = b.moduleFolders.map components := by
    rw [map_components_moduleFolders, map_components_moduleFolders, map_components_ancestors heq]
  rw [hspelling]
  exact (moduleFolders_suffix hb).map _

/-- The module folders of a directory stand beside it and beside what lies above it, apart from what is a module folder
itself. The nearest comes first, and none comes twice. The folders of a directory above are the last ones of them: to
the letter if that directory is spelled as on the way up, and by their components in any spelling. -/
theorem moduleFolders_walk (dir : Path) :
    (∀ folder, folder ∈ dir.moduleFolders ↔
      ∃ a ∈ dir.ancestors, a.components.getLast? ≠ some (.name moduleFolder) ∧ folder = a.join ⟨moduleFolder⟩) ∧
    (∀ cs, cs ∈ dir.moduleFolders.map components ↔
      ∃ a : Path, a.Above dir ∧ a.components.getLast? ≠ some (.name moduleFolder) ∧
        cs = a.components ++ [.name moduleFolder]) ∧
    (dir.moduleFolders.Pairwise fun nearer farther => farther.components.length < nearer.components.length) ∧
    (dir.moduleFolders.map components).Nodup ∧
    (∀ a ∈ dir.ancestors, a.moduleFolders <:+ dir.moduleFolders) ∧
    ∀ a : Path, a.Above dir → a.moduleFolders.map components <:+ dir.moduleFolders.map components := by
  refine ⟨fun _ => mem_moduleFolders, fun _ => mem_map_moduleFolders, pairwise_moduleFolders dir, ?_,
    fun _ => moduleFolders_suffix, fun _ => map_moduleFolders_suffix⟩
  apply List.pairwise_map.mpr
  exact (pairwise_moduleFolders dir).imp fun hlt heq => hlt.ne (congrArg List.length heq.symm)

example : (⟨"/app/node_modules/pkg/"⟩ : Path).moduleFolders =
    [⟨"/app/node_modules/pkg/node_modules"⟩, ⟨"/app/node_modules"⟩, ⟨"/node_modules"⟩] := by
  decide +kernel

end ModGraph.Path
