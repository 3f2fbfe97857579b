import ModGraph.Proofs.CanonicalPaths

/-!
# Directories above a path

`Path.parent` takes a component off the spelling, and so off the components: which components the
directories above a path have depends on the components of the path alone (`map_components_parent`), however it is
spelled. On the way up the directories have ever fewer components (`pairwise_ancestors`), and none comes twice.
-/

namespace ModGraph.Path

/-! ## Spellings that start in some way -/

/-- The pieces of a spelling that can stand behind a start: behind a point there is nothing or a slash, and what
starts right away starts with a name. -/
def Lead.Heads : Lead → List (List Char) → Prop
  | root, pieces => pieces ≠ []
  | here, pieces => pieces = [[]] ∨ ∃ next rest, pieces = [] :: next :: rest
  | plain, pieces => pieces = [[]] ∨ ∃ first rest, pieces = first :: rest ∧ isNoise first = false

theorem heads_pieces (p : Path) : p.lead.Heads p.pieces := by
  unfold lead pieces
  generalize p.text.toList = cs
  have hne : Text.split '/' (cutLead cs).2 ≠ [] := Text.split_ne_nil _ _
  revert hne
  unfold cutLead
  split
  · intro hne
    exact hne
  · intro _
    exact .inl rfl
  · next rest =>
    intro _
    obtain ⟨next, rest', hrest⟩ := List.exists_cons_of_ne_nil (Text.split_ne_nil '/' rest)
    exact .inr ⟨next, rest', by simp [Text.split, hrest]⟩
  · next hroot hdot hhere =>
    intro hne
    obtain ⟨first, rest, hsplit⟩ := List.exists_cons_of_ne_nil hne
    have hjoin : Text.join '/' (first :: rest) = cs := by rw [← hsplit, Text.join_split]
    by_cases hcs : cs = []
    · subst hcs
      exact .inl rfl
    refine .inr ⟨first, rest, hsplit, ?_⟩
    -- with nothing or a point before the first slash the spelling would start in another way
    rw [isNoise, Bool.or_eq_false_iff, List.isEmpty_eq_false_iff, beq_eq_false_iff_ne]
    constructor
    · rintro rfl
      cases rest with
      | nil => exact hcs hjoin.symm
      | cons next rest => exact hroot _ hjoin.symm
    · rintro rfl
      cases rest with
      | nil => exact hdot hjoin.symm
      | cons next rest => exact hhere _ hjoin.symm

/-- A start and the pieces behind it are read back from their spelling. -/
theorem cutLead_join {start : Lead} {pieces : List (List Char)} (h : start.Heads pieces)
    (hslash : ∀ piece ∈ pieces, '/' ∉ piece) :
    cutLead (start.chars ++ Text.join '/' pieces) = (start, Text.join '/' pieces) := by
  cases start with
  | root => rfl
  | here =>
    obtain rfl | ⟨next, rest, rfl⟩ := h
    · rfl
    · rfl
  | plain =>
    obtain rfl | ⟨first, rest, rfl, hfirst⟩ := h
    · rfl
    have hslash := hslash first List.mem_cons_self
    rw [isNoise, Bool.or_eq_false_iff, List.isEmpty_eq_false_iff, beq_eq_false_iff_ne] at hfirst
    obtain ⟨c, cs, rfl⟩ := List.exists_cons_of_ne_nil hfirst.1
    have hc : c ≠ '/' := fun heq => hslash (heq ▸ List.mem_cons_self)
    rw [Text.join_cons_cons]
    show cutLead (c :: _) = (.plain, c :: _)
    unfold cutLead
    split
    · next heq => exact absurd (List.cons.inj heq).1 hc
    · next heq =>
      -- the first piece is longer than a point
      obtain ⟨rfl, hnil⟩ := List.cons.inj heq
      cases rest <;> cases cs <;> simp_all [Text.join]
    · next heq =>
      obtain ⟨rfl, hrest⟩ := List.cons.inj heq
      cases cs with
      | nil => exact absurd rfl hfirst.2
      | cons d cs =>
        rw [Text.join_cons_cons] at hrest
        obtain ⟨rfl, -⟩ := List.cons.inj hrest
        simp at hslash
    · rfl

theorem components_of_spelling {start : Lead} {pieces : List (List Char)} (h : start.Heads pieces)
    (hslash : ∀ piece ∈ pieces, '/' ∉ piece) :
    (⟨String.ofList (start.chars ++ Text.join '/' pieces)⟩ : Path).components
      = start.component?.toList ++ pieces.filterMap pieceComponent := by
  have hne : pieces ≠ [] := by
    cases start with
    | root => exact h
    | here => obtain rfl | ⟨next, rest, rfl⟩ := h <;> simp
    | plain => obtain rfl | ⟨first, rest, rfl, -⟩ := h <;> simp
  unfold components lead Path.pieces
  rw [String.toList_ofList, cutLead_join h hslash, Text.split_join hne hslash]

/-! ## Pieces without noise at their end -/

theorem filterMap_dropWhile_isNoise (pieces : List (List Char)) :
    (pieces.dropWhile isNoise).filterMap pieceComponent = pieces.filterMap pieceComponent := by
  induction pieces with
  | nil => rfl
  | cons piece rest ih =>
    by_cases h : isNoise piece = true
    · rw [List.dropWhile_cons_of_pos h, ih, List.filterMap_cons_none (by simp [pieceComponent, h])]
    · rw [List.dropWhile_cons_of_neg h]

theorem filterMap_backPieces (p : Path) :
    p.pieces.filterMap pieceComponent = (p.backPieces.filterMap pieceComponent).reverse := by
  rw [backPieces, filterMap_dropWhile_isNoise, List.filterMap_reverse, List.reverse_reverse]

/-- Pieces that end in no noise can stand where the pieces stand that they are the first ones of. -/
theorem heads_of_front {start : Lead} {front pieces : List (List Char)} (h : start.Heads pieces)
    (hfront : front <+: pieces) (hlast : ∀ last ∈ front.getLast?, isNoise last = false) (hne : front ≠ []) :
    start.Heads front := by
  obtain ⟨first, rest, rfl⟩ := List.exists_cons_of_ne_nil hne
  obtain ⟨back, rfl⟩ := hfront
  cases start with
  | root => exact hne
  | here =>
    -- the first piece is empty, so it is not the last one
    have hfirst : first = [] := by
      obtain h | ⟨next, rest', h⟩ := h
      · exact (List.cons.inj h).1
      · exact (List.cons.inj h).1
    subst hfirst
    cases rest with
    | nil => simp [isNoise] at hlast
    | cons next rest => exact .inr ⟨next, rest, rfl⟩
  | plain =>
    refine .inr ⟨first, rest, rfl, ?_⟩
    obtain h | ⟨first', rest', h, hfirst⟩ := h
    · obtain ⟨rfl, hrest⟩ := List.cons.inj h
      obtain ⟨rfl, -⟩ := List.append_eq_nil_iff.mp hrest
      simpa using hlast
    · rw [(List.cons.inj h).1]
      exact hfirst

/-- The components of a path that is cut off behind one of its pieces. -/
theorem components_of_front {p : Path} {front : List (List Char)} (hfront : front <+: p.pieces)
    (hlast : ∀ last ∈ front.getLast?, isNoise last = false) :
    (⟨String.ofList (p.lead.chars ++ Text.join '/' front)⟩ : Path).components
      = p.lead.component?.toList ++ front.filterMap pieceComponent := by
  by_cases hne : front = []
  · -- nothing is spelled as an empty piece is
    subst hne
    have hheads : p.lead.Heads [[]] := by
      cases p.lead with
      | root => simp [Lead.Heads]
      | here => exact .inl rfl
      | plain => exact .inl rfl
    exact @components_of_spelling _ [[]] hheads (by simp)
  · apply components_of_spelling (heads_of_front p.heads_pieces hfront hlast hne)
    intro piece hpiece
    exact Text.not_mem_of_mem_split (hfront.subset hpiece)

/-! ## One component less -/

/-- The components of the directory above; neither the root nor the empty path has one. -/
def above? (cs : List Component) : Option (List Component) :=
  if cs = [] ∨ cs = [.root] then none else some cs.dropLast

theorem pieceComponent_of_not_isNoise {piece : List Char} (h : isNoise piece = false) :
    ∃ c, pieceComponent piece = some c ∧ c ≠ .root := by
  unfold pieceComponent
  rw [h]
  by_cases hup : piece = ['.', '.']
  · exact ⟨.up, by simp [hup], by simp⟩
  · exact ⟨.name (String.ofList piece), by simp [hup], by simp⟩

/-- The components of the directory above depend on the components of the path alone. -/
theorem map_components_parent (p : Path) : p.parent.map components = above? p.components := by
  have hcomponents : p.components = p.lead.component?.toList ++ p.pieces.filterMap pieceComponent := rfl
  rw [filterMap_backPieces] at hcomponents
  unfold parent
  split
  · next piece above hback =>
    obtain ⟨c, hc, hroot⟩ := pieceComponent_of_not_isNoise (isNoise_of_head_dropWhile hback)
    -- what is left stands at the front of the pieces
    have hsuffix : above.dropWhile isNoise <:+ p.pieces.reverse := by
      have hall : p.backPieces <:+ p.pieces.reverse := List.dropWhile_suffix _
      rw [hback] at hall
      exact (List.dropWhile_suffix _).trans ((List.suffix_cons _ _).trans hall)
    have hfront : (above.dropWhile isNoise).reverse <+: p.pieces := by
      simpa using List.reverse_prefix.mpr hsuffix
    have hlast : ∀ last ∈ (above.dropWhile isNoise).reverse.getLast?, isNoise last = false := by
      intro last hmem
      rw [List.getLast?_reverse] at hmem
      cases hd : above.dropWhile isNoise with
      | nil => simp [hd] at hmem
      | cons first rest =>
        rw [hd] at hmem
        exact isNoise_of_head_dropWhile (Option.some.inj hmem ▸ hd)
    have hread := components_of_front hfront hlast
    rw [List.filterMap_reverse, filterMap_dropWhile_isNoise] at hread
    rw [hback, List.filterMap_cons_some hc, List.reverse_cons, ← List.append_assoc, ← hread] at hcomponents
    rw [Option.map_some, hcomponents, above?, if_neg, List.dropLast_concat]
    simp [hroot, List.append_eq_singleton_iff]
  · next hback =>
    rw [hback, List.filterMap_nil, List.reverse_nil, List.append_nil] at hcomponents
    rw [hcomponents]
    cases hl : p.lead <;> rfl

theorem components_parent {p dir : Path} (h : p.parent = some dir) :
    dir.components = p.components.dropLast ∧ p.components ≠ [] := by
  have habove := map_components_parent p
  rw [h, Option.map_some, above?] at habove
  split at habove
  · cases habove
  · next hne => exact ⟨Option.some.inj habove, fun heq => hne (.inl heq)⟩

/-- Everything but the root and the empty path has a parent. -/
theorem exists_parent {p : Path} (hne : p.components ≠ []) (hroot : p.components ≠ [.root]) :
    ∃ dir, p.parent = some dir ∧ dir.components = p.components.dropLast := by
  have habove := map_components_parent p
  rw [above?, if_neg (not_or.mpr ⟨hne, hroot⟩)] at habove
  exact Option.map_eq_some_iff.mp habove

/-! ## Absolute paths -/

theorem isAbsolute_iff_components {p : Path} : p.isAbsolute = true ↔ p.components.head? = some .root := by
  rw [isAbsolute, components]
  have hsteps : (p.pieces.filterMap pieceComponent).head? ≠ some .root := by
    intro h
    exact not_isStep_root (isStep_of_mem_pieces (List.mem_of_head? h))
  cases hl : p.lead with
  | root => simp [Lead.component?]
  | here => simp [Lead.component?]
  | plain => simpa [Lead.component?] using hsteps

/-- The directory above starts where the path starts. -/
theorem isAbsolute_parent {p dir : Path} (h : p.parent = some dir) : dir.isAbsolute = p.isAbsolute := by
  have habove := map_components_parent p
  rw [h, Option.map_some, above?] at habove
  split at habove
  · cases habove
  next hne =>
  rw [Bool.eq_iff_iff, isAbsolute_iff_components, isAbsolute_iff_components, Option.some.inj habove]
  rcases hcs : p.components with _ | ⟨first, _ | ⟨next, rest⟩⟩
  · rfl
  · -- the only component is not the root
    have hfirst : first ≠ .root := fun heq => hne (.inr (heq ▸ hcs))
    simp [hfirst]
  · rfl

/-! ## All the way up -/

/-- What holds of a path if it holds of its parent, if any, holds of every path. -/
theorem induction_parent {motive : Path → Prop} (h : ∀ p, (∀ dir, p.parent = some dir → motive dir) → motive p)
    (p : Path) : motive p := by
  induction hn : p.text.toList.length using Nat.strong_induction_on generalizing p with
  | _ n ih =>
    subst hn
    apply h
    intro dir hdir
    exact ih _ (length_parent_lt hdir) dir rfl

/-- Two spellings of a path have the same directories above them. -/
theorem map_components_ancestors {p q : Path} (h : p.components = q.components) :
    p.ancestors.map components = q.ancestors.map components := by
  induction p using induction_parent generalizing q with
  | h p ih =>
    rw [ancestors_eq p, ancestors_eq q, List.map_cons, List.map_cons, h]
    have hparents : p.parent.map components = q.parent.map components := by
      rw [map_components_parent, map_components_parent, h]
    cases hp : p.parent with
    | none =>
      rw [hp] at hparents
      cases hq : q.parent with
      | none => rfl
      | some dir' => simp [hq] at hparents
    | some dir =>
      rw [hp] at hparents
      cases hq : q.parent with
      | none => simp [hq] at hparents
      | some dir' =>
        rw [hq, Option.map_some, Option.map_some] at hparents
        exact congrArg _ (ih dir hp (Option.some.inj hparents))

/-- All directories above a path start where it starts. -/
theorem isAbsolute_ancestors {p dir : Path} (h : dir ∈ p.ancestors) : dir.isAbsolute = p.isAbsolute := by
  induction p using induction_parent with
  | h p ih =>
    rw [ancestors_eq] at h
    obtain rfl | h := List.mem_cons.mp h
    · rfl
    cases hp : p.parent with
    | none => simp [hp] at h
    | some above =>
      rw [hp] at h
      exact (ih above hp h).trans (isAbsolute_parent hp)

/-- What lies above one of the directories above a path. -/
theorem ancestors_of_append {p dir : Path} {front back : List Path} (h : p.ancestors = front ++ dir :: back) :
    dir.ancestors = dir :: back := by
  induction front generalizing p with
  | nil =>
    have heq := ancestors_eq p
    rw [List.nil_append] at h
    obtain rfl : p = dir := (List.cons.inj (heq.symm.trans h)).1
    exact h
  | cons first front ih =>
    have heq := (ancestors_eq p).symm.trans h
    cases hp : p.parent with
    | none => simp [hp] at heq
    | some q =>
      rw [hp] at heq
      exact ih (List.cons.inj heq).2

theorem length_components_ancestors {p dir : Path} (h : dir ∈ p.ancestors) :
    dir.components.length ≤ p.components.length := by
  induction p using induction_parent with
  | h p ih =>
    rw [ancestors_eq] at h
    obtain rfl | h := List.mem_cons.mp h
    · exact Nat.le_refl _
    cases hp : p.parent with
    | none => simp [hp] at h
    | some q =>
      rw [hp] at h
      have hq := (components_parent hp).1
      have := ih q hp h
      rw [hq, List.length_dropLast] at this
      omega

/-- On the way up every directory has fewer components than those before it. -/
theorem pairwise_ancestors (p : Path) :
    p.ancestors.Pairwise fun nearer farther => farther.components.length < nearer.components.length := by
  induction p using induction_parent with
  | h p ih =>
    rw [ancestors_eq]
    cases hp : p.parent with
    | none => simp
    | some q =>
      obtain ⟨hq, hne⟩ := components_parent hp
      refine List.pairwise_cons.mpr ⟨fun dir hdir => ?_, ih q hp⟩
      have hle := length_components_ancestors hdir
      have hpos : 0 < p.components.length := List.length_pos_iff.mpr hne
      rw [hq, List.length_dropLast] at hle
      omega

/-- No directory comes twice on the way up, in whatever spelling. -/
theorem nodup_ancestors (p : Path) : (p.ancestors.map components).Nodup :=
  List.pairwise_map.mpr <| p.pairwise_ancestors.imp fun hlt heq => hlt.ne (congrArg List.length heq.symm)

end ModGraph.Path
