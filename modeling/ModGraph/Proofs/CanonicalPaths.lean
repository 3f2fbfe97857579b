import ModGraph.Proofs.FileNames

/-!
# Canonical paths

What a loader remembers about files and directories it keeps under their components. That is sound as it
asks only about paths that are spelled as their components are (`Path.Canonical`): such a path is
determined by its components. The paths of resolved files are canonical (`canonical_of_resolve`), and so
are the directories above them.
-/

namespace ModGraph

/-! ## Splitting undoes joining -/

namespace Text

variable {sep : Char}

theorem split_of_not_mem {cs : List Char} (h : sep ∉ cs) : split sep cs = [cs] := by
  induction cs with
  | nil => rfl
  | cons c cs ih =>
    have hc : c ≠ sep := fun heq => h (heq ▸ List.mem_cons_self)
    have hcs : sep ∉ cs := fun hmem => h (List.mem_cons_of_mem _ hmem)
    rw [split, if_neg hc, ih hcs]

theorem split_join {pieces : List (List Char)} (hne : pieces ≠ []) (h : ∀ piece ∈ pieces, sep ∉ piece) :
    split sep (join sep pieces) = pieces := by
  induction pieces with
  | nil => exact absurd rfl hne
  | cons piece rest ih =>
    have hpiece := split_of_not_mem (h piece List.mem_cons_self)
    cases rest with
    | nil => exact hpiece
    | cons piece' rest =>
      rw [join, split_append, hpiece, ih (by simp) fun p hp => h p (List.mem_cons_of_mem _ hp)]
      rfl

end Text

/-! ## Components that read as they are spelled -/

namespace Path

/-- A component that can stand behind the start of a path: the directory above, or a name. -/
def Component.IsStep (c : Component) : Prop := '/' ∉ c.chars ∧ pieceComponent c.chars = some c

/-- Components that are not noise and stand where they can. -/
inductive Clean : List Component → Prop where
  | relative {cs : List Component} (h : ∀ c ∈ cs, c.IsStep) : Clean cs
  | absolute {cs : List Component} (h : ∀ c ∈ cs, c.IsStep) : Clean (.root :: cs)

/-- A path that is spelled as its components are. -/
def Canonical (p : Path) : Prop := ∃ cs, Clean cs ∧ p = ofComponents cs

theorem not_isStep_root : ¬ Component.root.IsStep := by simp [Component.IsStep, Component.chars]

theorem isStep_name {n : String} :
    (Component.name n).IsStep ↔ '/' ∉ n.toList ∧ n ≠ "" ∧ n ≠ "." ∧ n ≠ ".." := by
  have htext : ∀ {cs : List Char}, n.toList = cs ↔ n = String.ofList cs := fun {cs} =>
    ⟨fun h => by rw [← h, String.ofList_toList], fun h => by rw [h, String.toList_ofList]⟩
  have hempty : n.toList.isEmpty = true ↔ n = "" := by
    rw [List.isEmpty_iff, htext]
  refine and_congr_right fun _ => ?_
  unfold pieceComponent isNoise Component.chars
  by_cases h : n = ""
  · subst h
    simp
  by_cases hdot : n = "."
  · subst hdot
    simp
  by_cases hup : n = ".."
  · subst hup
    simp
  have h1 : n.toList ≠ ['.'] := fun heq => hdot (htext.mp heq)
  have h2 : n.toList ≠ ['.', '.'] := fun heq => hup (htext.mp heq)
  have h3 : n.toList.isEmpty = false := by
    rw [Bool.eq_false_iff]
    exact fun he => h (hempty.mp he)
  simp [h, hdot, hup, h1, h2, h3, String.ofList_toList]

/-- What a piece of a spelling stands for is a step. -/
theorem isStep_of_piece {piece : List Char} {c : Component} (hp : '/' ∉ piece)
    (h : pieceComponent piece = some c) : c.IsStep ∧ c.chars = piece := by
  have hchars : c.chars = piece := by
    unfold pieceComponent at h
    split at h
    · cases h
    · split at h
      · next hup =>
        cases h
        exact hup.symm
      · cases h
        exact String.toList_ofList
  exact ⟨⟨hchars ▸ hp, hchars ▸ h⟩, hchars⟩

theorem chars_of_isStep {c : Component} (h : c.IsStep) : isNoise c.chars = false := by
  have := h.2
  unfold pieceComponent at this
  split at this
  · cases this
  · next hn => simpa using hn

theorem filterMap_chars {cs : List Component} (h : ∀ c ∈ cs, c.IsStep) :
    (cs.map Component.chars).filterMap pieceComponent = cs := by
  induction cs with
  | nil => rfl
  | cons c cs ih =>
    rw [List.map_cons, List.filterMap_cons_some (h c List.mem_cons_self).2,
      ih fun c' hc => h c' (List.mem_cons_of_mem _ hc)]

/-! ## Spelling and reading -/

/-- The pieces of the spelling of some steps; without steps there is an empty piece. -/
theorem split_join_chars {cs : List Component} (h : ∀ c ∈ cs, c.IsStep) :
    Text.split '/' (Text.join '/' (cs.map Component.chars))
      = if cs = [] then [[]] else cs.map Component.chars := by
  split
  · next hc =>
    subst hc
    rfl
  · next hc =>
    refine Text.split_join (by simpa using hc) fun piece hp => ?_
    obtain ⟨c, hmem, rfl⟩ := List.mem_map.mp hp
    exact (h c hmem).1

/-- The spelling of steps starts right away with their names. -/
theorem cutLead_join_chars {cs : List Component} (h : ∀ c ∈ cs, c.IsStep) :
    cutLead (Text.join '/' (cs.map Component.chars)) = (.plain, Text.join '/' (cs.map Component.chars)) := by
  -- otherwise the first piece would be empty or a point
  have hfirst : ∀ piece rest, Text.join '/' (cs.map Component.chars) ≠ [] →
      Text.split '/' (Text.join '/' (cs.map Component.chars)) = piece :: rest →
      isNoise piece = false := by
    intro piece rest hne hs
    rw [split_join_chars h] at hs
    cases cs with
    | nil => exact absurd rfl hne
    | cons c cs =>
      obtain rfl : c.chars = piece := by simpa using congrArg List.head? hs
      exact chars_of_isStep (h c List.mem_cons_self)
  generalize Text.join '/' (cs.map Component.chars) = text at hfirst
  unfold cutLead
  split
  · next rest =>
    cases hfirst [] (Text.split '/' rest) (by simp) (by simp [Text.split])
  · cases hfirst ['.'] [] (by simp) rfl
  · next rest =>
    cases hfirst ['.'] (Text.split '/' rest) (by simp) (by simp [Text.split])
  · rfl

theorem ofComponents_relative {cs : List Component} (h : ∀ c ∈ cs, c.IsStep) :
    ofComponents cs = ⟨String.ofList (Text.join '/' (cs.map Component.chars))⟩ := by
  unfold ofComponents
  split
  · exact absurd (h .root List.mem_cons_self) not_isStep_root
  · rfl

theorem lead_ofComponents_relative {cs : List Component} (h : ∀ c ∈ cs, c.IsStep) :
    cutLead (ofComponents cs).text.toList = (.plain, Text.join '/' (cs.map Component.chars)) := by
  rw [ofComponents_relative h, String.toList_ofList, cutLead_join_chars h]

theorem lead_ofComponents_absolute (cs : List Component) :
    cutLead (ofComponents (.root :: cs)).text.toList
      = (.root, Text.join '/' (cs.map Component.chars)) := by
  simp [ofComponents, cutLead]

/-- The components of a path that was made of components. -/
theorem components_ofComponents {cs : List Component} (h : Clean cs) :
    (ofComponents cs).components = cs := by
  have hpieces : ∀ cs : List Component, (∀ c ∈ cs, c.IsStep) →
      (Text.split '/' (Text.join '/' (cs.map Component.chars))).filterMap pieceComponent = cs := by
    intro cs h
    rw [split_join_chars h]
    split
    · next hc => exact hc.symm
    · exact filterMap_chars h
  cases h with
  | relative h =>
    unfold components lead pieces
    rw [lead_ofComponents_relative h]
    exact hpieces cs h
  | @absolute cs h =>
    unfold components lead pieces
    rw [lead_ofComponents_absolute cs]
    exact congrArg (Component.root :: ·) (hpieces cs h)

/-- A canonical path is determined by its components. -/
theorem Canonical.eq {p q : Path} (hp : p.Canonical) (hq : q.Canonical)
    (h : p.components = q.components) : p = q := by
  obtain ⟨cs, hcs, rfl⟩ := hp
  obtain ⟨cs', hcs', rfl⟩ := hq
  rw [components_ofComponents hcs, components_ofComponents hcs'] at h
  rw [h]

/-! ## Directories above -/

/-- Taking the last component off leaves the spelling of the others. -/
theorem parent_of_pieces {p dir : Path} {cs : List Component} (h : ∀ c ∈ cs, c.IsStep)
    (hpieces : p.pieces = if cs = [] then [[]] else cs.map Component.chars) (hlead : p.lead ≠ .here)
    (hp : p.parent = some dir) :
    ∃ above : List Component, (∀ c ∈ above, c.IsStep) ∧
      dir = ⟨String.ofList (p.lead.chars ++ Text.join '/' (above.map Component.chars))⟩ := by
  have hdrop : ∀ l : List Component, (∀ c ∈ l, c.IsStep) →
      (l.map Component.chars).reverse.dropWhile isNoise = (l.map Component.chars).reverse := by
    intro l hl
    rw [← List.map_reverse]
    cases hr : l.reverse with
    | nil => rfl
    | cons c rest =>
      have hmem : c ∈ l := List.mem_reverse.mp (hr ▸ List.mem_cons_self)
      rw [List.map_cons, List.dropWhile_cons_of_neg]
      simp [chars_of_isStep (hl c hmem)]
  rcases List.eq_nil_or_concat cs with rfl | ⟨above, last, hcs⟩
  · rw [if_pos rfl] at hpieces
    unfold parent backPieces at hp
    rw [hpieces] at hp
    cases hl : p.lead <;> simp_all [isNoise]
  · obtain rfl : cs = above ++ [last] := by rw [hcs, List.concat_eq_append]
    have habove : ∀ c ∈ above, c.IsStep := fun c hc => h c (List.mem_append_left _ hc)
    refine ⟨above, habove, ?_⟩
    have hback : p.backPieces = last.chars :: (above.map Component.chars).reverse := by
      rw [backPieces, hpieces, if_neg (by simp), hdrop _ h]
      simp
    unfold parent at hp
    rw [hback] at hp
    obtain rfl := Option.some.inj hp
    rw [hdrop above habove, List.reverse_reverse]

theorem Canonical.parent {p dir : Path} (h : p.Canonical) (hp : p.parent = some dir) : dir.Canonical := by
  obtain ⟨cs, hcs, rfl⟩ := h
  cases hcs with
  | relative hcs =>
    have hlead := lead_ofComponents_relative hcs
    obtain ⟨above, habove, rfl⟩ := parent_of_pieces hcs
      (by rw [pieces, hlead, split_join_chars hcs]) (by rw [lead, hlead]; simp) hp
    refine ⟨above, .relative habove, ?_⟩
    rw [ofComponents_relative habove, lead, hlead]
    rfl
  | @absolute cs hcs =>
    have hlead := lead_ofComponents_absolute cs
    obtain ⟨above, habove, rfl⟩ := parent_of_pieces hcs
      (by rw [pieces, hlead, split_join_chars hcs]) (by rw [lead, hlead]; simp) hp
    refine ⟨.root :: above, .absolute habove, ?_⟩
    rw [lead, hlead]
    rfl

theorem Canonical.ancestors {p dir : Path} (h : p.Canonical) (hd : dir ∈ p.ancestors) :
    dir.Canonical := by
  induction hn : p.text.toList.length using Nat.strong_induction_on generalizing p with
  | _ n ih =>
    subst hn
    rw [ancestors_eq] at hd
    rcases List.mem_cons.mp hd with rfl | hd
    · exact h
    · cases hp : p.parent with
      | none => simp [hp] at hd
      | some q =>
        rw [hp] at hd
        exact ih _ (length_parent_lt hp) (h.parent hp) hd rfl

/-! ## Normal forms -/

theorem isStep_of_mem_pieces {p : Path} {c : Component} (h : c ∈ p.pieces.filterMap pieceComponent) :
    c.IsStep := by
  obtain ⟨piece, hp, hc⟩ := List.mem_filterMap.mp h
  exact (isStep_of_piece (Text.not_mem_of_mem_split hp) hc).1

/-- What normalization keeps: steps, and the root below them. -/
def Kept (kept : List Component) : Prop :=
  ∃ steps, (∀ c ∈ steps, c.IsStep) ∧ (kept = steps ∨ kept = steps ++ [.root])

theorem Kept.clean {kept : List Component} (h : Kept kept) : Clean kept.reverse := by
  obtain ⟨steps, hsteps, rfl | rfl⟩ := h
  · exact .relative fun c hc => hsteps c (List.mem_reverse.mp hc)
  · rw [List.reverse_append]
    exact .absolute fun c hc => hsteps c (List.mem_reverse.mp hc)

theorem Kept.step {kept : List Component} {c : Component} (h : Kept kept) (hc : c.IsStep) :
    Kept (normalStep kept c) := by
  have hadd : Kept (c :: kept) := by
    obtain ⟨steps, hsteps, hkept⟩ := h
    refine ⟨c :: steps, fun c' hmem => ?_, hkept.imp (congrArg _) (congrArg _)⟩
    rcases List.mem_cons.mp hmem with rfl | hmem
    · exact hc
    · exact hsteps c' hmem
  cases c with
  | root => exact absurd hc not_isStep_root
  | here => exact h
  | name n => exact hadd
  | up =>
    unfold normalStep
    dsimp only
    split
    · exact hadd
    · exact hadd
    · next first kept _ =>
      obtain ⟨steps, hsteps, hkept⟩ := h
      cases steps with
      | nil => rcases hkept with hkept | hkept <;> simp_all
      | cons first' steps =>
        refine ⟨steps, fun c hmem => hsteps c (List.mem_cons_of_mem _ hmem), ?_⟩
        exact hkept.imp (fun h => (List.cons.inj h).2) fun h => (List.cons.inj h).2

theorem Kept.foldl {cs kept : List Component} (h : Kept kept) (hcs : ∀ c ∈ cs, c.IsStep) :
    Kept (cs.foldl normalStep kept) := by
  induction cs generalizing kept with
  | nil => exact h
  | cons c cs ih =>
    exact ih (h.step (hcs c List.mem_cons_self)) fun c' hc => hcs c' (List.mem_cons_of_mem _ hc)

theorem kept_normalize (p : Path) : Kept (p.components.foldl normalStep []) := by
  unfold components
  rw [List.foldl_append]
  refine Kept.foldl ?_ fun c hc => isStep_of_mem_pieces hc
  cases p.lead with
  | root => exact ⟨[], by simp, .inr rfl⟩
  | here => exact ⟨[], by simp, .inl rfl⟩
  | plain => exact ⟨[], by simp, .inl rfl⟩

theorem canonical_normalize (p : Path) : p.normalize.Canonical := ⟨_, p.kept_normalize.clean, rfl⟩

theorem here_of_canonical {p : Path} (h : p.Canonical) : .here ∉ p.components := by
  obtain ⟨cs, hclean, rfl⟩ := h
  have hpoint : ¬ Component.here.IsStep := fun hstep => absurd hstep.2 (by decide)
  rw [components_ofComponents hclean]
  cases hclean with
  | relative hsteps => exact fun hmem => hpoint (hsteps _ hmem)
  | absolute hsteps => simpa using fun hmem => hpoint (hsteps _ hmem)

end Path

/-! ## Places -/

namespace FileSystem

variable {fs : FileSystem}

/-- All names of a place can be names. -/
def Proper (loc : Location) : Prop := ∀ name ∈ loc, (Path.Component.name name).IsStep

theorem canonical_path {loc : Location} (h : Proper loc) : loc.path.Canonical := by
  have hsteps : ∀ c ∈ loc.reverse.map Path.Component.name, c.IsStep :=
    List.forall_mem_map.mpr fun name hname => h name (List.mem_reverse.mp hname)
  exact ⟨_, .absolute hsteps, rfl⟩

theorem mem_steps {text name : String} (h : name ∈ steps text) : '/' ∉ name.toList ∧ name ≠ "" := by
  have hnames : ∀ name ∈ names text, '/' ∉ name.toList ∧ name ≠ "" := by
    intro name hname
    obtain ⟨piece, hp, rfl⟩ := List.mem_map.mp hname
    obtain ⟨hsplit, hne⟩ := List.mem_filter.mp hp
    refine ⟨by simpa using Text.not_mem_of_mem_split hsplit, fun heq => ?_⟩
    have : piece = [] := by simpa using congrArg String.toList heq
    simp [this] at hne
  unfold steps at h
  split at h
  · rcases List.mem_append.mp h with h | h
    · exact hnames name h
    · obtain rfl := List.mem_singleton.mp h
      decide
  · exact hnames name h

theorem proper_walkNames {follow : Bool} {jump : Location → String → List String → Except Fault Location}
    {found : Location}
    (hjump : ∀ loc target rest, Proper loc → (∀ name ∈ rest, '/' ∉ name.toList ∧ name ≠ "") →
      jump loc target rest = .ok found → Proper found)
    {names : List String} {loc : Location} (hloc : Proper loc)
    (hnames : ∀ name ∈ names, '/' ∉ name.toList ∧ name ≠ "")
    (h : fs.walkNames follow jump loc names = .ok found) : Proper found := by
  induction names generalizing loc with
  | nil =>
    cases h
    exact hloc
  | cons first rest ih =>
    have hrest := fun name hn => hnames name (List.mem_cons_of_mem _ hn)
    unfold walkNames at h
    split at h
    · cases h
    split at h
    · exact ih hloc hrest h
    split at h
    · exact ih (fun name hn => hloc name (List.mem_of_mem_tail hn)) hrest h
    split at h
    · cases h
    next hdot hup _ =>
    have hcons : Proper (first :: loc) := by
      intro name hn
      rcases List.mem_cons.mp hn with rfl | hn
      · obtain ⟨hslash, hne⟩ := hnames name List.mem_cons_self
        exact Path.isStep_name.mpr ⟨hslash, hne, hdot, hup⟩
      · exact hloc name hn
    split at h
    · split at h
      · cases h
        exact hcons
      · exact hjump _ _ _ hloc hrest h
    · exact ih hcons hrest h
    · split at h
      · cases h
        exact hcons
      · cases h

theorem proper_walk {follow : Bool} {links : Nat} {loc found : Location} {names : List String}
    (hloc : Proper loc) (hnames : ∀ name ∈ names, '/' ∉ name.toList ∧ name ≠ "")
    (h : fs.walk follow links loc names = .ok found) : Proper found := by
  induction links generalizing loc names with
  | zero => exact proper_walkNames (fun _ _ _ _ _ h => by cases h) hloc hnames h
  | succ links ih =>
    refine proper_walkNames (fun loc target rest hloc hrest hj => ?_) hloc hnames h
    have hstart : Proper (start loc target) := by
      unfold start
      split
      · exact fun name hn => absurd hn List.not_mem_nil
      · exact hloc
    refine ih hstart (fun name hn => ?_) hj
    rcases List.mem_append.mp hn with hn | hn
    · exact mem_steps hn
    · exact hrest name hn

theorem proper_find {p : Path} {found : Location × Node} (hfs : Proper fs.workingDirectory)
    (h : fs.find p = .ok found) : Proper found.1 := by
  have hstart : Proper (start fs.workingDirectory p.text) := by
    unfold start
    split
    · exact fun name hn => absurd hn List.not_mem_nil
    · exact hfs
  have hloc := (find_iff_locate.mp h).1
  exact proper_walk hstart (fun name hn => mem_steps hn) (locate_eq_ok_iff.mp hloc).2

end FileSystem

theorem canonical_realize {fs : FileSystem} (p : Path) (preserve : Bool)
    (h : FileSystem.Proper fs.workingDirectory) : (realize fs p preserve).Canonical := by
  unfold realize
  split
  · exact Path.canonical_normalize p
  · split
    · next real hreal =>
      unfold FileSystem.realPath at hreal
      cases hf : fs.find p with
      | error fault =>
        rw [hf] at hreal
        cases hreal
      | ok found =>
        rw [hf] at hreal
        cases hreal
        exact FileSystem.canonical_path (FileSystem.proper_find h hf)
    · exact Path.canonical_normalize p

/-- The path of a resolved file is canonical. -/
theorem Resolver.canonical_of_resolve {r : Resolver} {fs : FileSystem} {q : Resolver.Query} {f : Path}
    (hfs : FileSystem.Proper fs.workingDirectory) (h : r.resolve fs q = .ok (.file f)) : f.Canonical := by
  obtain ⟨p, -, rfl⟩ := realize_of_resolve h
  exact canonical_realize p _ hfs

end ModGraph
