import ModGraph.Proofs.Parents
import ModGraph.Proofs.Ways

/-!
# Where the normal form of a path leads

Normalization takes a name and the `..` behind it out of a path, whatever the name stands for; the system goes through
the name first. Both come to the same place if every `..` leaves a directory that is no link (`ascends`), and then the
normal form has no `..` left and leads to the file that the path leads to (`find_normalize`).

A path is never shorter than its normal form, so a normal form can be looked up if the path can.
-/

namespace ModGraph

open ModGraph.Path (Component)

/-! ## Shorter spellings -/

theorem Text.join_sublist {sep : Char} {a b : List (List Char)} (h : a.Sublist b) :
    (join sep a).Sublist (join sep b) := by
  induction h with
  | slnil => exact .refl _
  | @cons a b piece h ih =>
    cases b with
    | nil =>
      rw [List.sublist_nil.mp h]
      exact List.nil_sublist _
    | cons next b => exact ih.trans ((List.sublist_cons_self _ _).trans (List.sublist_append_right _ _))
  | @cons_cons a b piece h ih =>
    cases a with
    | nil =>
      cases b with
      | nil => exact .refl _
      | cons next b => exact List.sublist_append_left _ _
    | cons first a =>
      cases b with
      | nil => cases h
      | cons next b => exact (ih.cons_cons sep).append_left piece

theorem utf8ByteSize_le_of_sublist {text text' : String} (h : text.toList.Sublist text'.toList) :
    text.utf8ByteSize ≤ text'.utf8ByteSize := by
  have hsize : ∀ {a b : List Char}, a.Sublist b → (String.ofList a).utf8ByteSize ≤ (String.ofList b).utf8ByteSize := by
    intro a b h
    induction h with
    | slnil => exact Nat.le_refl _
    | cons c _ ih =>
      rw [String.ofList_cons, String.utf8ByteSize_append]
      omega
    | cons_cons c _ ih =>
      rw [String.ofList_cons, String.ofList_cons, String.utf8ByteSize_append, String.utf8ByteSize_append]
      omega
  simpa [String.ofList_toList] using hsize h

namespace Path

/-- Normalization only leaves components out. -/
theorem foldl_normalStep_sublist (cs kept : List Component) :
    (cs.foldl normalStep kept).reverse.Sublist (kept.reverse ++ cs) := by
  induction cs generalizing kept with
  | nil => simp
  | cons c cs ih =>
    refine (ih _).trans ?_
    have hstep : (normalStep kept c).reverse.Sublist (kept.reverse ++ [c]) := by
      unfold normalStep
      split
      · exact List.sublist_append_left _ _
      · split
        · exact .refl _
        · exact .refl _
        · rw [List.reverse_cons, List.append_assoc]
          exact List.sublist_append_left _ _
      · simp
    simpa using hstep.append_right cs

theorem isAbsolute_iff {p : Path} : p.isAbsolute = true ↔ p.text.toList.head? = some '/' := by
  rw [isAbsolute, lead]
  generalize p.text.toList = cs
  unfold cutLead
  split
  · simp
  · simp
  · simp
  · next hcs _ _ =>
    cases cs with
    | nil => simp
    | cons c rest => simpa using fun hc => hcs rest (by rw [hc])

/-- The components behind the start of a path. -/
def steps (p : Path) : List Component := p.pieces.filterMap pieceComponent

theorem isStep_of_mem_steps {p : Path} : ∀ c ∈ p.steps, c.IsStep := fun _ hc => isStep_of_mem_pieces hc

/-- The steps are spelled as the pieces that are not noise. -/
theorem map_chars_steps (p : Path) : p.steps.map Component.chars = p.pieces.filter (!isNoise ·) := by
  have hslash : ∀ piece ∈ p.pieces, '/' ∉ piece := fun piece hpiece => Text.not_mem_of_mem_split hpiece
  unfold steps
  generalize p.pieces = pieces at hslash ⊢
  induction pieces with
  | nil => rfl
  | cons piece pieces ih =>
    have hrest := ih fun piece hpiece => hslash piece (List.mem_cons_of_mem _ hpiece)
    cases hnoise : isNoise piece with
    | true =>
      have hnone : pieceComponent piece = none := by rw [pieceComponent, if_pos hnoise]
      rw [List.filterMap_cons_none hnone, List.filter_cons_of_neg (by simp [hnoise]), hrest]
    | false =>
      obtain ⟨c, hc, -⟩ := pieceComponent_of_not_isNoise hnoise
      obtain ⟨-, hchars⟩ := isStep_of_piece (hslash piece List.mem_cons_self) hc
      rw [List.filterMap_cons_some hc, List.filter_cons_of_pos (by simp [hnoise]), List.map_cons, hchars, hrest]

/-- The names that normalization keeps, nearest first, and the root. -/
def kept (absolute : Bool) (names : List String) : List Component :=
  names.map .name ++ if absolute then [.root] else []

theorem ofComponents_kept (absolute : Bool) (names : List String) :
    ofComponents (kept absolute names).reverse = ofNames absolute names.reverse := by
  cases absolute <;> simp [kept, ofNames]

theorem normalStep_up (absolute : Bool) (name : String) (names : List String) :
    normalStep (kept absolute (name :: names)) .up = kept absolute names := by
  unfold normalStep
  cases names <;> rfl

theorem foldl_components (p : Path) : p.components.foldl normalStep [] =
    p.steps.foldl normalStep (kept p.isAbsolute []) := by
  rw [components, List.foldl_append, steps, isAbsolute]
  cases p.lead <;> rfl

/-- What a component is looked up under. -/
def Component.entry (c : Component) : String := String.ofList c.chars

/-- What stands at the start of a path is noise between its slashes. -/
theorem filter_split (p : Path) :
    (Text.split '/' p.text.toList).filter (!isNoise ·) = p.pieces.filter (!isNoise ·) := by
  unfold pieces
  generalize p.text.toList = cs
  unfold cutLead
  split
  · rw [Text.split, if_pos rfl]
    rfl
  · rfl
  · next rest =>
    obtain ⟨piece, pieces, hpieces⟩ := List.exists_cons_of_ne_nil (Text.split_ne_nil '/' rest)
    have hsplit : Text.split '/' ('.' :: '/' :: rest) = ['.'] :: Text.split '/' rest := by simp [Text.split]
    have hrest : Text.split '/' ('/' :: rest) = [] :: Text.split '/' rest := by simp [Text.split]
    rw [hsplit, hrest]
    rfl
  · rfl

/-- The names that a path is looked up by are its steps, apart from points. -/
theorem filter_steps (p : Path) : (FileSystem.steps p.text).filter (· ≠ ".") = p.steps.map Component.entry := by
  have hnames : (FileSystem.names p.text).filter (· ≠ ".") =
      ((Text.split '/' p.text.toList).filter (!isNoise ·)).map String.ofList := by
    rw [FileSystem.names, List.filter_map, List.filter_filter]
    congr 1
    apply List.filter_congr
    intro piece _
    have hpoint : String.ofList piece = "." ↔ piece = ['.'] := by rw [← String.toList_inj, String.toList_ofList]; rfl
    rw [Bool.eq_iff_iff]
    simp [isNoise, hpoint, and_comm]
  have hentries : p.steps.map Component.entry = (p.steps.map Component.chars).map String.ofList := by
    rw [List.map_map]
    rfl
  obtain ⟨last, hlast, rfl | rfl⟩ := FileSystem.steps_eq p.text
  all_goals
    rw [hlast, List.filter_append, hnames, filter_split, hentries, map_chars_steps]
    simp

end Path

namespace FileSystem

variable {fs : FileSystem} {links left left' : Nat} {loc mid found : Location} {name : String}
  {names rest : List String} {absolute : Bool}

/-! ## Ways without points -/

theorem Way.filter_points (h : Way fs links loc names left found) :
    Way fs links loc (names.filter (· ≠ ".")) left found := by
  induction names generalizing links loc with
  | nil => exact h
  | cons name rest ih =>
    obtain ⟨left', mid, hfront, hback⟩ := h.split (List.singleton_append.symm)
    by_cases hpoint : name = "."
    · rw [List.filter_cons_of_neg (by simpa using hpoint)]
      cases hfront with
      | here _ _ h =>
        cases h
        exact ih hback
      | up _ hname => exact absurd (hpoint.symm.trans hname) (by decide)
      | enters _ hname => exact absurd hpoint hname.dot
      | follows _ hname => exact absurd hpoint hname.dot
    · rw [List.filter_cons_of_pos (by simpa using hpoint)]
      exact hfront.append (ih hback)

/-! ## Going up -/

/-- Whether a path leads to a directory, and not over a link at its end. -/
def isPlainDirectory (fs : FileSystem) (p : Path) : Bool :=
  match fs.locate false p with
  | .ok loc => fs.isDirectoryAt loc
  | .error _ => false

/-- Whether `..` leaves a directory that is no link, and so takes the last name back that was kept. -/
def leaves (fs : FileSystem) (kept : List Component) : Bool :=
  match kept with
  | .name _ :: _ => fs.isPlainDirectory (Path.ofComponents kept.reverse)
  | _ => false

/-- Whether every `..` among some components leaves a directory that is no link. -/
def ascends (fs : FileSystem) (kept : List Component) : List Component → Bool
  | [] => true
  | c :: cs => (c != .up || fs.leaves kept) && fs.ascends (Path.normalStep kept c) cs

theorem walk_of_isPlainDirectory {p : Path} (h : fs.isPlainDirectory p = true) :
    ∃ loc, fs.walk false maxLinks (start fs.workingDirectory p.text) (steps p.text) = .ok loc ∧
      fs.isDirectoryAt loc = true := by
  unfold isPlainDirectory at h
  split at h
  · next loc hloc => exact ⟨loc, (locate_eq_ok_iff.mp hloc).2, h⟩
  · cases h

/-- Out of a directory that is no link the way leads back. -/
theorem Way.back (hnames : ∀ n ∈ name :: rest, (Component.name n).IsStep)
    (hplain : fs.isPlainDirectory (.ofNames absolute (name :: rest).reverse) = true)
    (h : Way fs maxLinks (fs.origin absolute) (name :: rest).reverse left mid) :
    Way fs maxLinks (fs.origin absolute) rest.reverse left mid.tail := by
  obtain ⟨-, -, hdot, hup⟩ := Path.isStep_name.mp (hnames name List.mem_cons_self)
  have hproper : ∀ n ∈ (name :: rest).reverse, (Component.name n).IsStep :=
    fun n hn => hnames n (List.mem_reverse.mp hn)
  obtain ⟨found, hfound, hdir⟩ := walk_of_isPlainDirectory hplain
  rw [start_ofNames hproper, steps_ofNames hproper (by simp), List.reverse_cons] at hfound
  rw [List.reverse_cons] at h
  obtain ⟨left', loc, hfront, hback⟩ := h.split rfl
  cases hback with
  | here _ hname => exact absurd hname hdot
  | up _ hname => exact absurd hname hup
  | enters _ _ _ _ h =>
    cases h
    exact hfront
  | follows hloc hname hnode =>
    -- then the path, its end not followed, would lead to a link
    have hwalk : fs.walk false maxLinks _ _ = _ := hfront.walk_concat hloc hname fun _ _ => rfl
    cases hfound.symm.trans hwalk
    rw [isDirectoryAt, hnode] at hdir
    cases hdir

/-- Normalization takes nothing from a way whose every `..` leaves a directory that is no link. -/
theorem Way.foldl_normalStep {cs : List Component} (hcs : ∀ c ∈ cs, c.IsStep)
    (hnames : ∀ n ∈ names, (Component.name n).IsStep)
    (hasc : fs.ascends (Path.kept absolute names) cs = true)
    (hkept : Way fs maxLinks (fs.origin absolute) names.reverse left mid)
    (hrest : Way fs left mid (cs.map Component.entry) left' found) :
    ∃ names', (∀ n ∈ names', (Component.name n).IsStep) ∧
      cs.foldl Path.normalStep (Path.kept absolute names) =
        Path.kept absolute names' ∧
      Way fs maxLinks (fs.origin absolute) names'.reverse left' found := by
  induction cs generalizing names left mid with
  | nil =>
    cases hrest
    exact ⟨names, hnames, rfl, hkept⟩
  | cons c cs ih =>
    have hcs' : ∀ c' ∈ cs, c'.IsStep := fun c' hc' => hcs c' (List.mem_cons_of_mem _ hc')
    have hstep := hcs c List.mem_cons_self
    rw [ascends, Bool.and_eq_true] at hasc
    obtain ⟨hleaves, hasc⟩ := hasc
    obtain ⟨left'', mid', hfront, hback⟩ := hrest.split (List.singleton_append.symm)
    cases c with
    | root => exact absurd hstep Path.not_isStep_root
    | here => exact absurd hstep.2 (by decide)
    | name n =>
      have hentry : (Component.name n).entry = n := String.ofList_toList
      rw [hentry] at hfront
      have hway : Way fs maxLinks (fs.origin absolute) (n :: names).reverse left'' mid' := by
        rw [List.reverse_cons]
        exact hkept.append hfront
      exact ih hcs' (List.forall_mem_cons.mpr ⟨hstep, hnames⟩) hasc hway hback
    | up =>
      cases names with
      | nil => cases absolute <;> cases hleaves
      | cons name rest =>
        rw [Path.normalStep_up] at hasc
        rw [List.foldl_cons, Path.normalStep_up]
        have hplain : fs.isPlainDirectory (.ofNames absolute (name :: rest).reverse) = true := by
          rw [← Path.ofComponents_kept]
          exact hleaves
        have hup := hkept.back hnames hplain
        cases hfront with
        | up _ _ h =>
          cases h
          exact ih hcs' (fun n hn => hnames n (List.mem_cons_of_mem _ hn)) hasc hup hback
        | here _ hname => exact absurd hname (by decide)
        | enters _ hname => exact absurd rfl hname.up
        | follows _ hname => exact absurd rfl hname.up

/-! ## Normal forms -/

theorem start_eq (p : Path) : start fs.workingDirectory p.text = fs.origin p.isAbsolute := by
  unfold start origin
  simp only [Path.isAbsolute_iff]

theorem ascends_components (p : Path) :
    fs.ascends [] p.components = fs.ascends (Path.kept p.isAbsolute []) p.steps := by
  rw [Path.components, Path.steps, Path.isAbsolute]
  cases p.lead <;> rfl

/-- A normal form that consists of names is a shorter spelling of the path. -/
theorem sublist_ofNames {p : Path} (h : p.components.foldl Path.normalStep [] = Path.kept p.isAbsolute names) :
    (Path.ofNames p.isAbsolute names.reverse).text.toList.Sublist p.text.toList := by
  have hnames : (names.reverse.map String.toList).Sublist p.pieces := by
    have hkept := Path.foldl_normalStep_sublist p.steps (Path.kept p.isAbsolute [])
    rw [← Path.foldl_components, h] at hkept
    have hsteps : (names.reverse.map Component.name).Sublist p.steps := by
      cases hp : p.isAbsolute <;> simpa [hp, Path.kept] using hkept
    have hchars := hsteps.map Component.chars
    rw [Path.map_chars_steps, List.map_map] at hchars
    exact hchars.trans List.filter_sublist
  have hspelled : p.text.toList = p.lead.chars ++ Text.join '/' p.pieces := by
    rw [Path.pieces, Text.join_split, Path.lead, Path.chars_cutLead]
  rw [Path.toList_ofNames, hspelled]
  apply List.Sublist.append _ (Text.join_sublist hnames)
  rw [Path.isAbsolute]
  cases p.lead <;> simp [Path.Lead.chars]

/-- The normal form of a path leads to the file that the path leads to, if every `..` leaves a directory that is no
link. It consists of names. -/
theorem find_normalize {p : Path} {content : ByteArray} (hasc : fs.ascends [] p.components = true)
    (h : fs.find p = .ok (loc, .file content)) :
    ∃ names, (∀ n ∈ names, (Component.name n).IsStep) ∧ p.normalize = .ofNames p.isAbsolute names ∧
      fs.find p.normalize = .ok (loc, .file content) := by
  obtain ⟨htext, hnode, left, hway⟩ := find_eq_ok_iff.mp h
  obtain ⟨hzero, hempty, hlength⟩ := checkedText_eq_ok_iff.mp htext
  rw [start_eq] at hway
  have hdir := hway.directory (steps_ne_nil hempty)
  have hpoints := hway.filter_points
  rw [Path.filter_steps] at hpoints
  rw [ascends_components] at hasc
  obtain ⟨names, hnames, hkept, hnormal⟩ :=
    Way.foldl_normalStep Path.isStep_of_mem_steps (by simp) hasc .done hpoints
  rw [← Path.foldl_components] at hkept
  have hproper : ∀ n ∈ names.reverse, (Component.name n).IsStep := fun n hn => hnames n (List.mem_reverse.mp hn)
  have heq : p.normalize = .ofNames p.isAbsolute names.reverse := by
    rw [Path.normalize, hkept, Path.ofComponents_kept]
  refine ⟨names.reverse, hproper, heq, ?_⟩
  have hne : names.reverse ≠ [] := by
    intro hnone
    rw [hnone] at hnormal
    -- the way would end where it starts, in a directory
    cases hnormal
    rw [isDirectoryAt, hnode] at hdir
    cases hdir
  have hsteps : steps p.normalize.text = names.reverse := by rw [heq, steps_ofNames hproper hne]
  have hshort := sublist_ofNames hkept
  rw [← heq] at hshort
  refine find_eq_ok_iff.mpr ⟨checkedText_eq_ok_iff.mpr ⟨fun hmem => hzero (hshort.subset hmem), ?_, ?_⟩, hnode, left, ?_⟩
  · intro hempty
    rw [hempty] at hsteps
    exact hne hsteps.symm
  · exact (utf8ByteSize_le_of_sublist hshort).trans hlength
  · rw [hsteps, heq, start_ofNames hproper]
    exact hnormal

end FileSystem

end ModGraph
