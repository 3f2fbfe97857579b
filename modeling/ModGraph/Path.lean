import ModGraph.Text.Split

/-!
# Paths

A path is a text that is shown as it is spelled. It reads as a sequence of components: the root, the
directory itself, the directory above, and names. Repeated slashes and single points between names
do not count, so differently spelled paths can have the same components.

`Path.parent` takes the last component off, `Path.ancestors` repeats that up to the root, and
`Path.join` goes the other way. `Path.normalize` works on the components and removes every `.` and, as
far as it can, every `..`; nothing here looks at a file system.
-/

namespace ModGraph

open Text (split join)

/-- A path, as it is spelled. -/
structure Path where
  /-- The spelling. -/
  text : String
deriving DecidableEq, Repr, Inhabited

namespace Path

/-- A part of a path. -/
inductive Component where
  /-- The root directory. -/
  | root
  /-- The directory itself, at the start of a relative path. -/
  | here
  /-- The directory above. -/
  | up
  /-- The name of a directory's entry. -/
  | name (n : String)
deriving DecidableEq, Repr, Inhabited

/-- How a path starts: at the root, at the directory itself, or right away with its names. -/
inductive Lead where
  | root
  | here
  | plain
deriving DecidableEq, Repr

/-- The spelling of a start. -/
def Lead.chars : Lead → List Char
  | root => ['/']
  | here => ['.']
  | plain => []

/-- The component of a start. -/
def Lead.component? : Lead → Option Component
  | root => some .root
  | here => some .here
  | plain => none

/-- The start of a spelling, and what follows it. -/
def cutLead : List Char → Lead × List Char
  | '/' :: rest => (.root, rest)
  | ['.'] => (.here, [])
  | '.' :: '/' :: rest => (.here, '/' :: rest)
  | cs => (.plain, cs)

theorem chars_cutLead (cs : List Char) : (cutLead cs).1.chars ++ (cutLead cs).2 = cs := by
  unfold cutLead
  split <;> rfl

/-- How the path starts. -/
def lead (p : Path) : Lead := (cutLead p.text.toList).1

/-- The pieces between the slashes behind the start. -/
def pieces (p : Path) : List (List Char) := split '/' (cutLead p.text.toList).2

/-- Whether a piece stands for no component. -/
def isNoise (piece : List Char) : Bool := piece.isEmpty || piece == ['.']

/-- The component of a piece. -/
def pieceComponent (piece : List Char) : Option Component :=
  if isNoise piece then none
  else if piece = ['.', '.'] then some .up
  else some (.name (String.ofList piece))

/-- The components of a path. -/
def components (p : Path) : List Component :=
  p.lead.component?.toList ++ p.pieces.filterMap pieceComponent

/-- Whether a path starts at the root. -/
def isAbsolute (p : Path) : Bool := p.lead == .root

/-! ### Composing -/

/-- Put a path behind another: an absolute one replaces it, and a slash is added where there is none. -/
def join (p q : Path) : Path :=
  if q.isAbsolute then q
  else
    let base := p.text.toList
    let slash := if base.isEmpty || base.getLast? == some '/' then [] else ['/']
    ⟨String.ofList (base ++ slash ++ q.text.toList)⟩

/-- Lengthen the spelling of a path, as an extension does. -/
def append (p : Path) (suffix : String) : Path := ⟨p.text ++ suffix⟩

/-- The spelling of a component. -/
def Component.chars : Component → List Char
  | root => ['/']
  | here => ['.']
  | up => ['.', '.']
  | name n => n.toList

/-- The path of a sequence of components. -/
def ofComponents : List Component → Path
  | .root :: rest => ⟨String.ofList ('/' :: Text.join '/' (rest.map Component.chars))⟩
  | cs => ⟨String.ofList (Text.join '/' (cs.map Component.chars))⟩

/-! ### Taking apart -/

/-- The pieces of a path from its last component on backwards. -/
def backPieces (p : Path) : List (List Char) := p.pieces.reverse.dropWhile isNoise

/-- The last component, if it is a name. -/
def fileName (p : Path) : Option String :=
  match p.backPieces with
  | [] => none
  | piece :: _ => if piece = ['.', '.'] then none else some (String.ofList piece)

/-- The text behind the last point of a name, if something stands before that point. -/
def nameExtension (n : String) : Option String :=
  let back := n.toList.reverse
  match back.dropWhile (· ≠ '.') with
  | '.' :: _ :: _ => some (String.ofList (back.takeWhile (· ≠ '.')).reverse)
  | _ => none

/-- The extension of the last component, without its point. -/
def extension (p : Path) : Option String := p.fileName.bind nameExtension

/-- The path without its last component; neither the root nor the empty path has one. -/
def parent (p : Path) : Option Path :=
  match p.backPieces with
  | _ :: above =>
    some ⟨String.ofList (p.lead.chars ++ Text.join '/' (above.dropWhile isNoise).reverse)⟩
  | [] =>
    match p.lead with
    | .here => some ⟨""⟩
    | _ => none

/-- The directory that holds what a path names; at the top that is the root. -/
def directory (p : Path) : Path := p.parent.getD ⟨"/"⟩

theorem reverse_dropWhile_prefix (q : List Char → Bool) (l : List (List Char)) :
    ∃ dropped, l = (l.reverse.dropWhile q).reverse ++ dropped := by
  refine ⟨(l.reverse.takeWhile q).reverse, ?_⟩
  rw [← List.reverse_append, List.takeWhile_append_dropWhile, List.reverse_reverse]

theorem text_length (p : Path) :
    p.text.toList.length = p.lead.chars.length + (Text.join '/' p.pieces).length := by
  rw [pieces, Text.join_split, ← List.length_append]
  exact congrArg List.length (chars_cutLead p.text.toList).symm

theorem isNoise_of_head_dropWhile {l : List (List Char)} {piece : List Char}
    {above : List (List Char)} (h : l.dropWhile isNoise = piece :: above) : isNoise piece = false := by
  have := List.head?_dropWhile_not isNoise l
  rw [h] at this
  simpa using this

/-- A parent is spelled with fewer characters. -/
theorem length_parent_lt {p q : Path} (h : p.parent = some q) :
    q.text.toList.length < p.text.toList.length := by
  rw [text_length p]
  unfold parent at h
  split at h
  · next piece above hb =>
    obtain rfl := Option.some.inj h
    have hnoise := isNoise_of_head_dropWhile hb
    have hpos : 0 < piece.length := by
      cases piece with
      | nil => simp [isNoise] at hnoise
      | cons => simp
    obtain ⟨d₁, h₁⟩ := reverse_dropWhile_prefix isNoise p.pieces
    obtain ⟨d₂, h₂⟩ := reverse_dropWhile_prefix isNoise above.reverse
    have hb' : p.pieces.reverse.dropWhile isNoise = piece :: above := hb
    rw [hb', List.reverse_cons] at h₁
    rw [List.reverse_reverse] at h₂
    have l₁ := Text.length_join_le_append '/' (above.reverse ++ [piece]) d₁
    rw [← h₁] at l₁
    have l₂ := Text.length_join_concat '/' above.reverse piece
    have l₃ := Text.length_join_le_append '/' (above.dropWhile isNoise).reverse d₂
    rw [← h₂] at l₃
    simp only [String.toList_ofList, List.length_append]
    omega
  · split at h
    · next hl =>
      obtain rfl := Option.some.inj h
      simp only [hl, Lead.chars, String.toList_empty, List.length_nil, List.length_cons]
      omega
    · cases h

/-- The path and everything above it, nearest first. -/
def ancestors (p : Path) : List Path :=
  p :: (match _h : p.parent with
    | none => []
    | some q => ancestors q)
termination_by p.text.toList.length
decreasing_by exact length_parent_lt _h

theorem ancestors_eq (p : Path) :
    p.ancestors = p :: (p.parent.map ancestors).getD [] := by
  rw [ancestors]
  split <;> simp_all

/-! ### Normal form -/

/-- Take one more component into a sequence that is kept backwards. The directory itself is left out;
the directory above removes what came last, and stays if nothing can be removed. -/
def normalStep (kept : List Component) (c : Component) : List Component :=
  match c with
  | .here => kept
  | .up =>
    match kept with
    | [] => [.up]
    | [.root] => [.up, .root]
    | _ :: kept => kept
  | c => c :: kept

/-- The path without `.` and, as far as something can be removed, without `..`. -/
def normalize (p : Path) : Path :=
  ofComponents (p.components.foldl normalStep []).reverse

/-- The path as seen from a working directory. Repeated slashes and points are left out, but two
slashes at the start and one at the end keep their meaning. The empty path names nothing. -/
def absolute? (p workingDirectory : Path) : Option Path :=
  let cs := p.text.toList
  let names := p.components.filter (· ≠ .here)
  let base : Option Path :=
    match cs with
    | [] => none
    | ['/', '/'] => some ⟨"//"⟩
    | '/' :: '/' :: c :: _ => some (if c = '/' then ⟨"/"⟩ else ⟨"//"⟩)
    | '/' :: _ => some ⟨"/"⟩
    | _ => some workingDirectory
  base.map fun base =>
    let full := (names.filter (· ≠ .root)).foldl (fun p c => p.join ⟨String.ofList c.chars⟩) base
    if cs.getLast? = some '/' then full.join ⟨""⟩ else full

/-! ### Module folders -/

/-- The name of the folders in which packages are looked up. -/
def moduleFolder : String := "node_modules"

/-- The module folders beside a directory and everything above it. Module folders themselves have none
beside them. -/
def moduleFolders (dir : Path) : List Path :=
  (dir.ancestors.filter fun d => d.fileName != some moduleFolder).map fun d => d.join ⟨moduleFolder⟩

end Path

end ModGraph
