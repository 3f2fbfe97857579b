/-!
# Splitting texts

Sources are cut into lines, paths into names, lists of folders into folders: each time a text is cut at
one character. `split` does it and `join` undoes it. The main statements are `join_split`, that nothing
is lost; `split_append`, that cutting commutes with joining; and `length_split`, that there is one piece
more than there are cuts.
-/

namespace ModGraph.Text

/-- The pieces of a text between the occurrences of a character. -/
def split (sep : Char) : List Char → List (List Char)
  | [] => [[]]
  | c :: cs =>
    if c = sep then [] :: split sep cs
    else match split sep cs with
      | [] => [[c]]
      | l :: ls => (c :: l) :: ls

/-- Pieces with a character between them. -/
def join (sep : Char) : List (List Char) → List Char
  | [] => []
  | [l] => l
  | l :: l' :: ls => l ++ sep :: join sep (l' :: ls)

theorem split_ne_nil (sep : Char) (cs : List Char) : split sep cs ≠ [] := by
  cases cs with
  | nil => simp [split]
  | cons c cs =>
    unfold split
    split
    · simp
    · split <;> simp

theorem join_cons_cons (sep c : Char) (l : List Char) (ls : List (List Char)) :
    join sep ((c :: l) :: ls) = c :: join sep (l :: ls) := by
  cases ls <;> simp [join]

/-- Joining undoes splitting. -/
theorem join_split (sep : Char) (cs : List Char) : join sep (split sep cs) = cs := by
  induction cs with
  | nil => rfl
  | cons c cs ih =>
    cases hl : split sep cs with
    | nil => exact absurd hl (split_ne_nil sep cs)
    | cons l ls =>
      rw [hl] at ih
      by_cases hc : c = sep
      · simp [split, hc, hl, join, ih]
      · simp [split, hc, hl, join_cons_cons, ih]

/-- A text joined from two at the character has the pieces of the first, then those of the second. -/
theorem split_append (sep : Char) (a b : List Char) :
    split sep (a ++ sep :: b) = split sep a ++ split sep b := by
  induction a with
  | nil => simp [split]
  | cons c a ih =>
    by_cases hc : c = sep
    · simp [split, hc, ih]
    · cases hl : split sep a with
      | nil => exact absurd hl (split_ne_nil sep a)
      | cons l ls => simp [split, hc, ih, hl]

theorem length_split (sep : Char) (cs : List Char) :
    (split sep cs).length = cs.count sep + 1 := by
  induction cs with
  | nil => rfl
  | cons c cs ih =>
    by_cases hc : c = sep
    · simp [split, hc, ih]
    · cases hl : split sep cs with
      | nil => exact absurd hl (split_ne_nil sep cs)
      | cons l ls =>
        rw [hl] at ih
        have : split sep (c :: cs) = (c :: l) :: ls := by simp [split, hc, hl]
        rw [this, List.count_cons_of_ne (by simpa using hc)]
        simpa using ih

/-- No piece holds the character at which the text was cut. -/
theorem not_mem_of_mem_split {sep : Char} {cs piece : List Char} (h : piece ∈ split sep cs) :
    sep ∉ piece := by
  induction cs generalizing piece with
  | nil => simp_all [split]
  | cons c cs ih =>
    by_cases hc : c = sep
    · simp only [split, hc, if_true, List.mem_cons] at h
      rcases h with rfl | h
      · simp
      · exact ih h
    · cases hl : split sep cs with
      | nil => exact absurd hl (split_ne_nil sep cs)
      | cons l ls =>
        rw [hl] at ih
        simp only [split, hc, if_false, hl, List.mem_cons] at h
        rcases h with rfl | h
        · simp [Ne.symm hc, ih List.mem_cons_self]
        · exact ih (List.mem_cons_of_mem _ h)

/-- What a shorter list of pieces joins to is no longer. -/
theorem length_join_le_append (sep : Char) (a b : List (List Char)) :
    (join sep a).length ≤ (join sep (a ++ b)).length := by
  induction a with
  | nil => simp [join]
  | cons l a ih =>
    cases a with
    | nil => cases b <;> simp [join]
    | cons l' a =>
      simp only [List.cons_append, join, List.length_append, List.length_cons] at ih ⊢
      omega

/-- Without its last piece a text is shorter by at least that piece. -/
theorem length_join_concat (sep : Char) (a : List (List Char)) (l : List Char) :
    (join sep a).length + l.length ≤ (join sep (a ++ [l])).length := by
  induction a with
  | nil => simp [join]
  | cons l' a ih =>
    cases a with
    | nil => simp only [join, List.cons_append, List.nil_append, List.length_append,
        List.length_cons]; omega
    | cons l'' a =>
      simp only [List.cons_append, join, List.length_append, List.length_cons] at ih ⊢
      omega

end ModGraph.Text
