import ModGraph.Text.Word.Ranges
import ModGraph.Text.Blank

/-!
# Word characters

The names that statements bind are runs of word characters and dollar signs. `isWord` is the word
class of Unicode text (its members are listed in `Text.Word.Ranges`), `isNameChar` adds the dollar
sign. No character is both blank and part of a name (`isNameChar_of_isBlank`), so a name in a
statement ends where white space starts.
-/

namespace ModGraph.Text

/-- The block of the table in which a code point is looked up. -/
def wordBlock (n : Nat) : List (Nat × Nat) :=
  if n < 0x80 then Word.asciiRanges
  else if n < 0x600 then Word.alphabeticRanges
  else if n < 0xB00 then Word.abjadRanges
  else if n < 0x1000 then Word.indicRanges
  else if n < 0x2000 then Word.syllabicRanges
  else if n < 0xAC00 then Word.generalRanges
  else if n < 0x10000 then Word.basicRanges
  else if n < 0x11000 then Word.historicRanges
  else if n < 0x12000 then Word.brahmicRanges
  else Word.planeRanges

/-- Whether a character is a word character. -/
def isWord (c : Char) : Bool := inRanges (wordBlock c.toNat) c.toNat

/-- Whether a character can be part of a name: a word character or the dollar sign. -/
def isNameChar (c : Char) : Bool := isWord c || c == '$'

/-- A number in some range of a table is one of finitely many: the tables below are checked by
listing the members of the smaller one. -/
theorem inRanges_iff {ranges : List (Nat × Nat)} {n : Nat} :
    inRanges ranges n = true ↔ ∃ r ∈ ranges, r.1 ≤ n ∧ n ≤ r.2 := by
  simp [inRanges]

/-- White space is never part of a name. -/
theorem isNameChar_of_isBlank {c : Char} (h : isBlank c = true) : isNameChar c = false := by
  have all : ∀ r ∈ blankRanges, ∀ k < r.2 + 1 - r.1,
      inRanges (wordBlock (r.1 + k)) (r.1 + k) = false ∧ r.1 + k ≠ 36 := by decide
  obtain ⟨r, hr, hlo, hhi⟩ := inRanges_iff.1 h
  obtain ⟨k, hk⟩ := Nat.exists_eq_add_of_le hlo
  obtain ⟨hw, hd⟩ := all r hr k (by omega)
  rw [← hk] at hw hd
  have hne : c ≠ '$' := fun e => hd (by rw [e]; rfl)
  simp [isNameChar, isWord, hw, hne]

end ModGraph.Text
