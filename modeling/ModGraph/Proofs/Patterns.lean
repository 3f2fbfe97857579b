import Mathlib.Data.List.Basic
import ModGraph.Source.Form

/-!
# Patterns of statements

The eight statements of the language, each as a pattern: a set of words, with the parts that are captured. A pattern says
nothing of how it is searched for. A repetition takes any number of turns and a choice any of its branches
(`Pattern.Matches`), so that a text may belong to a pattern in several ways.
-/

namespace ModGraph.Source

open Text (isBlank isNameChar)
open Form (isQuote)

/-- A pattern. -/
inductive Pattern where
  /-- One character out of a set. -/
  | set (p : Char → Bool)
  /-- The empty text. -/
  | nothing
  /-- One pattern behind the other. -/
  | append (a b : Pattern)
  /-- One of two patterns. -/
  | either (a b : Pattern)
  /-- A pattern any number of times. -/
  | many (a : Pattern)
  /-- A pattern whose text is captured under a number. -/
  | group (n : Nat) (a : Pattern)

/-- The texts that are captured, each with its number. -/
abbrev Captures := List (Nat × List Char)

namespace Pattern

/-- A text belongs to a pattern, in a way that captures some texts. -/
inductive Matches : Pattern → List Char → Captures → Prop where
  | set {p : Char → Bool} {c : Char} (h : p c = true) : Matches (.set p) [c] []
  | nothing : Matches .nothing [] []
  | append {a b : Pattern} {s t : List Char} {cs ds : Captures} (ha : Matches a s cs) (hb : Matches b t ds) :
      Matches (.append a b) (s ++ t) (cs ++ ds)
  | left {a b : Pattern} {t : List Char} {cs : Captures} (h : Matches a t cs) : Matches (.either a b) t cs
  | right {a b : Pattern} {t : List Char} {cs : Captures} (h : Matches b t cs) : Matches (.either a b) t cs
  | done {a : Pattern} : Matches (.many a) [] []
  | more {a : Pattern} {s t : List Char} {cs ds : Captures} (ha : Matches a s cs) (hmore : Matches (.many a) t ds) :
      Matches (.many a) (s ++ t) (cs ++ ds)
  | group {n : Nat} {a : Pattern} {t : List Char} {cs : Captures} (h : Matches a t cs) :
      Matches (.group n a) t ((n, t) :: cs)

/-! ## Patterns made of others -/

/-- Some patterns, one behind the other. -/
def sequence : List Pattern → Pattern
  | [] => .nothing
  | a :: as => .append a (sequence as)

/-- A word. -/
def word (w : String) : Pattern := sequence (w.toList.map fun c => .set (· == c))

/-- A pattern once or more. -/
def plus (a : Pattern) : Pattern := .append a (.many a)

/-- A pattern once or not at all. -/
def maybe (a : Pattern) : Pattern := .either a .nothing

/-- White space, or none. -/
def blanks : Pattern := .many (.set isBlank)

/-- White space. -/
def gap : Pattern := plus (.set isBlank)

/-- A name. -/
def name : Pattern := plus (.set isNameChar)

/-- A quotation mark. -/
def quote : Pattern := .set isQuote

/-- Something that stands on one line. -/
def line : Pattern := plus (.set (· != '\n'))

/-! ## The statements -/

/-- The word that a binding starts with. -/
def binder : Pattern := .either (word "const") (.either (word "let") (word "var"))

/-- A default binding of an import clause. -/
def defaultBinding : Pattern := sequence [name, blanks, maybe (word ","), blanks]

/-- The named bindings of an import clause. -/
def namedBindings : Pattern := sequence [word "\x7b", .many (.set (· != '}')), word "\x7d", blanks]

/-- The namespace binding of an import clause. -/
def namespaceBinding : Pattern := sequence [word "*", blanks, word "as", gap, name, blanks]

/-- An import clause. -/
def clause : Pattern :=
  sequence [maybe defaultBinding, maybe namedBindings, maybe namespaceBinding, word "from", blanks]

end Pattern

/-- The forms of statements. -/
inductive Shape where
  | imports
  | exportBinding
  | exportDefault
  | exportsAssign
  | moduleExports
  | declaration
  | throws
  | requires
deriving DecidableEq, Repr

open Pattern in
/-- The pattern of a form. -/
def Shape.pattern : Shape → Pattern
  | imports => sequence [word "import", blanks, maybe clause, quote, .group 1 (plus (.set (!isQuote ·))), quote]
  | exportBinding =>
    sequence [word "export", gap, binder, gap, .group 1 name, blanks, word "=", blanks, .group 2 line]
  | exportDefault => sequence [word "export", gap, word "default", gap, .group 1 line]
  | exportsAssign =>
    sequence [maybe (word "module."), word "exports.", .group 1 name, blanks, word "=", blanks, .group 2 line]
  | moduleExports => sequence [word "module.exports", blanks, word "=", blanks, .group 1 line]
  | declaration => sequence [binder, gap, name, blanks, word "=", blanks, .group 1 line]
  | throws =>
    sequence [word "throw", gap, .either
      (sequence [word "new", gap, word "Error(", blanks, quote, .group 1 (.many (.set (!isQuote ·))), quote, blanks,
        word ")"])
      (sequence [quote, .group 2 (.many (.set (!isQuote ·))), quote])]
  | requires =>
    sequence [word "require(", blanks, quote, .group 1 (plus (.set (!isQuote ·))), quote, blanks, word ")",
      maybe (sequence [word ".", .group 2 name])]

/-! ## Words of patterns -/

/-- All characters of a text are in a set. -/
def Run (p : Char → Bool) (t : List Char) : Prop := ∀ c ∈ t, p c = true

instance (p : Char → Bool) (t : List Char) : Decidable (Run p t) := decidable_of_iff (t.all p = true) List.all_eq_true

namespace Pattern

variable {p : Char → Bool} {a b : Pattern} {as : List Pattern} {n : Nat} {t : List Char} {cs : Captures}

theorem matches_set : (set p).Matches t cs ↔ ∃ c, t = [c] ∧ p c = true ∧ cs = [] := by
  constructor
  · rintro ⟨h⟩
    exact ⟨_, rfl, h, rfl⟩
  · rintro ⟨c, rfl, h, rfl⟩
    exact .set h

theorem matches_nothing : nothing.Matches t cs ↔ t = [] ∧ cs = [] := by
  constructor
  · rintro ⟨⟩
    exact ⟨rfl, rfl⟩
  · rintro ⟨rfl, rfl⟩
    exact .nothing

theorem matches_append : (append a b).Matches t cs ↔
    ∃ s u ds es, t = s ++ u ∧ cs = ds ++ es ∧ a.Matches s ds ∧ b.Matches u es := by
  constructor
  · rintro (_ | _ | ⟨ha, hb⟩)
    exact ⟨_, _, _, _, rfl, rfl, ha, hb⟩
  · rintro ⟨s, u, ds, es, rfl, rfl, ha, hb⟩
    exact .append ha hb

theorem matches_either : (either a b).Matches t cs ↔ a.Matches t cs ∨ b.Matches t cs := by
  constructor
  · intro h
    cases h with
    | left h => exact .inl h
    | right h => exact .inr h
  · rintro (h | h)
    · exact .left h
    · exact .right h

theorem matches_maybe : (maybe a).Matches t cs ↔ a.Matches t cs ∨ t = [] ∧ cs = [] := by
  rw [maybe, matches_either, matches_nothing]

theorem matches_group : (group n a).Matches t cs ↔ ∃ ds, cs = (n, t) :: ds ∧ a.Matches t ds := by
  constructor
  · intro h
    cases h with
    | group h => exact ⟨_, rfl, h⟩
  · rintro ⟨ds, rfl, h⟩
    exact .group h

theorem matches_many : (many (set p)).Matches t cs ↔ Run p t ∧ cs = [] := by
  constructor
  · intro h
    generalize hq : many (set p) = q at h
    induction h with
    | done => exact ⟨nofun, rfl⟩
    | more hset _ _ ih =>
      cases hq
      obtain ⟨c, rfl, hc, rfl⟩ := matches_set.mp hset
      obtain ⟨hrun, rfl⟩ := ih rfl
      exact ⟨by simpa [Run, hc] using hrun, rfl⟩
    | _ => cases hq
  · rintro ⟨hrun, rfl⟩
    induction t with
    | nil => exact .done
    | cons c t ih =>
      obtain ⟨hc, hrest⟩ := List.forall_mem_cons.mp hrun
      exact .more (.set hc) (ih hrest)

theorem matches_plus : (plus (set p)).Matches t cs ↔ t ≠ [] ∧ Run p t ∧ cs = [] := by
  simp only [plus, matches_append, matches_set, matches_many]
  constructor
  · rintro ⟨s, u, ds, es, rfl, rfl, ⟨c, rfl, hc, rfl⟩, hrun, rfl⟩
    exact ⟨by simp, by simpa [Run, hc] using hrun, rfl⟩
  · rintro ⟨hne, hrun, rfl⟩
    obtain ⟨c, u, rfl⟩ := List.exists_cons_of_ne_nil hne
    obtain ⟨hc, hrest⟩ := List.forall_mem_cons.mp hrun
    exact ⟨[c], u, [], [], rfl, rfl, ⟨c, rfl, hc, rfl⟩, hrest, rfl⟩

theorem matches_word (w : String) : (word w).Matches t cs ↔ t = w.toList ∧ cs = [] := by
  unfold word
  induction w.toList generalizing t cs with
  | nil => exact matches_nothing
  | cons c w ih =>
    simp only [List.map_cons, sequence, matches_append, matches_set, ih]
    constructor
    · rintro ⟨s, u, ds, es, rfl, rfl, ⟨d, rfl, hd, rfl⟩, rfl, rfl⟩
      obtain rfl : d = c := by simpa using hd
      exact ⟨rfl, rfl⟩
    · rintro ⟨rfl, rfl⟩
      exact ⟨[c], w, [], [], rfl, rfl, ⟨c, rfl, by simp, rfl⟩, rfl, rfl⟩

/-- A pattern that captures nothing. -/
def bare : Pattern → Bool
  | set _ | nothing => true
  | append a b | either a b => a.bare && b.bare
  | many a => a.bare
  | group _ _ => false

theorem Matches.of_bare (h : a.Matches t cs) (ha : a.bare = true) : cs = [] := by
  induction h with
  | set | nothing | done => rfl
  | append _ _ iha ihb =>
    simp only [bare, Bool.and_eq_true] at ha
    rw [iha ha.1, ihb ha.2, List.append_nil]
  | left _ ih =>
    simp only [bare, Bool.and_eq_true] at ha
    exact ih ha.1
  | right _ ih =>
    simp only [bare, Bool.and_eq_true] at ha
    exact ih ha.2
  | more _ _ ih ihmore => rw [ih ha, ihmore ha, List.append_nil]
  | group => cases ha

theorem matches_bare (ha : a.bare = true) : a.Matches t cs ↔ a.Matches t [] ∧ cs = [] := by
  constructor
  · intro h
    obtain rfl := h.of_bare ha
    exact ⟨h, rfl⟩
  · rintro ⟨h, rfl⟩
    exact h

/-! ## Words of sequences -/

/-- A part that captures nothing. -/
theorem sequence_cons {P : List Char → Prop} (ha : ∀ {s ds}, a.Matches s ds ↔ P s ∧ ds = []) :
    (sequence (a :: as)).Matches t cs ↔ ∃ s u, t = s ++ u ∧ P s ∧ (sequence as).Matches u cs := by
  rw [sequence, matches_append]
  constructor
  · rintro ⟨s, u, ds, es, rfl, rfl, hs, hu⟩
    obtain ⟨hP, rfl⟩ := ha.mp hs
    exact ⟨s, u, rfl, hP, hu⟩
  · rintro ⟨s, u, rfl, hs, hu⟩
    exact ⟨s, u, [], cs, rfl, rfl, ha.mpr ⟨hs, rfl⟩, hu⟩

/-- A part that is captured. -/
theorem sequence_group {P : List Char → Prop} (ha : ∀ {s ds}, a.Matches s ds ↔ P s ∧ ds = []) :
    (sequence (group n a :: as)).Matches t cs ↔
      ∃ s u ds, t = s ++ u ∧ cs = (n, s) :: ds ∧ P s ∧ (sequence as).Matches u ds := by
  rw [sequence, matches_append]
  constructor
  · rintro ⟨s, u, ds, es, rfl, rfl, hs, hu⟩
    obtain ⟨_, rfl, hinner⟩ := matches_group.mp hs
    obtain ⟨hP, rfl⟩ := ha.mp hinner
    exact ⟨s, u, es, rfl, rfl, hP, hu⟩
  · rintro ⟨s, u, ds, rfl, rfl, hs, hu⟩
    exact ⟨s, u, [(n, s)], ds, rfl, rfl, matches_group.mpr ⟨[], rfl, ha.mpr ⟨hs, rfl⟩⟩, hu⟩

theorem sequence_nil : (sequence []).Matches t cs ↔ t = [] ∧ cs = [] := matches_nothing

theorem sequence_singleton : (sequence [a]).Matches t cs ↔ a.Matches t cs := by
  simp only [sequence, matches_append, matches_nothing]
  constructor
  · rintro ⟨s, _, ds, _, rfl, rfl, ha, rfl, rfl⟩
    rwa [List.append_nil, List.append_nil]
  · intro ha
    exact ⟨t, [], cs, [], (List.append_nil t).symm, (List.append_nil cs).symm, ha, rfl, rfl⟩

theorem sequence_word {w : String} :
    (sequence (word w :: as)).Matches t cs ↔ ∃ u, t = w.toList ++ u ∧ (sequence as).Matches u cs := by
  rw [sequence_cons (matches_word w)]
  constructor
  · rintro ⟨s, u, rfl, rfl, hu⟩
    exact ⟨u, rfl, hu⟩
  · rintro ⟨u, rfl, hu⟩
    exact ⟨_, u, rfl, rfl, hu⟩

theorem sequence_blanks : (sequence (blanks :: as)).Matches t cs ↔
    ∃ s u, t = s ++ u ∧ Run isBlank s ∧ (sequence as).Matches u cs := sequence_cons matches_many

theorem sequence_gap : (sequence (gap :: as)).Matches t cs ↔
    ∃ s u, t = s ++ u ∧ (s ≠ [] ∧ Run isBlank s) ∧ (sequence as).Matches u cs :=
  sequence_cons (by simp [gap, matches_plus, and_assoc])

theorem sequence_name : (sequence (name :: as)).Matches t cs ↔
    ∃ s u, t = s ++ u ∧ (s ≠ [] ∧ Run isNameChar s) ∧ (sequence as).Matches u cs :=
  sequence_cons (by simp [name, matches_plus, and_assoc])

theorem sequence_quote : (sequence (quote :: as)).Matches t cs ↔
    ∃ q u, t = q :: u ∧ isQuote q = true ∧ (sequence as).Matches u cs := by
  have hquote : ∀ {s ds}, quote.Matches s ds ↔ (∃ q, s = [q] ∧ isQuote q = true) ∧ ds = [] := by
    intro s ds
    rw [quote, matches_set]
    simp [← and_assoc]
  rw [sequence_cons hquote]
  constructor
  · rintro ⟨_, u, rfl, ⟨q, rfl, hq⟩, hu⟩
    exact ⟨q, u, rfl, hq, hu⟩
  · rintro ⟨q, u, rfl, hq, hu⟩
    exact ⟨[q], u, rfl, ⟨q, rfl, hq⟩, hu⟩

theorem sequence_groupName : (sequence (group n name :: as)).Matches t cs ↔
    ∃ s u ds, t = s ++ u ∧ cs = (n, s) :: ds ∧ (s ≠ [] ∧ Run isNameChar s) ∧ (sequence as).Matches u ds :=
  sequence_group (by simp [name, matches_plus, and_assoc])

theorem sequence_groupPlus : (sequence (group n (plus (set p)) :: as)).Matches t cs ↔
    ∃ s u ds, t = s ++ u ∧ cs = (n, s) :: ds ∧ (s ≠ [] ∧ Run p s) ∧ (sequence as).Matches u ds :=
  sequence_group (by simp [matches_plus, and_assoc])

theorem sequence_groupMany : (sequence (group n (many (set p)) :: as)).Matches t cs ↔
    ∃ s u ds, t = s ++ u ∧ cs = (n, s) :: ds ∧ Run p s ∧ (sequence as).Matches u ds :=
  sequence_group matches_many

/-- The word that a binding starts with. -/
def IsBinder (k : List Char) : Prop := k = "const".toList ∨ k = "let".toList ∨ k = "var".toList

theorem sequence_binder : (sequence (binder :: as)).Matches t cs ↔
    ∃ k u, t = k ++ u ∧ IsBinder k ∧ (sequence as).Matches u cs := by
  refine sequence_cons fun {s ds} => ?_
  simp only [binder, matches_either, matches_word, IsBinder, or_and_right]

theorem sequence_maybeWord {w : String} : (sequence (maybe (word w) :: as)).Matches t cs ↔
    ∃ u, (t = w.toList ++ u ∨ t = u) ∧ (sequence as).Matches u cs := by
  have hmaybe : ∀ {s ds}, (maybe (word w)).Matches s ds ↔ (s = w.toList ∨ s = []) ∧ ds = [] := by
    intro s ds
    rw [matches_maybe, matches_word, or_and_right]
  rw [sequence_cons hmaybe]
  constructor
  · rintro ⟨_, u, rfl, rfl | rfl, hu⟩
    · exact ⟨u, .inl rfl, hu⟩
    · exact ⟨u, .inr rfl, hu⟩
  · rintro ⟨u, rfl | rfl, hu⟩
    · exact ⟨_, u, rfl, .inl rfl, hu⟩
    · exact ⟨[], _, rfl, .inr rfl, hu⟩

/-- The parts of an import clause capture nothing. -/
theorem sequence_bare (ha : a.bare = true) : (sequence (a :: as)).Matches t cs ↔
    ∃ s u, t = s ++ u ∧ a.Matches s [] ∧ (sequence as).Matches u cs := sequence_cons (matches_bare ha)

/-- A text with an equals sign in it, white space around the sign, and a value behind it. -/
theorem sequence_assigned : (sequence [blanks, word "=", blanks, group n line]).Matches t cs ↔
    ∃ s s' v, t = s ++ '=' :: (s' ++ v) ∧ cs = [(n, v)] ∧ Run isBlank s ∧ Run isBlank s' ∧
      v ≠ [] ∧ Run (· != '\n') v := by
  simp only [sequence_blanks, sequence_word, line, sequence_groupPlus, sequence_nil]
  constructor
  · rintro ⟨s, _, rfl, hs, _, rfl, s', _, rfl, hs', v, _, _, rfl, rfl, ⟨hne, hv⟩, rfl, rfl⟩
    exact ⟨s, s', v, by simp, rfl, hs, hs', hne, hv⟩
  · rintro ⟨s, s', v, rfl, rfl, hs, hs', hne, hv⟩
    exact ⟨s, _, rfl, hs, _, rfl, s', _, rfl, hs', v, [], [], by simp, rfl, ⟨hne, hv⟩, rfl, rfl⟩

end Pattern
end ModGraph.Source
