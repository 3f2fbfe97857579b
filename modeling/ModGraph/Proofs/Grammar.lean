import ModGraph.Proofs.Recognisers

/-!
# Statements and their patterns

Statements are read as their patterns say (`scan_iff_matches`): a trimmed line belongs to one pattern at most, every way
in which it belongs to that captures the same texts but for white space around them, and the statement is made of these;
a line that belongs to none is refused.
-/

namespace ModGraph.Source

open Text (isBlank isNameChar trimStart trimEnd trim)
open Form

/-! ## Statements of captures -/

namespace Captures

/-- The text that was captured under a number. -/
def get (cs : Captures) (n : Nat) : List Char := (cs.lookup n).getD []

/-- The same as a string. -/
def text (cs : Captures) (n : Nat) : String := String.ofList (cs.get n)

/-- Captures without the white space around their texts. -/
def trimmed (cs : Captures) : Captures := cs.map fun c => (c.1, trim c.2)

end Captures

/-- The expression that is made of the captures of a request. -/
def Captures.request (cs : Captures) : Expr := .require (cs.text 1) ((cs.lookup 2).map String.ofList)

/-- The statement that is made of captures. -/
def Shape.statement (cs : Captures) : Shape → Except LineFault Statement
  | imports => .ok (.imports (cs.text 1))
  | exportBinding => (Expr.scan (cs.get 2)).map (.exports (cs.text 1))
  | exportDefault => (Expr.scan (cs.get 1)).map (.exports "default")
  | exportsAssign => (Expr.scan (cs.get 2)).map (.assigns (some (cs.text 1)))
  | moduleExports => (Expr.scan (cs.get 1)).map (.assigns none)
  | declaration => (Expr.scan (cs.get 1)).map .evaluates
  | throws => .ok (.throws (String.ofList ((cs.lookup 1 <|> cs.lookup 2).getD [])))
  | requires => .ok (.evaluates cs.request)

/-! ## Captures of recognisers -/

/-- What the recogniser of a form takes, as captures. -/
def Shape.taken (t : List Char) : Shape → Option Captures
  | imports => (import? t).map fun x => [(1, x)]
  | exportBinding => (exportBinding? t).map fun r => [(1, r.1), (2, r.2)]
  | exportDefault => (exportDefault? t).map fun v => [(1, v)]
  | exportsAssign => (exportsAssign? t).map fun r => [(1, r.1), (2, r.2)]
  | moduleExports => (moduleExports? t).map fun v => [(1, v)]
  | declaration => (declaration? t).map fun v => [(1, v)]
  | throws => (throw? t).map fun x => [(if t.getLast? = some ')' then 1 else 2, x)]
  | requires => (require? t).map fun r => (1, r.1) :: (r.2.map (2, ·)).toList

/-- Captures that differ in white space around their texts only, and in no way that a statement shows. -/
structure Alike (s : Shape) (cs ds : Captures) : Prop where
  trimmed : cs.trimmed = ds.trimmed
  statement : s.statement cs = s.statement ds

theorem Alike.refl (s : Shape) (cs : Captures) : Alike s cs cs := ⟨rfl, rfl⟩

theorem scan_trimStart (v : List Char) : Expr.scan (trimStart v) = Expr.scan v := by
  rw [Expr.scan, Expr.scan, trim_trimStart]

/-! ## Forms without a value -/

open Pattern

variable {s : Shape} {t x v : List Char} {cs ds : Captures}

theorem taken_imports : Shape.imports.taken t = some cs ↔ Shape.imports.pattern.Matches t cs := by
  simp only [Shape.taken, Option.map_eq_some_iff, import?_eq_some_iff, Shape.pattern, sequence_word, sequence_blanks,
    sequence_bare (a := maybe clause) rfl, sequence_quote, sequence_groupPlus, sequence_nil, isClause_iff]
  constructor
  · rintro ⟨x, ⟨_, q, q', rfl, ⟨s, u, rfl, hs, hu⟩, hq, hq', hx⟩, rfl⟩
    exact ⟨_, rfl, s, _, by simp, hs, u, _, rfl, hu, q, _, rfl, hq, x, [q'], [], rfl, rfl, hx, q', [], rfl, hq', rfl, rfl⟩
  · rintro ⟨_, rfl, s, _, rfl, hs, u, _, rfl, hu, q, _, rfl, hq, x, _, _, rfl, rfl, hx, q', _, rfl, hq', rfl, rfl⟩
    exact ⟨x, ⟨s ++ u, q, q', by simp, ⟨s, u, rfl, hs, hu⟩, hq, hq', hx⟩, rfl⟩

theorem taken_throws : Shape.throws.taken t = some cs ↔ Shape.throws.pattern.Matches t cs := by
  have hnew : ∀ u : List Char, (sequence [Pattern.word "new", gap, Pattern.word "Error(", blanks, quote,
      .group 1 (many (.set (!isQuote ·))), quote, blanks, Pattern.word ")"]).Matches u cs ↔
      ∃ s₁ s₂ s₃ y x z, u = "new".toList ++ (s₁ ++ ("Error(".toList ++ (s₂ ++ y))) ∧ (s₁ ≠ [] ∧ Run isBlank s₁) ∧
        Run isBlank s₂ ∧ quoted? y = some (x, z) ∧ z = s₃ ++ [')'] ∧ Run isBlank s₃ ∧ cs = [(1, x)] := by
    intro u
    simp only [sequence_word, sequence_gap, sequence_blanks, sequence_quote, sequence_groupMany, sequence_nil,
      quoted?_eq_some_iff]
    constructor
    · rintro ⟨_, rfl, s₁, _, rfl, hs₁, _, rfl, s₂, _, rfl, hs₂, q, _, rfl, hq, x, _, _, rfl, rfl, hx, q', _, rfl, hq',
        s₃, _, rfl, hs₃, _, rfl, rfl, rfl⟩
      exact ⟨s₁, s₂, s₃, _, x, _, rfl, hs₁, hs₂, ⟨q, q', rfl, hq, hq', hx⟩, rfl, hs₃, rfl⟩
    · rintro ⟨s₁, s₂, s₃, _, x, _, rfl, hs₁, hs₂, ⟨q, q', rfl, hq, hq', hx⟩, rfl, hs₃, rfl⟩
      exact ⟨_, rfl, s₁, _, rfl, hs₁, _, rfl, s₂, _, rfl, hs₂, q, _, rfl, hq, x, _, _, rfl, rfl, hx, q', _, rfl, hq',
        s₃, _, rfl, hs₃, [], rfl, rfl, rfl⟩
  have hbare : ∀ u : List Char, (sequence [quote, .group 2 (many (.set (!isQuote ·))), quote]).Matches u cs ↔
      ∃ x, quoted? u = some (x, []) ∧ cs = [(2, x)] := by
    intro u
    simp only [sequence_quote, sequence_groupMany, sequence_nil, quoted?_eq_some_iff]
    constructor
    · rintro ⟨q, _, rfl, hq, x, _, _, rfl, rfl, hx, q', _, rfl, hq', rfl, rfl⟩
      exact ⟨x, ⟨q, q', rfl, hq, hq', hx⟩, rfl⟩
    · rintro ⟨x, ⟨q, q', rfl, hq, hq', hx⟩, rfl⟩
      exact ⟨q, _, rfl, hq, x, _, _, rfl, rfl, hx, q', [], rfl, hq', rfl, rfl⟩
  -- the branches are told apart by the last character: a bracket, or a quotation mark
  simp only [Shape.taken, Option.map_eq_some_iff, throw?_eq_some_iff, Shape.pattern, sequence_word, sequence_gap,
    sequence_singleton, matches_either, hnew, hbare]
  constructor
  · rintro ⟨x, ⟨s, u, rfl, hs, ⟨s₁, s₂, s₃, y, _, rfl, hs₁, hs₂, hquoted, rfl, hs₃⟩ | hquoted⟩, rfl⟩
    · refine ⟨_, rfl, s, _, rfl, hs, .inl ⟨s₁, s₂, s₃, y, x, _, rfl, hs₁, hs₂, hquoted, rfl, hs₃, ?_⟩⟩
      obtain ⟨q, q', rfl, -⟩ := quoted?_eq_some_iff.mp hquoted
      simp [List.getLast?_append, List.getLast?_cons]
    · refine ⟨_, rfl, s, _, rfl, hs, .inr ⟨x, hquoted, ?_⟩⟩
      obtain ⟨q, q', rfl, -, hq', -⟩ := quoted?_eq_some_iff.mp hquoted
      have hne : q' ≠ ')' := by
        rintro rfl
        cases hq'
      simp [List.getLast?_append, List.getLast?_cons, hne]
  · rintro ⟨_, rfl, s, u, rfl, hs, ⟨s₁, s₂, s₃, y, x, _, rfl, hs₁, hs₂, hquoted, rfl, hs₃, rfl⟩ | ⟨x, hquoted, rfl⟩⟩
    · refine ⟨x, ⟨s, _, rfl, hs, .inl ⟨s₁, s₂, s₃, y, _, rfl, hs₁, hs₂, hquoted, rfl, hs₃⟩⟩, ?_⟩
      obtain ⟨q, q', rfl, -⟩ := quoted?_eq_some_iff.mp hquoted
      simp [List.getLast?_append, List.getLast?_cons]
    · refine ⟨x, ⟨s, u, rfl, hs, .inr hquoted⟩, ?_⟩
      obtain ⟨q, q', rfl, -, hq', -⟩ := quoted?_eq_some_iff.mp hquoted
      have hne : q' ≠ ')' := by
        rintro rfl
        cases hq'
      simp [List.getLast?_append, List.getLast?_cons, hne]

theorem taken_requires : Shape.requires.taken t = some cs ↔ Shape.requires.pattern.Matches t cs := by
  have htail : ∀ (u : List Char) (ds : Captures),
      (maybe (sequence [Pattern.word ".", .group 2 Pattern.name])).Matches u ds ↔
        u = [] ∧ ds = [] ∨ ∃ n, u = '.' :: n ∧ (n ≠ [] ∧ Run isNameChar n) ∧ ds = [(2, n)] := by
    intro u ds
    simp only [matches_maybe, sequence_word, sequence_groupName, sequence_nil]
    constructor
    · rintro (⟨_, rfl, n, _, _, rfl, rfl, hn, rfl, rfl⟩ | ⟨rfl, rfl⟩)
      · exact .inr ⟨n, by simp, hn, rfl⟩
      · exact .inl ⟨rfl, rfl⟩
    · rintro (⟨rfl, rfl⟩ | ⟨n, rfl, hn, rfl⟩)
      · exact .inr ⟨rfl, rfl⟩
      · exact .inl ⟨n, rfl, n, [], [], (List.append_nil n).symm, rfl, hn, rfl, rfl⟩
  simp only [Shape.taken, Option.map_eq_some_iff, Prod.exists, require?_eq_some_iff, Shape.pattern, sequence_word,
    sequence_blanks, sequence_quote, sequence_groupPlus, sequence_singleton, htail, quoted?_eq_some_iff]
  constructor
  · rintro ⟨x, property, ⟨s, _, _, s', tail, rfl, hs, ⟨q, q', rfl, hq, hq', hx⟩, hne, rfl, hs', htail⟩, rfl⟩
    refine ⟨_, rfl, s, _, rfl, hs, q, _, rfl, hq, x, _, _, rfl, rfl, ⟨hne, hx⟩, q', _, rfl, hq', s', _, rfl, hs', tail, rfl, ?_⟩
    rcases htail with ⟨rfl, rfl⟩ | ⟨n, rfl, hn, rfl⟩
    · exact .inl ⟨rfl, rfl⟩
    · exact .inr ⟨n, rfl, hn, rfl⟩
  · rintro ⟨_, rfl, s, _, rfl, hs, q, _, rfl, hq, x, _, ds, rfl, rfl, ⟨hne, hx⟩, q', _, rfl, hq', s', _, rfl, hs', tail,
      rfl, htail⟩
    have hproperty : ∃ property : Option (List Char), ds = (property.map ((2, ·) : List Char → Nat × List Char)).toList ∧
        (tail = [] ∧ property = none ∨ ∃ n, tail = '.' :: n ∧ (n ≠ [] ∧ Run isNameChar n) ∧ property = some n) := by
      rcases htail with ⟨rfl, rfl⟩ | ⟨n, rfl, hn, rfl⟩
      · exact ⟨none, rfl, .inl ⟨rfl, rfl⟩⟩
      · exact ⟨some n, rfl, .inr ⟨n, rfl, hn, rfl⟩⟩
    obtain ⟨property, rfl, hproperty⟩ := hproperty
    exact ⟨x, property, ⟨s, _, _, s', tail, rfl, hs, ⟨q, q', rfl, hq, hq', hx⟩, hne, rfl, hs', hproperty⟩, rfl⟩

/-! ## Forms with a value -/

theorem exportBinding?_of_matches (h : Shape.exportBinding.pattern.Matches t cs) (ht : Tight t) :
    ∃ x v, exportBinding? t = some (x, trimStart v) ∧ cs = [(1, x), (2, v)] := by
  simp only [Shape.pattern, sequence_word, sequence_gap, sequence_binder, sequence_groupName] at h
  obtain ⟨_, rfl, s, _, rfl, hs, k, _, rfl, hk, s', _, rfl, hs', x, u, _, rfl, rfl, hx, h⟩ := h
  obtain ⟨v, hv, rfl⟩ := afterEquals?_of_matches h ht.right.right.right.right.right
  have hbinding : binding? (k ++ (s' ++ (x ++ u))) = some (x, u) :=
    binding?_eq_some_iff.mpr ⟨k, s', rfl, hk, hs', hx, stops_of_afterEquals? hv⟩
  exact ⟨x, v, exportBinding?_eq_some_iff.mpr ⟨s, _, u, rfl, hs, hbinding, hv⟩, rfl⟩

theorem matches_of_exportBinding? (h : exportBinding? t = some (x, v)) (hline : '\n' ∉ t) :
    Shape.exportBinding.pattern.Matches t [(1, x), (2, v)] := by
  obtain ⟨s, _, u, rfl, hs, hbinding, hv⟩ := exportBinding?_eq_some_iff.mp h
  obtain ⟨k, s', rfl, hk, hs', hx, -⟩ := binding?_eq_some_iff.mp hbinding
  simp only [Shape.pattern, sequence_word, sequence_gap, sequence_binder, sequence_groupName]
  refine ⟨_, rfl, s, _, rfl, hs, k, _, rfl, hk, s', _, rfl, hs', x, u, _, rfl, rfl, hx, ?_⟩
  exact matches_of_afterEquals? hv fun hmem => hline (by simp [hmem])

theorem exportDefault?_of_matches (h : Shape.exportDefault.pattern.Matches t cs) (ht : Tight t) :
    ∃ v, exportDefault? t = some (trimStart v) ∧ cs = [(1, v)] := by
  simp only [Shape.pattern, sequence_word, sequence_gap, line, sequence_groupPlus, sequence_nil] at h
  obtain ⟨_, rfl, s, _, rfl, hs, _, rfl, s', _, rfl, hs', v, _, _, rfl, rfl, ⟨hne, -⟩, rfl, rfl⟩ := h
  rw [List.append_nil] at ht ⊢
  -- the pattern may leave blanks to the value, the recogniser takes all of them
  obtain ⟨s'', hv, hblank⟩ := exists_trimStart v
  refine ⟨v, exportDefault?_eq_some_iff.mpr ⟨s, s' ++ s'', ?_, hs, ⟨?_, hs'.2.append hblank⟩, ?_, stops_trimStart v⟩, rfl⟩
  · rw [List.append_assoc, ← hv]
  · exact List.append_ne_nil_of_left_ne_nil hs'.1 s''
  · exact trimStart_ne_nil ht.right.right.right.right hne

theorem matches_of_exportDefault? (h : exportDefault? t = some v) (hline : '\n' ∉ t) :
    Shape.exportDefault.pattern.Matches t [(1, v)] := by
  obtain ⟨s, s', rfl, hs, hs', hne, -⟩ := exportDefault?_eq_some_iff.mp h
  simp only [Shape.pattern, sequence_word, sequence_gap, line, sequence_groupPlus, sequence_nil]
  refine ⟨_, rfl, s, _, rfl, hs, _, rfl, s', _, rfl, hs', v, [], [], (List.append_nil v).symm, rfl, ⟨hne, ?_⟩, rfl, rfl⟩
  exact run_line fun hmem => hline (by simp [hmem])

theorem exportsAssign?_of_matches (h : Shape.exportsAssign.pattern.Matches t cs) (ht : Tight t) :
    ∃ x v, exportsAssign? t = some (x, trimStart v) ∧ cs = [(1, x), (2, v)] := by
  simp only [Shape.pattern, sequence_maybeWord, sequence_word, sequence_groupName] at h
  obtain ⟨_, hmodule, u, rfl, x, u, _, rfl, rfl, hx, h⟩ := h
  have htight : Tight u := by
    rcases hmodule with rfl | rfl
    · exact ht.right.right.right
    · exact ht.right.right
  obtain ⟨v, hv, rfl⟩ := afterEquals?_of_matches h htight
  exact ⟨x, v, exportsAssign?_eq_some_iff.mpr ⟨_, u, hmodule, rfl, hx, hv⟩, rfl⟩

theorem matches_of_exportsAssign? (h : exportsAssign? t = some (x, v)) (hline : '\n' ∉ t) :
    Shape.exportsAssign.pattern.Matches t [(1, x), (2, v)] := by
  obtain ⟨_, u, hmodule, rfl, hx, hv⟩ := exportsAssign?_eq_some_iff.mp h
  simp only [Shape.pattern, sequence_maybeWord, sequence_word, sequence_groupName]
  refine ⟨_, hmodule, _, rfl, x, u, _, rfl, rfl, hx, matches_of_afterEquals? hv fun hmem => hline ?_⟩
  rcases hmodule with rfl | rfl <;> simp [hmem]

theorem moduleExports?_of_matches (h : Shape.moduleExports.pattern.Matches t cs) (ht : Tight t) :
    ∃ v, moduleExports? t = some (trimStart v) ∧ cs = [(1, v)] := by
  simp only [Shape.pattern, sequence_word (w := "module.exports")] at h
  obtain ⟨u, rfl, h⟩ := h
  obtain ⟨v, hv, rfl⟩ := afterEquals?_of_matches h ht.right
  exact ⟨v, moduleExports?_eq_some_iff.mpr ⟨u, rfl, hv⟩, rfl⟩

theorem matches_of_moduleExports? (h : moduleExports? t = some v) (hline : '\n' ∉ t) :
    Shape.moduleExports.pattern.Matches t [(1, v)] := by
  obtain ⟨u, rfl, hv⟩ := moduleExports?_eq_some_iff.mp h
  rw [Shape.pattern, sequence_word]
  exact ⟨u, rfl, matches_of_afterEquals? hv fun hmem => hline (by simp [hmem])⟩

theorem declaration?_of_matches (h : Shape.declaration.pattern.Matches t cs) (ht : Tight t) :
    ∃ v, declaration? t = some (trimStart v) ∧ cs = [(1, v)] := by
  simp only [Shape.pattern, sequence_gap, sequence_binder, sequence_name] at h
  obtain ⟨k, _, rfl, hk, s, _, rfl, hs, x, u, rfl, hx, h⟩ := h
  obtain ⟨v, hv, rfl⟩ := afterEquals?_of_matches h ht.right.right.right
  have hbinding : binding? (k ++ (s ++ (x ++ u))) = some (x, u) :=
    binding?_eq_some_iff.mpr ⟨k, s, rfl, hk, hs, hx, stops_of_afterEquals? hv⟩
  exact ⟨v, declaration?_eq_some_iff.mpr ⟨x, u, hbinding, hv⟩, rfl⟩

theorem matches_of_declaration? (h : declaration? t = some v) (hline : '\n' ∉ t) :
    Shape.declaration.pattern.Matches t [(1, v)] := by
  obtain ⟨x, u, hbinding, hv⟩ := declaration?_eq_some_iff.mp h
  obtain ⟨k, s, rfl, hk, hs, hx, -⟩ := binding?_eq_some_iff.mp hbinding
  simp only [Shape.pattern, sequence_gap, sequence_binder, sequence_name]
  refine ⟨k, _, rfl, hk, s, _, rfl, hs, x, u, rfl, hx, ?_⟩
  exact matches_of_afterEquals? hv fun hmem => hline (by simp [hmem])

/-! ## All forms -/

/-- White space before a value makes no difference. -/
theorem alike_value (front : Captures) {k : Nat} {f : Expr → Statement}
    (h : ∀ w, s.statement (front ++ [(k, w)]) = (Expr.scan w).map f) :
    Alike s (front ++ [(k, trimStart v)]) (front ++ [(k, v)]) := by
  constructor
  · simp [Captures.trimmed, trim_trimStart]
  · rw [h, h, scan_trimStart]

theorem taken_of_matches (h : s.pattern.Matches t cs) (ht : Tight t) : ∃ ds, s.taken t = some ds ∧ Alike s ds cs := by
  cases s with
  | imports => exact ⟨cs, taken_imports.mpr h, .refl _ _⟩
  | exportBinding =>
    obtain ⟨x, v, hv, rfl⟩ := exportBinding?_of_matches h ht
    exact ⟨_, Option.map_eq_some_iff.mpr ⟨_, hv, rfl⟩, alike_value [(1, x)] (f := .exports (String.ofList x)) fun _ => rfl⟩
  | exportDefault =>
    obtain ⟨v, hv, rfl⟩ := exportDefault?_of_matches h ht
    exact ⟨_, Option.map_eq_some_iff.mpr ⟨_, hv, rfl⟩, alike_value [] fun _ => rfl⟩
  | exportsAssign =>
    obtain ⟨x, v, hv, rfl⟩ := exportsAssign?_of_matches h ht
    exact ⟨_, Option.map_eq_some_iff.mpr ⟨_, hv, rfl⟩, alike_value [(1, x)] (f := .assigns (some (String.ofList x))) fun _ => rfl⟩
  | moduleExports =>
    obtain ⟨v, hv, rfl⟩ := moduleExports?_of_matches h ht
    exact ⟨_, Option.map_eq_some_iff.mpr ⟨_, hv, rfl⟩, alike_value [] fun _ => rfl⟩
  | declaration =>
    obtain ⟨v, hv, rfl⟩ := declaration?_of_matches h ht
    exact ⟨_, Option.map_eq_some_iff.mpr ⟨_, hv, rfl⟩, alike_value [] fun _ => rfl⟩
  | throws => exact ⟨cs, taken_throws.mpr h, .refl _ _⟩
  | requires => exact ⟨cs, taken_requires.mpr h, .refl _ _⟩

theorem matches_of_taken (h : s.taken t = some cs) (hline : '\n' ∉ t) : s.pattern.Matches t cs := by
  cases s with
  | imports => exact taken_imports.mp h
  | throws => exact taken_throws.mp h
  | requires => exact taken_requires.mp h
  | exportBinding =>
    obtain ⟨r, hr, rfl⟩ := Option.map_eq_some_iff.mp h
    exact matches_of_exportBinding? hr hline
  | exportDefault =>
    obtain ⟨v, hv, rfl⟩ := Option.map_eq_some_iff.mp h
    exact matches_of_exportDefault? hv hline
  | exportsAssign =>
    obtain ⟨r, hr, rfl⟩ := Option.map_eq_some_iff.mp h
    exact matches_of_exportsAssign? hr hline
  | moduleExports =>
    obtain ⟨v, hv, rfl⟩ := Option.map_eq_some_iff.mp h
    exact matches_of_moduleExports? hv hline
  | declaration =>
    obtain ⟨v, hv, rfl⟩ := Option.map_eq_some_iff.mp h
    exact matches_of_declaration? hv hline

/-! ## No text of two forms -/

/-- The only form that a text can have, by the characters in which forms differ. -/
def leading (t : List Char) : Shape :=
  -- behind "module" and "export" the forms go different ways
  match t with
  | 'i' :: _ => .imports
  | 't' :: _ => .throws
  | 'r' :: _ => .requires
  | 'm' :: _ => if t[14]? = some '.' then .exportsAssign else .moduleExports
  | 'e' :: _ =>
    if t[6]? = some 's' then .exportsAssign
    else if (trimStart (t.drop 6)).head? = some 'd' then .exportDefault else .exportBinding
  | _ => .declaration

theorem ne_of_isBlank {c d : Char} (hc : isBlank c = true) (hd : isBlank d = false) : some c ≠ some d := by
  rintro ⟨⟩
  rw [hc] at hd
  cases hd

theorem leading_export {u : List Char} (hx : x ≠ [] ∧ Run isBlank x) (hu : Stops isBlank u) :
    leading ("export".toList ++ (x ++ u)) = if u.head? = some 'd' then .exportDefault else .exportBinding := by
  obtain ⟨hne, hrun⟩ := hx
  have hstart : trimStart (x ++ u) = u := trimStart_append hrun hu
  obtain ⟨c, x, rfl⟩ := List.exists_cons_of_ne_nil hne
  show (if some c = some 's' then .exportsAssign else
    if (trimStart (c :: x ++ u)).head? = some 'd' then Shape.exportDefault else .exportBinding) = _
  rw [if_neg (ne_of_isBlank (hrun c (by simp)) (by decide)), hstart]

theorem leading_of_taken (h : s.taken t = some cs) : leading t = s := by
  cases s with
  | imports =>
    obtain ⟨x, hx, -⟩ := Option.map_eq_some_iff.mp h
    obtain ⟨m, q, q', rfl, -⟩ := import?_eq_some_iff.mp hx
    rfl
  | exportsAssign =>
    obtain ⟨⟨x, v⟩, hx, -⟩ := Option.map_eq_some_iff.mp h
    obtain ⟨_, u, rfl | rfl, rfl, -⟩ := exportsAssign?_eq_some_iff.mp hx <;> rfl
  | throws =>
    obtain ⟨x, hx, -⟩ := Option.map_eq_some_iff.mp h
    obtain ⟨s, u, rfl, -⟩ := throw?_eq_some_iff.mp hx
    rfl
  | requires =>
    obtain ⟨⟨x, property⟩, hx, -⟩ := Option.map_eq_some_iff.mp h
    obtain ⟨s, y, z, s', tail, rfl, -⟩ := require?_eq_some_iff.mp hx
    rfl
  | declaration =>
    obtain ⟨v, hv, -⟩ := Option.map_eq_some_iff.mp h
    obtain ⟨x, u, hbinding, -⟩ := declaration?_eq_some_iff.mp hv
    obtain ⟨_, s, rfl, rfl | rfl | rfl, -⟩ := binding?_eq_some_iff.mp hbinding <;> rfl
  | moduleExports =>
    obtain ⟨v, hv, -⟩ := Option.map_eq_some_iff.mp h
    obtain ⟨u, rfl, hu⟩ := moduleExports?_eq_some_iff.mp hv
    obtain ⟨s, s', rfl, hs, -⟩ := afterEquals?_eq_some_iff.mp hu
    cases s with
    | nil => rfl
    | cons c s => exact if_neg (ne_of_isBlank (hs c (by simp)) (by decide))
  | exportBinding =>
    obtain ⟨⟨x, v⟩, hx, -⟩ := Option.map_eq_some_iff.mp h
    obtain ⟨s, y, u, rfl, hs, hbinding, -⟩ := exportBinding?_eq_some_iff.mp hx
    rw [leading_export hs (stops_of_binding? hbinding)]
    obtain ⟨_, s, rfl, rfl | rfl | rfl, -⟩ := binding?_eq_some_iff.mp hbinding <;> rfl
  | exportDefault =>
    obtain ⟨v, hv, -⟩ := Option.map_eq_some_iff.mp h
    obtain ⟨s, s', rfl, hs, -⟩ := exportDefault?_eq_some_iff.mp hv
    have hstop : Stops isBlank ("default".toList ++ (s' ++ v)) := stops_cons (by decide) _
    rw [leading_export hs hstop]
    rfl

/-! ## Scanning -/

/-- All forms, in the order in which they are tried. -/
def Shape.all : List Shape :=
  [imports, exportBinding, exportDefault, exportsAssign, moduleExports, declaration, throws, requires]

theorem Shape.mem_all (s : Shape) : s ∈ Shape.all := by cases s <;> decide

theorem require?_eq_of_taken (h : Shape.requires.taken t = some cs) :
    ∃ request property, require? t = some (request, property) ∧
      Expr.require (String.ofList request) (property.map String.ofList) = cs.request := by
  obtain ⟨⟨request, property⟩, hr, rfl⟩ := Option.map_eq_some_iff.mp h
  refine ⟨request, property, hr, ?_⟩
  cases property <;> rfl

theorem scan_request (h : Shape.requires.taken (trim t) = some cs) : Expr.scan t = .ok cs.request := by
  obtain ⟨request, property, hr, hcs⟩ := require?_eq_of_taken h
  simp only [Expr.scan, hr, hcs]

theorem scan_literal (h : Shape.requires.taken (trim t) = none) :
    Expr.scan t = match Json.Value.read (trim t) with
      | .ok v => .ok (.literal v)
      | .error fault => .error (.invalidExpression (trim t) fault) := by
  rw [Shape.taken, Option.map_eq_none_iff] at h
  cases hread : Json.Value.read (trim t) <;> simp only [Expr.scan, h, hread]

theorem scan_literal_of_read {v : Json.Value} (h : Shape.requires.taken (trim t) = none)
    (hread : Json.Value.read (trim t) = .ok v) : Expr.scan t = .ok (.literal v) := by
  rw [scan_literal h, hread]

theorem statement_throws (x : List Char) (p : Prop) [hp : Decidable p] :
    Shape.throws.statement [(if p then 1 else 2, x)] = .ok (.throws (String.ofList x)) := by
  cases hp <;> rfl

/-- Scanning takes the first form whose recogniser takes the text. -/
theorem statement_scan_eq (htrim : trim t = t) : Statement.scan t =
    (Shape.all.findSome? fun s => (s.taken t).map s.statement).getD (.error (.unexpectedToken (firstWord t))) := by
  simp only [Statement.scan, Shape.all, Shape.taken, List.findSome?]
  rcases import? t with _ | x
  case some => rfl
  rcases exportBinding? t with _ | r
  case some => rfl
  rcases exportDefault? t with _ | v
  case some => rfl
  rcases exportsAssign? t with _ | r
  case some => rfl
  rcases moduleExports? t with _ | v
  case some => rfl
  rcases declaration? t with _ | v
  case some => rfl
  rcases throw? t with _ | x
  case some => exact (statement_throws x _).symm
  rcases hr : require? t with _ | r
  · rfl
  · have htaken := congrArg (Option.map fun r => (1, r.1) :: (r.2.map (2, ·)).toList) (htrim.symm ▸ hr)
    have hscan : Expr.scan t = _ := scan_request htaken
    rw [hscan]
    rfl

theorem scan_of_taken (htrim : trim t = t) (h : s.taken t = some cs) : Statement.scan t = s.statement cs := by
  have hfind : Shape.all.findSome? (fun s => (s.taken t).map s.statement) = some (s.statement cs) := by
    cases hsome : Shape.all.findSome? fun s => (s.taken t).map s.statement with
    | none =>
      have hnone := List.findSome?_eq_none_iff.mp hsome s s.mem_all
      rw [h] at hnone
      cases hnone
    | some r =>
      obtain ⟨s', -, hr⟩ := List.exists_of_findSome?_eq_some hsome
      obtain ⟨ds, hds, rfl⟩ := Option.map_eq_some_iff.mp hr
      -- no form that is tried earlier takes the text, for it has only one form
      obtain rfl : s = s' := (leading_of_taken h).symm.trans (leading_of_taken hds)
      obtain rfl : cs = ds := Option.some.inj (h.symm.trans hds)
      rfl
  rw [statement_scan_eq htrim, hfind, Option.getD_some]

theorem scan_of_matches (htrim : trim t = t) (h : s.pattern.Matches t cs) : Statement.scan t = s.statement cs := by
  obtain ⟨ds, hds, halike⟩ := taken_of_matches h (tight_of_trim htrim)
  rw [scan_of_taken htrim hds, halike.statement]

theorem scan_of_not_taken (htrim : trim t = t) (h : ∀ s : Shape, s.taken t = none) :
    Statement.scan t = .error (.unexpectedToken (firstWord t)) := by
  have hfind : Shape.all.findSome? (fun s => (s.taken t).map s.statement) = none := by
    refine List.findSome?_eq_none_iff.mpr fun s _ => ?_
    rw [h s, Option.map_none]
  rw [statement_scan_eq htrim, hfind, Option.getD_none]

theorem taken_of_scan {st : Statement} (htrim : trim t = t) (h : Statement.scan t = .ok st) :
    ∃ (s : Shape) (cs : Captures), s.taken t = some cs ∧ s.statement cs = .ok st := by
  by_cases hall : ∀ s : Shape, s.taken t = none
  · rw [scan_of_not_taken htrim hall] at h
    cases h
  · obtain ⟨s, hs⟩ := not_forall.mp hall
    obtain ⟨cs, hcs⟩ := Option.ne_none_iff_exists'.mp hs
    exact ⟨s, cs, hcs, (scan_of_taken htrim hcs).symm.trans h⟩

theorem scan_ne_unexpectedToken (v : List Char) (f : Expr → Statement) (token : List Char) :
    (Expr.scan v).map f ≠ .error (.unexpectedToken token) := by
  intro h
  cases htaken : Shape.requires.taken (trim v) with
  | some cs =>
    rw [scan_request htaken] at h
    cases h
  | none =>
    rw [scan_literal htaken] at h
    cases hread : Json.Value.read (trim v) <;> rw [hread] at h <;> cases h

/-- The fault of a form is the fault of its expression. -/
theorem statement_ne_unexpectedToken (s : Shape) (cs : Captures) (token : List Char) :
    s.statement cs ≠ .error (.unexpectedToken token) := by
  cases s with
  | imports | throws | requires => exact nofun
  | exportBinding | exportDefault | exportsAssign | moduleExports | declaration =>
    exact scan_ne_unexpectedToken _ _ token

theorem taken_eq_none_of_not_matches (hline : '\n' ∉ t) (h : ∀ s cs, ¬(Shape.pattern s).Matches t cs) (s : Shape) :
    s.taken t = none := by
  cases htaken : s.taken t with
  | none => rfl
  | some cs => exact absurd (matches_of_taken htaken hline) (h s cs)

/-- Lines are read as the patterns say. A trimmed line belongs to one pattern at most, and the texts that are captured
differ only in the white space around them, however the line is taken apart; the statement, or the fault of its
expression, is the one of these captures; and a line is refused for its first word when it belongs to no pattern, and not
otherwise. An expression is a request when its text belongs to the pattern of requests, and is read as a literal when it
does not. -/
theorem scan_iff_matches {text : List Char} (htrim : trim text = text) (hline : '\n' ∉ text) :
    (∀ s s' cs cs', (Shape.pattern s).Matches text cs → (Shape.pattern s').Matches text cs' →
      s = s' ∧ cs.trimmed = cs'.trimmed) ∧
    (∀ s cs, (Shape.pattern s).Matches text cs → Statement.scan text = s.statement cs) ∧
    ((∀ s cs, ¬(Shape.pattern s).Matches text cs) ↔ ∃ token, Statement.scan text = .error (.unexpectedToken token)) ∧
    (∀ token, Statement.scan text = .error (.unexpectedToken token) → token = firstWord text) ∧
    ∀ value, (∀ cs, Shape.requires.pattern.Matches (trim value) cs → Expr.scan value = .ok cs.request) ∧
      ((∀ cs, ¬Shape.requires.pattern.Matches (trim value) cs) → Expr.scan value =
        match Json.Value.read (trim value) with
        | .ok v => .ok (.literal v)
        | .error fault => .error (.invalidExpression (trim value) fault)) := by
  have htight := tight_of_trim htrim
  have hscan : ∀ s cs, (Shape.pattern s).Matches text cs → Statement.scan text = s.statement cs := fun s cs =>
    scan_of_matches htrim
  have hnone : (∀ s cs, ¬(Shape.pattern s).Matches text cs) →
      Statement.scan text = .error (.unexpectedToken (firstWord text)) := fun h =>
    scan_of_not_taken htrim (taken_eq_none_of_not_matches hline h)
  have hrefused : ∀ token, Statement.scan text = .error (.unexpectedToken token) →
      ∀ s cs, ¬(Shape.pattern s).Matches text cs := by
    intro token herror s cs h
    exact statement_ne_unexpectedToken s cs token ((hscan s cs h).symm.trans herror)
  refine ⟨?_, hscan, ⟨fun h => ⟨_, hnone h⟩, fun ⟨token, h⟩ => hrefused token h⟩, ?_, fun value => ⟨?_, ?_⟩⟩
  · intro s s' cs cs' h h'
    obtain ⟨ds, hds, halike⟩ := taken_of_matches h htight
    obtain ⟨ds', hds', halike'⟩ := taken_of_matches h' htight
    obtain rfl : s = s' := (leading_of_taken hds).symm.trans (leading_of_taken hds')
    obtain rfl : ds = ds' := Option.some.inj (hds.symm.trans hds')
    exact ⟨rfl, halike.trimmed.symm.trans halike'.trimmed⟩
  · intro token herror
    have hfirst := hnone (hrefused token herror)
    rw [herror] at hfirst
    cases hfirst
    rfl
  · intro cs h
    exact scan_request (taken_requires.mpr h)
  · intro h
    refine scan_literal ?_
    cases htaken : Shape.requires.taken (trim value) with
    | none => rfl
    | some cs => exact absurd (taken_requires.mp htaken) (h cs)

/-- The white space before this value can be captured or not. -/
theorem scan_iff_matches_spaced : let text := "exports.a =  1".toList
    trim text = text ∧ '\n' ∉ text ∧
    Shape.exportsAssign.pattern.Matches text [(1, ['a']), (2, [' ', '1'])] ∧
    ∀ s cs, (Shape.pattern s).Matches text cs → s = .exportsAssign ∧ cs.trimmed = [(1, ['a']), (2, ['1'])] := by
  intro text
  have hspaced : Shape.exportsAssign.pattern.Matches text [(1, ['a']), (2, [' ', '1'])] := by
    simp only [Shape.pattern, sequence_maybeWord, sequence_word, sequence_groupName]
    refine ⟨_, .inr rfl, _, rfl, ['a'], _, _, rfl, rfl, by decide, ?_⟩
    exact sequence_assigned.mpr ⟨[' '], [' '], [' ', '1'], rfl, rfl, by decide, by decide, by decide, by decide⟩
  have htrim : trim text = text := by decide
  have hline : '\n' ∉ text := by decide
  refine ⟨htrim, hline, hspaced, fun s cs h => ?_⟩
  obtain ⟨hshape, hcaptures⟩ := (scan_iff_matches htrim hline).1 s .exportsAssign cs _ h hspaced
  exact ⟨hshape, hcaptures.trans (by decide)⟩

end ModGraph.Source
