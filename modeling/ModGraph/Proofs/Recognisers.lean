import Mathlib.Data.List.TakeWhile
import ModGraph.Proofs.Patterns
import ModGraph.Source.Scan

/-!
# What recognisers take

The recognisers of statements do not search: a run of characters goes as far as it can, and what follows it tells where
that is (`Run.dropWhile`). So each recogniser, and each piece of one, takes a text apart in one way
(`blanks?_eq_some_iff`, `exportBinding?_eq_some_iff` and the like).
-/

namespace ModGraph.Source

open Text (isBlank isNameChar trimStart trimEnd trim)

/-! ## Runs of characters -/

/-- A text does not start with a character of a set. -/
def Stops (p : Char → Bool) (t : List Char) : Prop := ∀ c ∈ t.head?, p c = false

variable {p : Char → Bool} {s t u v w x : List Char} {c : Char}

theorem Run.dropWhile (hs : Run p s) (hu : Stops p u) : (s ++ u).dropWhile p = u := by
  rw [List.dropWhile_append_of_pos hs]
  cases u with
  | nil => rfl
  | cons c u => exact List.dropWhile_cons_of_neg (by simp [hu c rfl])

theorem Run.takeWhile (hs : Run p s) (hu : Stops p u) : (s ++ u).takeWhile p = s := by
  rw [List.takeWhile_append_of_pos hs]
  cases u with
  | nil => simp
  | cons c u => rw [List.takeWhile_cons_of_neg (by simp [hu c rfl]), List.append_nil]

theorem run_takeWhile (p : Char → Bool) (t : List Char) : Run p (t.takeWhile p) := fun _ => List.mem_takeWhile_imp

theorem stops_dropWhile (p : Char → Bool) (t : List Char) : Stops p (t.dropWhile p) := by
  intro c hc
  have hhead := List.head?_dropWhile_not p t
  rw [Option.mem_def.mp hc] at hhead
  simpa using hhead

theorem stops_cons (h : p c = false) (t : List Char) : Stops p (c :: t) := by
  rintro _ ⟨⟩
  exact h

theorem stops_nil (p : Char → Bool) : Stops p [] := nofun

theorem Stops.append (hs : Stops p s) (hne : s ≠ []) (u : List Char) : Stops p (s ++ u) := by
  obtain ⟨c, s, rfl⟩ := List.exists_cons_of_ne_nil hne
  exact stops_cons (hs c rfl) _

theorem run_nil (p : Char → Bool) : Run p [] := List.forall_mem_nil _

theorem Run.append (hs : Run p s) (hu : Run p u) : Run p (s ++ u) := by
  intro c hc
  rcases List.mem_append.mp hc with hc | hc
  · exact hs c hc
  · exact hu c hc

/-- A run of white space does not start with a character of a name, and the other way round. -/
theorem stops_of_blank (hs : Run isBlank s) : Stops isNameChar s := fun c hc =>
  Text.isNameChar_of_isBlank (hs c (List.mem_of_mem_head? hc))

theorem isBlank_of_isNameChar (h : isNameChar c = true) : isBlank c = false := by
  cases hc : isBlank c with
  | false => rfl
  | true => rw [Text.isNameChar_of_isBlank hc] at h; cases h

theorem stops_blank_append (hs : Run isBlank s) (hu : Stops isNameChar u) : Stops isNameChar (s ++ u) := by
  cases s with
  | nil => exact hu
  | cons c s => exact (stops_of_blank hs).append (by simp) u

theorem stops_of_name (hs : Run isNameChar s) : Stops isBlank s := fun c hc =>
  isBlank_of_isNameChar (hs c (List.mem_of_mem_head? hc))

theorem trimStart_append (hs : Run isBlank s) (hu : Stops isBlank u) : trimStart (s ++ u) = u := hs.dropWhile hu

theorem run_line (h : '\n' ∉ t) : Run (· != '\n') t := by
  intro c hc
  have hne : c ≠ '\n' := fun heq => h (heq ▸ hc)
  simpa using hne

/-- The white space at the start of a text. -/
theorem exists_trimStart (t : List Char) : ∃ s, t = s ++ trimStart t ∧ Run isBlank s :=
  ⟨t.takeWhile isBlank, List.takeWhile_append_dropWhile.symm, run_takeWhile _ _⟩

theorem stops_trimStart (t : List Char) : Stops isBlank (trimStart t) := stops_dropWhile _ _

theorem trimStart_of_stops (h : Stops isBlank t) : trimStart t = t := trimStart_append (s := []) nofun h

/-! ## Texts without white space at the end -/

/-- A text does not end in white space. -/
def Tight (t : List Char) : Prop := ∀ c ∈ t.getLast?, isBlank c = false

theorem Tight.right (h : Tight (s ++ u)) : Tight u := by
  intro c hc
  refine h c ?_
  rw [List.getLast?_append, Option.mem_def.mp hc]
  rfl

theorem tight_trimEnd (t : List Char) : Tight (trimEnd t) := by
  intro c hc
  rw [trimEnd, List.getLast?_reverse] at hc
  exact stops_dropWhile isBlank t.reverse c hc

theorem tight_of_trim (h : trim t = t) : Tight t := h ▸ tight_trimEnd (trimStart t)

theorem trimEnd_append (hs : Run isBlank s) (ht : Tight t) : trimEnd (t ++ s) = t := by
  have hstop : Stops isBlank t.reverse := by
    intro c hc
    rw [List.head?_reverse] at hc
    exact ht c hc
  have hrun : Run isBlank s.reverse := fun c hc => hs c (List.mem_reverse.mp hc)
  rw [trimEnd, List.reverse_append, hrun.dropWhile hstop, List.reverse_reverse]

/-- The white space at the end of a text. -/
theorem exists_trimEnd (t : List Char) : ∃ s, t = trimEnd t ++ s ∧ Run isBlank s := by
  refine ⟨(t.reverse.takeWhile isBlank).reverse, ?_, fun c hc => ?_⟩
  · rw [trimEnd, ← List.reverse_append, List.takeWhile_append_dropWhile, List.reverse_reverse]
  · exact run_takeWhile _ _ c (List.mem_reverse.mp hc)

theorem Tight.trimEnd_eq (h : Tight t) : trimEnd t = t := by
  have htrim := trimEnd_append (s := []) nofun h
  rwa [List.append_nil] at htrim

theorem trimStart_ne_nil (h : Tight t) (hne : t ≠ []) : trimStart t ≠ [] := by
  obtain ⟨s, hs, hblank⟩ := exists_trimStart t
  rintro hnil
  rw [hnil, List.append_nil] at hs
  obtain ⟨c, hc⟩ := Option.ne_none_iff_exists'.mp (mt List.getLast?_eq_none_iff.mp hne)
  have hlast : isBlank c = true := hblank c (hs ▸ List.mem_of_getLast? hc)
  rw [h c hc] at hlast
  cases hlast

theorem trim_trimStart (t : List Char) : trim (trimStart t) = trim t := by
  rw [trim, trimStart_of_stops (stops_trimStart t), ← trim]

/-! ## What the pieces take -/

namespace Form

theorem word?_eq_some_iff : word? w t = some u ↔ t = w ++ u := by
  rw [word?, List.isPrefixOf?_eq_some_iff_append_eq]
  exact eq_comm

theorem blanks?_eq_some_iff : blanks? t = some u ↔
    ∃ s, t = s ++ u ∧ (s ≠ [] ∧ Run isBlank s) ∧ Stops isBlank u := by
  constructor
  · intro h
    unfold blanks? at h
    split at h
    · next c rest =>
      split at h
      · next hc =>
        cases h
        obtain ⟨s, hs, hblank⟩ := exists_trimStart rest
        refine ⟨c :: s, congrArg (c :: ·) hs, ⟨by simp, ?_⟩, stops_trimStart rest⟩
        exact List.forall_mem_cons.mpr ⟨hc, hblank⟩
      · cases h
    · cases h
  · rintro ⟨s, rfl, ⟨hne, hblank⟩, hu⟩
    obtain ⟨c, s, rfl⟩ := List.exists_cons_of_ne_nil hne
    obtain ⟨hc, hs⟩ := List.forall_mem_cons.mp hblank
    rw [List.cons_append, blanks?, if_pos hc, trimStart_append hs hu]

theorem name?_eq_some_iff : name? t = some (s, u) ↔
    t = s ++ u ∧ (s ≠ [] ∧ Run isNameChar s) ∧ Stops isNameChar u := by
  have hsplit : t = t.takeWhile isNameChar ++ t.dropWhile isNameChar := List.takeWhile_append_dropWhile.symm
  constructor
  · intro h
    unfold name? at h
    split at h
    · cases h
    · next c name hname =>
      cases h
      refine ⟨hname ▸ hsplit, ⟨by simp, hname ▸ run_takeWhile _ _⟩, stops_dropWhile _ _⟩
  · rintro ⟨rfl, ⟨hne, hs⟩, hu⟩
    rw [name?, hs.takeWhile hu, hs.dropWhile hu]
    cases s with
    | nil => exact absurd rfl hne
    | cons c s => rfl

theorem quoted?_eq_some_iff : quoted? t = some (x, u) ↔
    ∃ q q', t = q :: (x ++ q' :: u) ∧ isQuote q = true ∧ isQuote q' = true ∧ Run (!isQuote ·) x := by
  constructor
  · intro h
    unfold quoted? at h
    split at h
    · next q rest =>
      split at h
      · next hq =>
        split at h
        · next q' after hdrop =>
          cases h
          refine ⟨q, q', ?_, hq, ?_, run_takeWhile _ _⟩
          · rw [← hdrop, List.takeWhile_append_dropWhile]
          · have hstop := stops_dropWhile (!isQuote ·) rest
            rw [hdrop] at hstop
            simpa using hstop q' rfl
        · cases h
      · cases h
    · cases h
  · rintro ⟨q, q', rfl, hq, hq', hx⟩
    have hstop : Stops (!isQuote ·) (q' :: u) := stops_cons (by simp [hq']) u
    rw [quoted?, if_pos hq, hx.dropWhile hstop, hx.takeWhile hstop]

theorem afterEquals?_eq_some_iff : afterEquals? t = some v ↔
    ∃ s s', t = s ++ '=' :: (s' ++ v) ∧ Run isBlank s ∧ Run isBlank s' ∧ v ≠ [] ∧ Stops isBlank v := by
  constructor
  · intro h
    unfold afterEquals? at h
    split at h
    · next rest hstart =>
      split at h
      · cases h
      · next c value hvalue =>
        cases h
        obtain ⟨s, hs, hblank⟩ := exists_trimStart t
        obtain ⟨s', hs', hblank'⟩ := exists_trimStart rest
        refine ⟨s, s', ?_, hblank, hblank', by simp, hvalue ▸ stops_trimStart rest⟩
        rw [← hvalue, ← hs', ← hstart, ← hs]
    · cases h
  · rintro ⟨s, s', rfl, hs, hs', hne, hv⟩
    rw [afterEquals?, trimStart_append hs (stops_cons (by decide) _)]
    simp only [trimStart_append hs' hv]
    cases v with
    | nil => exact absurd rfl hne
    | cons c v => rfl

theorem binding?_eq_some_iff : binding? t = some (x, u) ↔ ∃ k s, t = k ++ (s ++ (x ++ u)) ∧ Pattern.IsBinder k ∧
    (s ≠ [] ∧ Run isBlank s) ∧ (x ≠ [] ∧ Run isNameChar x) ∧ Stops isNameChar u := by
  have hbinder : ∀ rest, (word? "const".toList t <|> word? "let".toList t <|> word? "var".toList t) = some rest ↔
      ∃ k, t = k ++ rest ∧ Pattern.IsBinder k := by
    intro rest
    constructor
    · intro h
      simp only [Option.orElse_eq_orElse, Option.orElse_eq_or, Option.or_eq_some_iff, word?_eq_some_iff] at h
      rcases h with hk | ⟨-, hk | ⟨-, hk⟩⟩
      · exact ⟨_, hk, .inl rfl⟩
      · exact ⟨_, hk, .inr (.inl rfl)⟩
      · exact ⟨_, hk, .inr (.inr rfl)⟩
    · rintro ⟨_, rfl, rfl | rfl | rfl⟩ <;> rfl
  simp only [binding?, Option.bind_eq_bind, Option.bind_eq_some_iff, hbinder, blanks?_eq_some_iff, name?_eq_some_iff]
  constructor
  · rintro ⟨_, ⟨k, rfl, hk⟩, _, ⟨s, rfl, hs, -⟩, rfl, hx, hu⟩
    exact ⟨k, s, rfl, hk, hs, hx, hu⟩
  · rintro ⟨k, s, rfl, hk, hs, hx, hu⟩
    exact ⟨_, ⟨k, rfl, hk⟩, _, ⟨s, rfl, hs, (stops_of_name hx.2).append hx.1 u⟩, rfl, hx, hu⟩

/-! ## Values -/

open Pattern

variable {k : Nat} {cs : Captures}

/-- What is captured behind an equals sign is the value, perhaps with white space before it. -/
theorem afterEquals?_of_matches (h : (sequence [blanks, Pattern.word "=", blanks, .group k line]).Matches t cs)
    (ht : Tight t) : ∃ v, afterEquals? t = some (trimStart v) ∧ cs = [(k, v)] := by
  obtain ⟨s, s', v, rfl, rfl, hs, hs', hne, -⟩ := sequence_assigned.mp h
  obtain ⟨s'', hv, hs''⟩ := exists_trimStart v
  have htight : Tight v := by
    rw [← List.singleton_append, ← List.append_assoc, ← List.append_assoc] at ht
    exact ht.right
  refine ⟨v, afterEquals?_eq_some_iff.mpr ⟨s, s' ++ s'', ?_, hs, hs'.append hs'', ?_, stops_trimStart v⟩, rfl⟩
  · rw [List.append_assoc, ← hv]
  · exact trimStart_ne_nil htight hne

theorem matches_of_afterEquals? (h : afterEquals? t = some v) (hline : '\n' ∉ t) :
    (sequence [blanks, Pattern.word "=", blanks, .group k line]).Matches t [(k, v)] := by
  obtain ⟨s, s', rfl, hs, hs', hne, -⟩ := afterEquals?_eq_some_iff.mp h
  exact sequence_assigned.mpr ⟨s, s', v, rfl, rfl, hs, hs', hne, run_line fun hmem => hline (by simp [hmem])⟩

theorem stops_of_afterEquals? (h : afterEquals? t = some v) : Stops isNameChar t := by
  obtain ⟨s, s', rfl, hs, -⟩ := afterEquals?_eq_some_iff.mp h
  exact stops_blank_append hs (stops_cons (by decide) _)

theorem stops_of_binding? {r : List Char × List Char} (h : binding? t = some r) : Stops isBlank t := by
  obtain ⟨w, s, rfl, hw, -⟩ := binding?_eq_some_iff.mp h
  rcases hw with rfl | rfl | rfl <;> exact stops_cons (by decide) _

/-! ## What the recognisers take -/

theorem exportBinding?_eq_some_iff : exportBinding? t = some (x, v) ↔ ∃ s y u, t = "export".toList ++ (s ++ y) ∧
    (s ≠ [] ∧ Run isBlank s) ∧ binding? y = some (x, u) ∧ afterEquals? u = some v := by
  simp only [exportBinding?, Option.bind_eq_bind, Option.bind_eq_some_iff, word?_eq_some_iff, blanks?_eq_some_iff]
  constructor
  · rintro ⟨_, rfl, _, ⟨s, rfl, hs, -⟩, ⟨_, u⟩, hbinding, _, hvalue, ⟨⟩⟩
    exact ⟨s, _, u, rfl, hs, hbinding, hvalue⟩
  · rintro ⟨s, y, u, rfl, hs, hbinding, hvalue⟩
    exact ⟨_, rfl, y, ⟨s, rfl, hs, stops_of_binding? hbinding⟩, (x, u), hbinding, v, hvalue, rfl⟩

theorem exportDefault?_eq_some_iff : exportDefault? t = some v ↔
    ∃ s s', t = "export".toList ++ (s ++ ("default".toList ++ (s' ++ v))) ∧ (s ≠ [] ∧ Run isBlank s) ∧
      (s' ≠ [] ∧ Run isBlank s') ∧ v ≠ [] ∧ Stops isBlank v := by
  simp only [exportDefault?, Option.bind_eq_bind, Option.bind_eq_some_iff, word?_eq_some_iff, blanks?_eq_some_iff]
  constructor
  · rintro ⟨_, rfl, _, ⟨s, rfl, hs, -⟩, _, rfl, y, ⟨s', rfl, hs', hstop⟩, h⟩
    cases y with
    | nil => cases h
    | cons c y =>
      cases h
      exact ⟨s, s', rfl, hs, hs', by simp, hstop⟩
  · rintro ⟨s, s', rfl, hs, hs', hne, hstop⟩
    refine ⟨_, rfl, _, ⟨s, rfl, hs, stops_cons (by decide) _⟩, _, rfl, v, ⟨s', rfl, hs', hstop⟩, ?_⟩
    cases v with
    | nil => exact absurd rfl hne
    | cons c v => rfl

theorem exportsAssign?_eq_some_iff : exportsAssign? t = some (x, v) ↔ ∃ y u, (t = "module.".toList ++ y ∨ t = y) ∧
    y = "exports.".toList ++ (x ++ u) ∧ (x ≠ [] ∧ Run isNameChar x) ∧ afterEquals? u = some v := by
  simp only [exportsAssign?, Option.bind_eq_bind, Option.bind_eq_some_iff, word?_eq_some_iff]
  constructor
  · rintro ⟨_, hword, ⟨_, u⟩, hname, _, hvalue, ⟨⟩⟩
    obtain ⟨rfl, hx, -⟩ := name?_eq_some_iff.mp hname
    refine ⟨_, u, ?_, rfl, hx, hvalue⟩
    cases hmodule : word? "module.".toList t with
    | none =>
      rw [hmodule] at hword
      exact .inr hword
    | some rest =>
      rw [hmodule] at hword
      exact .inl (word?_eq_some_iff.mp (hmodule.trans (congrArg some hword)))
  · rintro ⟨_, u, hmodule, rfl, hx, hvalue⟩
    refine ⟨x ++ u, ?_, (x, u), name?_eq_some_iff.mpr ⟨rfl, hx, stops_of_afterEquals? hvalue⟩, v, hvalue, rfl⟩
    rcases hmodule with rfl | rfl
    · rw [word?_eq_some_iff.mpr rfl]
      rfl
    · rfl

theorem moduleExports?_eq_some_iff : moduleExports? t = some v ↔
    ∃ u, t = "module.exports".toList ++ u ∧ afterEquals? u = some v := by
  simp only [moduleExports?, Option.bind_eq_bind, Option.bind_eq_some_iff, word?_eq_some_iff]

theorem declaration?_eq_some_iff : declaration? t = some v ↔
    ∃ x u, binding? t = some (x, u) ∧ afterEquals? u = some v := by
  simp only [declaration?, Option.bind_eq_bind, Option.bind_eq_some_iff, Prod.exists]

theorem stops_of_quoted? {r : List Char × List Char} (h : quoted? t = some r) : Stops isBlank t := by
  obtain ⟨q, q', rfl, hq, -⟩ := quoted?_eq_some_iff.mp h
  have hmark : q = '"' ∨ q = '\'' := by simpa [isQuote] using hq
  rcases hmark with rfl | rfl <;> exact stops_cons (by decide) _

theorem quoted?_eq_none (h : Stops isQuote t) : quoted? t = none := by
  cases t with
  | nil => rfl
  | cons c t =>
    have hc : isQuote c = false := h c rfl
    rw [quoted?, if_neg (by simp [hc])]

theorem throw?_eq_some_iff : throw? t = some x ↔ ∃ s u, t = "throw".toList ++ (s ++ u) ∧ (s ≠ [] ∧ Run isBlank s) ∧
    ((∃ s₁ s₂ s₃ y z, u = "new".toList ++ (s₁ ++ ("Error(".toList ++ (s₂ ++ y))) ∧ (s₁ ≠ [] ∧ Run isBlank s₁) ∧
      Run isBlank s₂ ∧ quoted? y = some (x, z) ∧ z = s₃ ++ [')'] ∧ Run isBlank s₃) ∨ quoted? u = some (x, [])) := by
  simp only [throw?, Option.bind_eq_bind, Option.bind_eq_some_iff, word?_eq_some_iff, blanks?_eq_some_iff]
  constructor
  · rintro ⟨_, rfl, u, ⟨s, rfl, hs, -⟩, h⟩
    refine ⟨s, u, rfl, hs, ?_⟩
    split at h
    · next message hquoted =>
      cases h
      exact .inr hquoted
    · cases h
    · simp only [Option.bind_eq_some_iff, word?_eq_some_iff, blanks?_eq_some_iff] at h
      obtain ⟨_, rfl, _, ⟨s₁, rfl, hs₁, -⟩, rest, rfl, ⟨message, z⟩, hquoted, h⟩ := h
      split at h
      · next hclose =>
        cases h
        obtain ⟨s₂, hs₂, hblank₂⟩ := exists_trimStart rest
        obtain ⟨s₃, hs₃, hblank₃⟩ := exists_trimStart z
        rw [hclose] at hs₃
        exact .inl ⟨s₁, s₂, s₃, _, z, by rw [← hs₂], hs₁, hblank₂, hquoted, hs₃, hblank₃⟩
      · cases h
  · rintro ⟨s, u, rfl, hs, ⟨s₁, s₂, s₃, y, _, rfl, hs₁, hs₂, hquoted, rfl, hs₃⟩ | hquoted⟩
    · refine ⟨_, rfl, _, ⟨s, rfl, hs, stops_cons (by decide) _⟩, ?_⟩
      have hnone : quoted? ("new".toList ++ (s₁ ++ ("Error(".toList ++ (s₂ ++ y)))) = none :=
        quoted?_eq_none (stops_cons (by decide) _)
      rw [hnone]
      simp only [Option.bind_eq_some_iff, word?_eq_some_iff, blanks?_eq_some_iff]
      refine ⟨_, rfl, _, ⟨s₁, rfl, hs₁, stops_cons (by decide) _⟩, _, rfl, (x, s₃ ++ [')']), ?_, ?_⟩
      · rw [trimStart_append hs₂ (stops_of_quoted? hquoted), hquoted]
      · rw [trimStart_append hs₃ (stops_cons (by decide) _), if_pos rfl]
    · refine ⟨_, rfl, u, ⟨s, rfl, hs, stops_of_quoted? hquoted⟩, ?_⟩
      rw [hquoted]

theorem require?_eq_some_iff {property : Option (List Char)} : require? t = some (x, property) ↔
    ∃ s y z s' tail, t = "require(".toList ++ (s ++ y) ∧ Run isBlank s ∧ quoted? y = some (x, z) ∧ x ≠ [] ∧
      z = s' ++ ')' :: tail ∧ Run isBlank s' ∧ (tail = [] ∧ property = none ∨
        ∃ n, tail = '.' :: n ∧ (n ≠ [] ∧ Run isNameChar n) ∧ property = some n) := by
  simp only [require?, Option.bind_eq_bind, Option.bind_eq_some_iff, word?_eq_some_iff]
  constructor
  · rintro ⟨rest, rfl, ⟨request, z⟩, hquoted, h⟩
    obtain ⟨s, hs, hblank⟩ := exists_trimStart rest
    obtain ⟨s', hs', hblank'⟩ := exists_trimStart z
    cases request with
    | nil => cases h
    | cons c request =>
      dsimp only at h
      split at h
      · next hclose =>
        cases h
        rw [hclose] at hs'
        exact ⟨s, _, z, s', [], by rw [← hs], hblank, hquoted, by simp, hs', hblank', .inl ⟨rfl, rfl⟩⟩
      · next tail hclose =>
        rw [hclose] at hs'
        split at h
        · next n hname =>
          cases h
          obtain ⟨rfl, hn, -⟩ := name?_eq_some_iff.mp hname
          rw [List.append_nil] at hs'
          exact ⟨s, _, z, s', _, by rw [← hs], hblank, hquoted, by simp, hs', hblank', .inr ⟨_, rfl, hn, rfl⟩⟩
        · cases h
      · cases h
  · rintro ⟨s, y, _, s', tail, rfl, hs, hquoted, hne, rfl, hs', htail⟩
    refine ⟨_, rfl, (x, s' ++ ')' :: tail), ?_, ?_⟩
    · rw [trimStart_append hs (stops_of_quoted? hquoted), hquoted]
    · obtain ⟨c, x, rfl⟩ := List.exists_cons_of_ne_nil hne
      simp only [trimStart_append hs' (stops_cons (c := ')') (by decide) _)]
      rcases htail with ⟨rfl, rfl⟩ | ⟨n, rfl, hn, rfl⟩
      · rfl
      · have hname : name? n = some (n, []) := name?_eq_some_iff.mpr ⟨(List.append_nil n).symm, hn, stops_nil _⟩
        simp only [hname]

/-! ## Import clauses -/

open Pattern

theorem matches_defaultBinding : defaultBinding.Matches t [] ↔ ∃ n s u s', t = n ++ (s ++ u) ∧
    (u = ',' :: s' ∨ u = s') ∧ (n ≠ [] ∧ Run isNameChar n) ∧ Run isBlank s ∧ Run isBlank s' := by
  simp only [defaultBinding, sequence_name, sequence_blanks, sequence_maybeWord, sequence_nil]
  constructor
  · rintro ⟨n, _, rfl, hn, s, _, rfl, hs, u, hu, s', _, rfl, hs', rfl, -⟩
    rw [List.append_nil] at hu
    exact ⟨n, s, _, s', rfl, hu, hn, hs, hs'⟩
  · rintro ⟨n, s, u, s', rfl, hu, hn, hs, hs'⟩
    exact ⟨n, _, rfl, hn, s, _, rfl, hs, s', hu, s', [], (List.append_nil s').symm, hs', rfl, trivial⟩

theorem matches_namedBindings : namedBindings.Matches t [] ↔
    ∃ u s, t = '{' :: (u ++ '}' :: s) ∧ Run (· != '}') u ∧ Run isBlank s := by
  simp only [namedBindings, sequence_word, sequence_cons matches_many, sequence_blanks, sequence_nil]
  constructor
  · rintro ⟨_, rfl, u, _, rfl, hu, _, rfl, s, _, rfl, hs, rfl, -⟩
    exact ⟨u, s, by simp, hu, hs⟩
  · rintro ⟨u, s, rfl, hu, hs⟩
    exact ⟨_, rfl, u, _, rfl, hu, _, rfl, s, [], (List.append_nil s).symm, hs, rfl, trivial⟩

theorem matches_namespaceBinding : namespaceBinding.Matches t [] ↔
    ∃ s s₁ n s₂, t = '*' :: (s ++ ("as".toList ++ (s₁ ++ (n ++ s₂)))) ∧ Run isBlank s ∧ (s₁ ≠ [] ∧ Run isBlank s₁) ∧
      (n ≠ [] ∧ Run isNameChar n) ∧ Run isBlank s₂ := by
  simp only [namespaceBinding, sequence_word, sequence_blanks, sequence_gap, sequence_name, sequence_nil]
  constructor
  · rintro ⟨_, rfl, s, _, rfl, hs, _, rfl, s₁, _, rfl, hs₁, n, _, rfl, hn, s₂, _, rfl, hs₂, rfl, -⟩
    exact ⟨s, s₁, n, s₂, by simp, hs, hs₁, hn, hs₂⟩
  · rintro ⟨s, s₁, n, s₂, rfl, hs, hs₁, hn, hs₂⟩
    exact ⟨_, rfl, s, _, rfl, hs, _, rfl, s₁, _, rfl, hs₁, n, _, rfl, hn, s₂, [], (List.append_nil s₂).symm, hs₂, rfl,
      trivial⟩

theorem name?_eq_none (h : Stops isNameChar t) : name? t = none := by
  have hnone : t.takeWhile isNameChar = [] := Run.takeWhile (s := []) nofun h
  rw [name?, hnone]

/-- What follows a default binding starts with a brace or a star, if there is anything. -/
def Opens (t : List Char) : Prop := ∀ c ∈ t.head?, c = '{' ∨ c = '*'

theorem Opens.stops (h : Opens t) (hp : p '{' = false ∧ p '*' = false) : Stops p t := by
  intro c hc
  rcases h c hc with rfl | rfl
  · exact hp.1
  · exact hp.2

theorem exists_skipDefault (t : List Char) : ∃ s, t = s ++ skipDefault t ∧ (maybe defaultBinding).Matches s [] := by
  unfold skipDefault
  cases hname : name? t with
  | none => exact ⟨[], rfl, matches_maybe.mpr (.inr ⟨rfl, rfl⟩)⟩
  | some r =>
    obtain ⟨n, rest⟩ := r
    obtain ⟨rfl, hn, -⟩ := name?_eq_some_iff.mp hname
    obtain ⟨s, hs, hblank⟩ := exists_trimStart rest
    dsimp only
    split
    · next rest' hcomma =>
      obtain ⟨s', hs', hblank'⟩ := exists_trimStart rest'
      refine ⟨n ++ (s ++ ',' :: s'), ?_, matches_maybe.mpr (.inl ?_)⟩
      · rw [hs, hcomma, List.append_assoc, List.append_assoc, List.cons_append, ← hs']
      · exact matches_defaultBinding.mpr ⟨n, s, _, s', rfl, .inl rfl, hn, hblank, hblank'⟩
    · refine ⟨n ++ s, by rw [List.append_assoc, ← hs], matches_maybe.mpr (.inl ?_)⟩
      exact matches_defaultBinding.mpr ⟨n, s, [], [], by rw [List.append_nil], .inr rfl, hn, hblank, nofun⟩

theorem skipDefault_append (hs : (maybe defaultBinding).Matches s []) (hu : Opens u) : skipDefault (s ++ u) = u := by
  have hblank : Stops isBlank u := hu.stops (by decide)
  have hname : Stops isNameChar u := hu.stops (by decide)
  rcases matches_maybe.mp hs with hs | ⟨rfl, -⟩
  · obtain ⟨n, s₁, w, s₂, rfl, hw, hn, hs₁, hs₂⟩ := matches_defaultBinding.mp hs
    -- the name ends where white space, the comma or the next binding starts
    have hstop : Stops isNameChar (s₁ ++ (w ++ u)) := by
      refine stops_blank_append hs₁ ?_
      rcases hw with rfl | rfl
      · exact stops_cons (by decide) _
      · exact stops_blank_append hs₂ hname
    have htake : name? (n ++ (s₁ ++ w) ++ u) = some (n, s₁ ++ (w ++ u)) :=
      name?_eq_some_iff.mpr ⟨by simp, hn, hstop⟩
    rw [skipDefault, htake]
    rcases hw with rfl | rfl
    · have hcomma : trimStart (s₁ ++ (',' :: s₂ ++ u)) = ',' :: (s₂ ++ u) :=
        trimStart_append hs₁ (stops_cons (by decide) _)
      simp only [hcomma]
      exact trimStart_append hs₂ hblank
    · rw [← List.append_assoc]
      simp only [trimStart_append (hs₁.append hs₂) hblank]
      split
      · next hcomma =>
        rcases hu ',' rfl with h | h <;> cases h
      · rfl
  · rw [List.nil_append, skipDefault, name?_eq_none hname]

/-- What follows the named bindings starts with a star, if there is anything. -/
def Stars (t : List Char) : Prop := ∀ c ∈ t.head?, c = '*'

theorem exists_skipNamed (h : skipNamed t = some u) : ∃ s, t = s ++ u ∧ (maybe namedBindings).Matches s [] := by
  unfold skipNamed at h
  split at h
  · next rest =>
    split at h
    · next c after hdrop =>
      cases h
      have hc : c = '}' := by
        have hstop := stops_dropWhile (fun c => decide (c ≠ '}')) rest
        rw [hdrop] at hstop
        simpa using hstop c rfl
      subst hc
      obtain ⟨s, hs, hblank⟩ := exists_trimStart after
      refine ⟨'{' :: (rest.takeWhile (fun c => decide (c ≠ '}')) ++ '}' :: s), ?_, matches_maybe.mpr (.inl ?_)⟩
      · rw [List.cons_append, List.append_assoc, List.cons_append, ← hs, ← hdrop, List.takeWhile_append_dropWhile]
      · refine matches_namedBindings.mpr ⟨_, s, rfl, fun c hc => ?_, hblank⟩
        simpa using run_takeWhile _ _ c hc
    · cases h
  · cases h
    exact ⟨[], rfl, matches_maybe.mpr (.inr ⟨rfl, rfl⟩)⟩

theorem skipNamed_append (hs : (maybe namedBindings).Matches s []) (hu : Stars u) : skipNamed (s ++ u) = some u := by
  have hblank : Stops isBlank u := fun c hc => hu c hc ▸ by decide
  rcases matches_maybe.mp hs with hs | ⟨rfl, -⟩
  · obtain ⟨y, s', rfl, hy, hs'⟩ := matches_namedBindings.mp hs
    have hrun : Run (fun c => decide (c ≠ '}')) y := fun c hc => by simpa using hy c hc
    have hdrop : (y ++ '}' :: (s' ++ u)).dropWhile (fun c => decide (c ≠ '}')) = '}' :: (s' ++ u) :=
      hrun.dropWhile (stops_cons (by decide) _)
    rw [List.cons_append, List.append_assoc, List.cons_append, skipNamed, hdrop]
    exact congrArg some (trimStart_append hs' hblank)
  · rw [List.nil_append]
    unfold skipNamed
    split
    · cases hu '{' rfl
    · rfl

theorem exists_skipNamespace (h : skipNamespace t = some u) :
    ∃ s, t = s ++ u ∧ (maybe namespaceBinding).Matches s [] := by
  unfold skipNamespace at h
  split at h
  · next rest =>
    simp only [Option.bind_eq_bind, Option.bind_eq_some_iff, word?_eq_some_iff, blanks?_eq_some_iff, Prod.exists,
      name?_eq_some_iff] at h
    obtain ⟨_, hword, _, ⟨s₁, rfl, hs₁, -⟩, n, rest', ⟨rfl, hn, -⟩, ⟨⟩⟩ := h
    obtain ⟨s, hs, hblank⟩ := exists_trimStart rest
    obtain ⟨s₂, hs₂, hblank₂⟩ := exists_trimStart rest'
    refine ⟨'*' :: (s ++ ("as".toList ++ (s₁ ++ (n ++ s₂)))), ?_, matches_maybe.mpr (.inl ?_)⟩
    · rw [hs, hword]
      conv_lhs => rw [hs₂]
      simp
    · exact matches_namespaceBinding.mpr ⟨s, s₁, n, s₂, rfl, hblank, hs₁, hn, hblank₂⟩
  · cases h
    exact ⟨[], rfl, matches_maybe.mpr (.inr ⟨rfl, rfl⟩)⟩

theorem skipNamespace_eq (hs : (maybe namespaceBinding).Matches s []) : skipNamespace s = some [] := by
  rcases matches_maybe.mp hs with hs | ⟨rfl, -⟩
  · obtain ⟨s, s₁, n, s₂, rfl, hs, hs₁, hn, hs₂⟩ := matches_namespaceBinding.mp hs
    have hname : name? (n ++ s₂) = some (n, s₂) := name?_eq_some_iff.mpr ⟨rfl, hn, stops_of_blank hs₂⟩
    have hstop : Stops isBlank (n ++ s₂) := (stops_of_name hn.2).append hn.1 s₂
    have hblanks : blanks? (s₁ ++ (n ++ s₂)) = some (n ++ s₂) := blanks?_eq_some_iff.mpr ⟨s₁, rfl, hs₁, hstop⟩
    have hend : trimStart s₂ = [] := by
      have := trimStart_append hs₂ (stops_nil isBlank)
      rwa [List.append_nil] at this
    have has : trimStart (s ++ ("as".toList ++ (s₁ ++ (n ++ s₂)))) = "as".toList ++ (s₁ ++ (n ++ s₂)) :=
      trimStart_append hs (stops_cons (by decide) _)
    simp only [skipNamespace, has, word?_eq_some_iff.mpr rfl, hblanks, hname, hend, Option.bind_eq_bind,
      Option.bind_some, Option.pure_def]
  · rfl

theorem isBindings_iff : isBindings t = true ↔ ∃ s d n w, t = s ++ (d ++ (n ++ w)) ∧ Run isBlank s ∧
    (maybe defaultBinding).Matches d [] ∧ (maybe namedBindings).Matches n [] ∧
      (maybe namespaceBinding).Matches w [] := by
  have hbindings : isBindings t = true ↔ skipNamed (skipDefault (trimStart t)) >>= skipNamespace = some [] := by
    unfold isBindings
    split <;> simp_all
  rw [hbindings, Option.bind_eq_bind, Option.bind_eq_some_iff]
  constructor
  · rintro ⟨u, hnamed, hspace⟩
    obtain ⟨s, hs, hblank⟩ := exists_trimStart t
    obtain ⟨d, hd, hdefault⟩ := exists_skipDefault (trimStart t)
    obtain ⟨n, hn, hbraces⟩ := exists_skipNamed hnamed
    obtain ⟨w, rfl, hstar⟩ := exists_skipNamespace hspace
    rw [List.append_nil] at hn
    exact ⟨s, d, n, w, by rw [← hn, ← hd, ← hs], hblank, hdefault, hbraces, hstar⟩
  · rintro ⟨s, d, n, w, rfl, hs, hd, hn, hw⟩
    -- each part ends where the next one opens, as no part starts with a character that the one before could take
    have hstars : Stars w := by
      rcases matches_maybe.mp hw with hw | ⟨rfl, -⟩
      · obtain ⟨_, _, _, _, rfl, -⟩ := matches_namespaceBinding.mp hw
        rintro _ ⟨⟩
        rfl
      · exact nofun
    have hopens : Opens (n ++ w) := by
      rcases matches_maybe.mp hn with hn | ⟨rfl, -⟩
      · obtain ⟨_, _, rfl, -⟩ := matches_namedBindings.mp hn
        rintro _ ⟨⟩
        exact .inl rfl
      · exact fun c hc => .inr (hstars c hc)
    have hstop : Stops isBlank (d ++ (n ++ w)) := by
      rcases matches_maybe.mp hd with hd | ⟨rfl, -⟩
      · obtain ⟨x, _, _, _, rfl, -, hx, -⟩ := matches_defaultBinding.mp hd
        rw [List.append_assoc]
        exact (stops_of_name hx.2).append hx.1 _
      · exact hopens.stops (by decide)
    refine ⟨w, ?_, skipNamespace_eq hw⟩
    rw [trimStart_append hs hstop, skipDefault_append hd hopens, skipNamed_append hn hstars]

theorem isClause_iff : isClause t = true ↔ ∃ s u, t = s ++ u ∧ Run isBlank s ∧ (maybe clause).Matches u [] := by
  have hclause : ∀ u, clause.Matches u [] ↔ ∃ d n w s, u = d ++ (n ++ (w ++ ("from".toList ++ s))) ∧
      (maybe defaultBinding).Matches d [] ∧ (maybe namedBindings).Matches n [] ∧
        (maybe namespaceBinding).Matches w [] ∧ Run isBlank s := by
    intro u
    simp only [clause, sequence_bare (a := maybe defaultBinding) rfl, sequence_bare (a := maybe namedBindings) rfl,
      sequence_bare (a := maybe namespaceBinding) rfl, sequence_word, sequence_blanks, sequence_nil]
    constructor
    · rintro ⟨d, _, rfl, hd, n, _, rfl, hn, w, _, rfl, hw, _, rfl, s, _, rfl, hs, rfl, -⟩
      exact ⟨d, n, w, s, by simp, hd, hn, hw, hs⟩
    · rintro ⟨d, n, w, s, rfl, hd, hn, hw, hs⟩
      exact ⟨d, _, rfl, hd, n, _, rfl, hn, w, _, rfl, hw, _, rfl, s, [], (List.append_nil s).symm, hs, rfl, trivial⟩
  obtain ⟨s', hs', hblank'⟩ := exists_trimEnd t
  constructor
  · intro h
    unfold isClause at h
    split at h
    · next hnil =>
      rw [hnil, List.nil_append] at hs'
      exact ⟨s', [], by rw [List.append_nil]; exact hs', hblank', matches_maybe.mpr (.inr ⟨rfl, rfl⟩)⟩
    · split at h
      · next bindings hfrom =>
        obtain ⟨s, d, n, w, hbindings, hs, hd, hn, hw⟩ := isBindings_iff.mp h
        have hend : trimEnd t = bindings.reverse ++ "from".toList := by
          have hrev := congrArg List.reverse (word?_eq_some_iff.mp hfrom)
          rwa [List.reverse_reverse, List.reverse_append, List.reverse_reverse] at hrev
        refine ⟨s, d ++ (n ++ (w ++ ("from".toList ++ s'))), ?_, hs,
          matches_maybe.mpr (.inl ((hclause _).mpr ⟨d, n, w, s', rfl, hd, hn, hw, hblank'⟩))⟩
        rw [hs', hend, hbindings]
        simp
      · cases h
  · rintro ⟨s, u, rfl, hs, hu⟩
    rcases matches_maybe.mp hu with hu | ⟨rfl, -⟩
    · obtain ⟨d, n, w, s₁, rfl, hd, hn, hw, hs₁⟩ := (hclause _).mp hu
      have htight : Tight (s ++ (d ++ (n ++ w)) ++ "from".toList) := by
        intro c hc
        rw [List.getLast?_append] at hc
        cases hc
        decide
      have hend : trimEnd (s ++ (d ++ (n ++ (w ++ ("from".toList ++ s₁))))) =
          s ++ (d ++ (n ++ w)) ++ "from".toList := by
        rw [← trimEnd_append hs₁ htight]
        simp
      have hword : word? "from".toList.reverse (s ++ (d ++ (n ++ w)) ++ "from".toList).reverse =
          some (s ++ (d ++ (n ++ w))).reverse := word?_eq_some_iff.mpr (by rw [List.reverse_append])
      unfold isClause
      rw [hend]
      split
      · rfl
      · rw [hword]
        simp only [List.reverse_reverse]
        exact isBindings_iff.mpr ⟨s, d, n, w, rfl, hs, hd, hn, hw⟩
    · have hnil : trimEnd (s ++ []) = [] := by
        rw [List.append_nil]
        exact trimEnd_append (t := []) hs nofun
      unfold isClause
      rw [hnil]

theorem import?_eq_some_iff : import? t = some x ↔ ∃ m q q', t = "import".toList ++ (m ++ q :: (x ++ [q'])) ∧
    isClause m = true ∧ isQuote q = true ∧ isQuote q' = true ∧ x ≠ [] ∧ Run (!isQuote ·) x := by
  simp only [import?, Option.bind_eq_bind, Option.bind_eq_some_iff, word?_eq_some_iff]
  constructor
  · rintro ⟨rest, rfl, h⟩
    split at h
    · next c request clause hquoted =>
      split at h
      · next hclause =>
        cases h
        obtain ⟨q', q, hrest, hq', hq, hrun⟩ := quoted?_eq_some_iff.mp hquoted
        refine ⟨clause.reverse, q, q', ?_, hclause, hq, hq', by simp, fun c hc => hrun c (List.mem_reverse.mp hc)⟩
        have hrev := congrArg List.reverse hrest
        rw [List.reverse_reverse] at hrev
        rw [hrev]
        simp
      · cases h
    · cases h
  · rintro ⟨m, q, q', rfl, hclause, hq, hq', hne, hrun⟩
    refine ⟨_, rfl, ?_⟩
    have hquoted : quoted? (m ++ q :: (x ++ [q'])).reverse = some (x.reverse, m.reverse) :=
      quoted?_eq_some_iff.mpr ⟨q', q, by simp, hq', hq, fun c hc => hrun c (List.mem_reverse.mp hc)⟩
    rw [hquoted]
    have hne : x.reverse ≠ [] := by simpa using hne
    obtain ⟨c, y, hy⟩ := List.exists_cons_of_ne_nil hne
    have hx : (c :: y).reverse = x := by rw [← hy, List.reverse_reverse]
    rw [hy]
    simp only [List.reverse_reverse, if_pos hclause, hx]

end Form

end ModGraph.Source
