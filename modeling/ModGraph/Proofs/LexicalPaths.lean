import ModGraph.Proofs.NormalForms

/-!
# What a path means by its components

Read from left to right, every name of a path is kept, `.` does nothing, and `..` removes the last name that is kept.
Where no name is left, `..` does nothing at the root, and stays at the start of a relative path. That is the lexical
meaning of a path (`lexical`).

Normalization keeps names and `..` in one sequence and does not tell them apart: a `..` that stays is removed by the
next one that finds no name, and one stays at the root as well. So of these `..` one is left if their number is odd, and
none otherwise (`components_normalize`). A normal form has the meaning of the path exactly if that many have to stay
(`lexical_normalize`); it is its own normal form in any case.
-/

namespace ModGraph.Path

/-! ## Reading a path -/

/-- What is left of a path that is read from left to right. -/
structure Reading where
  /-- The names that are kept, the last one first. -/
  names : List String
  /-- How many `..` found no name to remove. -/
  climbs : Nat
deriving DecidableEq, Repr

/-- Read one more component. -/
def Reading.next (r : Reading) : Component → Reading
  | .root | .here => r
  | .up =>
    match r.names with
    | [] => { r with climbs := r.climbs + 1 }
    | _ :: names => { r with names := names }
  | .name n => { r with names := n :: r.names }

/-- What is left when all components of a path are read. -/
def reading (p : Path) : Reading := p.components.foldl Reading.next ⟨[], 0⟩

/-- The lexical meaning of a path: the names that are kept, behind the root, or behind every `..` that found no name. -/
def lexical (p : Path) : List Component :=
  (if p.isAbsolute then [.root] else List.replicate p.reading.climbs .up) ++ p.reading.names.reverse.map .name

/-- Components with `..` at most at their start. -/
def LeadingUps (cs : List Component) : Prop := ∃ n rest, cs = List.replicate n .up ++ rest ∧ .up ∉ rest

theorem leadingUps_names (n : Nat) (names : List String) :
    LeadingUps (List.replicate n .up ++ names.map .name) :=
  ⟨n, _, rfl, by simp⟩

/-- Whether as many `..` are left as have to stay: those at the root cancel each other in pairs, and at the start of a
relative path there is no second one to cancel the first. -/
def Balanced (p : Path) : Prop := if p.isAbsolute then p.reading.climbs % 2 = 0 else p.reading.climbs ≤ 1

instance (p : Path) : Decidable p.Balanced :=
  inferInstanceAs (Decidable (if p.isAbsolute then p.reading.climbs % 2 = 0 else p.reading.climbs ≤ 1))

theorem reading_eq (p : Path) : p.reading = p.steps.foldl Reading.next ⟨[], 0⟩ := by
  rw [reading, components, List.foldl_append, steps]
  cases p.lead <;> rfl

namespace Reading

theorem foldl_next_ups (climbs n : Nat) : (List.replicate n .up).foldl next ⟨[], climbs⟩ = ⟨[], climbs + n⟩ := by
  induction n generalizing climbs with
  | zero => rfl
  | succ n ih =>
    rw [List.replicate_succ, List.foldl_cons]
    exact (ih (climbs + 1)).trans (by rw [Nat.add_assoc, Nat.add_comm 1 n])

theorem foldl_next_names (r : Reading) (names : List String) :
    (names.map .name).foldl next r = ⟨names.reverse ++ r.names, r.climbs⟩ := by
  induction names generalizing r with
  | nil => rfl
  | cons n names ih =>
    rw [List.map_cons, List.foldl_cons, ih, List.reverse_cons, List.append_assoc]
    rfl

/-! ## What normalization keeps -/

/-- What normalization has kept when this is read, the last component first. -/
def stack (r : Reading) (absolute : Bool) : List Component :=
  r.names.map .name ++ (List.replicate (r.climbs % 2) .up ++ kept absolute [])

theorem normalStep_stack (r : Reading) (absolute : Bool) {c : Component} (hc : c.IsStep) :
    normalStep (r.stack absolute) c = (r.next c).stack absolute := by
  obtain ⟨names, climbs⟩ := r
  cases c with
  | root => exact absurd hc not_isStep_root
  | here => rfl
  | name n => rfl
  | up =>
    cases names with
    | cons name names =>
      have hup : ∀ below, normalStep (.name name :: below) .up = below := fun below => by cases below <;> rfl
      exact hup _
    | nil =>
      -- a `..` that is there goes, at the root as anywhere else
      have hnext : (⟨[], climbs⟩ : Reading).next .up = ⟨[], climbs + 1⟩ := rfl
      rw [hnext, stack, stack]
      obtain heven | hodd := Nat.mod_two_eq_zero_or_one climbs
      · have hnow : (climbs + 1) % 2 = 1 := by omega
        rw [heven, hnow]
        cases absolute <;> rfl
      · have hnow : (climbs + 1) % 2 = 0 := by omega
        rw [hodd, hnow]
        cases absolute <;> rfl

theorem foldl_normalStep_stack {cs : List Component} (hcs : ∀ c ∈ cs, c.IsStep) (r : Reading) (absolute : Bool) :
    cs.foldl normalStep (r.stack absolute) = (cs.foldl next r).stack absolute := by
  induction cs generalizing r with
  | nil => rfl
  | cons c cs ih =>
    rw [List.foldl_cons, List.foldl_cons, normalStep_stack r absolute (hcs c List.mem_cons_self)]
    exact ih (fun c' hc' => hcs c' (List.mem_cons_of_mem _ hc')) _

theorem reverse_stack (r : Reading) (absolute : Bool) : (r.stack absolute).reverse =
    (if absolute then [.root] else []) ++ List.replicate (r.climbs % 2) .up ++ r.names.reverse.map .name := by
  cases absolute <;> simp [stack, Path.kept]

end Reading

/-- The components of a normal form: of the `..` that find no name there is one if their number is odd. -/
theorem components_normalize (p : Path) : p.normalize.components =
    (if p.isAbsolute then [.root] else []) ++ List.replicate (p.reading.climbs % 2) .up
      ++ p.reading.names.reverse.map .name := by
  have hstack : p.components.foldl normalStep [] = p.reading.stack p.isAbsolute := by
    rw [foldl_components, reading_eq]
    exact Reading.foldl_normalStep_stack isStep_of_mem_steps ⟨[], 0⟩ p.isAbsolute
  rw [normalize, components_ofComponents p.kept_normalize.clean, hstack, Reading.reverse_stack]

theorem isAbsolute_normalize (p : Path) : p.normalize.isAbsolute = p.isAbsolute := by
  rw [Bool.eq_iff_iff, isAbsolute_iff_components, components_normalize]
  cases p.isAbsolute with
  | true => simp
  | false =>
    refine iff_of_false (fun hroot => ?_) (by decide)
    have hmem := List.mem_of_head? hroot
    simp at hmem

theorem reading_normalize (p : Path) : p.normalize.reading = ⟨p.reading.names, p.reading.climbs % 2⟩ := by
  have hstart : (if p.isAbsolute then [Component.root] else []).foldl Reading.next ⟨[], 0⟩ = ⟨[], 0⟩ := by
    cases p.isAbsolute <;> rfl
  rw [reading, components_normalize, List.foldl_append, List.foldl_append, hstart, Reading.foldl_next_ups,
    Reading.foldl_next_names]
  simp

theorem normalize_normalize (p : Path) : p.normalize.normalize = p.normalize := by
  apply (canonical_normalize _).eq (canonical_normalize p)
  rw [components_normalize p.normalize, components_normalize p, isAbsolute_normalize, reading_normalize, Nat.mod_mod]

/-! ## Normal forms that keep the meaning -/

theorem components_normalize_eq_lexical_iff (p : Path) : p.normalize.components = p.lexical ↔ p.Balanced := by
  rw [components_normalize, lexical, List.append_cancel_right_eq, Balanced]
  cases p.isAbsolute with
  | true => simp
  | false =>
    have hcount : p.reading.climbs % 2 = p.reading.climbs ↔ p.reading.climbs ≤ 1 := by omega
    simp only [Bool.false_eq_true, if_false, List.nil_append, List.replicate_inj, or_true, and_true, hcount]

theorem leadingUps_normalize_iff (p : Path) :
    LeadingUps p.normalize.components ↔ (p.isAbsolute = true → p.Balanced) := by
  rw [components_normalize, Balanced]
  cases p.isAbsolute with
  | false => exact iff_of_true (leadingUps_names _ _) nofun
  | true =>
    obtain heven | hodd := Nat.mod_two_eq_zero_or_one p.reading.climbs
    · rw [heven]
      exact iff_of_true ⟨0, _, rfl, by simp⟩ fun _ => rfl
    · rw [hodd]
      refine iff_of_false ?_ (by simp)
      rintro ⟨n, rest, hcs, hrest⟩
      -- the root stands first, so none of the `..` is at the start
      cases n with
      | zero =>
        obtain rfl : _ = rest := hcs
        exact hrest (by simp)
      | succ n => cases hcs

/-- Normalization gives the lexical meaning of a path exactly if the `..` that find no name are balanced, and `..` is
left behind the start only at a root where they are not. No `.` is left, and normalization does nothing when it is done
again. -/
theorem lexical_normalize (p : Path) :
    (p.normalize.components = p.lexical ↔ p.Balanced) ∧
      (LeadingUps p.normalize.components ↔ (p.isAbsolute = true → p.Balanced)) ∧
      .here ∉ p.normalize.components ∧ p.normalize.normalize = p.normalize :=
  ⟨components_normalize_eq_lexical_iff p, leadingUps_normalize_iff p, here_of_canonical (canonical_normalize p),
    normalize_normalize p⟩

example : (⟨"../a/./b/../../c.js"⟩ : Path).Balanced ∧ (⟨"../a/./b/../../c.js"⟩ : Path).normalize = ⟨"../c.js"⟩ := by
  decide +kernel

/-- Two `..` at the start of a relative path cancel each other, and one at the root stays. -/
theorem misread_climbs :
    ((⟨"../../a"⟩ : Path).normalize = ⟨"a"⟩ ∧
      (⟨"../../a"⟩ : Path).normalize.components ≠ (⟨"../../a"⟩ : Path).lexical) ∧
    (⟨"/../a"⟩ : Path).normalize = ⟨"/../a"⟩ ∧
      (⟨"/../a"⟩ : Path).normalize.components ≠ (⟨"/../a"⟩ : Path).lexical := by
  decide +kernel

end ModGraph.Path
