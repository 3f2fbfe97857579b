/-!
# Tables

A finite map from keys to values, kept as a list in which no key is written twice. Everything else is
stated through `get?`: `get?_insert` says what a table holds after a binding was added, `get?_erase`
after one was removed, and `mem_keys_iff` that the keys are the arguments at which it is defined.
-/

namespace ModGraph

/-- A finite map from `κ` to `α`. -/
structure Table (κ : Type u) (α : Type v) where
  /-- The bindings, in the order in which their keys first came in. -/
  entries : List (κ × α)

namespace Table

variable {κ : Type u} {α : Type v} [DecidableEq κ]

/-- The table that binds nothing. -/
def empty : Table κ α := ⟨[]⟩

instance : EmptyCollection (Table κ α) := ⟨empty⟩

instance : Inhabited (Table κ α) := ⟨empty⟩

/-- The value of the first binding of a key in a list of bindings. -/
def find? (k : κ) : List (κ × α) → Option α
  | [] => none
  | (k', a) :: rest => if k' = k then some a else find? k rest

/-- The value bound to a key. -/
def get? (t : Table κ α) (k : κ) : Option α := find? k t.entries

/-- Whether a key is bound. -/
def contains (t : Table κ α) (k : κ) : Bool := (t.get? k).isSome

/-- Bind a key in a list of bindings: in its place if it is there, at the end if not. -/
def put (k : κ) (a : α) : List (κ × α) → List (κ × α)
  | [] => [(k, a)]
  | (k', b) :: rest => if k' = k then (k, a) :: rest else (k', b) :: put k a rest

/-- Bind a key to a value; what it was bound to before is lost. -/
def insert (t : Table κ α) (k : κ) (a : α) : Table κ α := ⟨put k a t.entries⟩

/-- Unbind a key. -/
def erase (t : Table κ α) (k : κ) : Table κ α := ⟨t.entries.filter fun e => decide (e.1 ≠ k)⟩

/-- Keep the bindings of the keys that pass a test. -/
def restrict (t : Table κ α) (keep : κ → Bool) : Table κ α := ⟨t.entries.filter fun e => keep e.1⟩

/-- The keys that are bound. -/
def keys (t : Table κ α) : List κ := t.entries.map (·.1)

/-- The values, in the order of their keys. -/
def values (t : Table κ α) : List α := t.entries.map (·.2)

/-- The number of bindings. -/
def size (t : Table κ α) : Nat := t.entries.length

/-! ### Look-up after each operation -/

@[simp] theorem get?_empty (k : κ) : (empty : Table κ α).get? k = none := rfl

theorem find?_put (k k' : κ) (a : α) (l : List (κ × α)) :
    find? k' (put k a l) = if k = k' then some a else find? k' l := by
  induction l with
  | nil => simp [put, find?]
  | cons e l ih =>
    obtain ⟨k₀, b⟩ := e
    by_cases h₀ : k₀ = k
    · subst h₀
      by_cases h : k₀ = k' <;> simp [put, find?, h]
    · by_cases h : k₀ = k'
      · subst h
        simp [put, find?, h₀, Ne.symm h₀]
      · simp [put, find?, h₀, h, ih]

theorem get?_insert (t : Table κ α) (k k' : κ) (a : α) :
    (t.insert k a).get? k' = if k = k' then some a else t.get? k' :=
  find?_put k k' a t.entries

@[simp] theorem get?_insert_self (t : Table κ α) (k : κ) (a : α) :
    (t.insert k a).get? k = some a := by simp [get?_insert]

theorem get?_insert_of_ne (t : Table κ α) {k k' : κ} (a : α) (h : k ≠ k') :
    (t.insert k a).get? k' = t.get? k' := by simp [get?_insert, h]

theorem find?_filter (k k' : κ) (l : List (κ × α)) :
    find? k' (l.filter fun e => decide (e.1 ≠ k)) = if k = k' then none else find? k' l := by
  induction l with
  | nil => simp [find?]
  | cons e l ih =>
    obtain ⟨k₀, b⟩ := e
    by_cases h₀ : k₀ = k
    · subst h₀
      by_cases h : k₀ = k'
      · simp [h] at ih ⊢
        simpa using ih
      · simp only [h, if_false] at ih ⊢
        simpa [find?, h] using ih
    · by_cases h : k₀ = k'
      · subst h
        simp [find?, h₀, Ne.symm h₀]
      · simp only [ne_eq, decide_not] at ih
        simp [find?, h₀, h, ih]

theorem get?_erase (t : Table κ α) (k k' : κ) :
    (t.erase k).get? k' = if k = k' then none else t.get? k' :=
  find?_filter k k' t.entries

@[simp] theorem get?_erase_self (t : Table κ α) (k : κ) : (t.erase k).get? k = none := by
  simp [get?_erase]

theorem get?_erase_of_ne (t : Table κ α) {k k' : κ} (h : k ≠ k') :
    (t.erase k).get? k' = t.get? k' := by simp [get?_erase, h]

theorem find?_filter_keys (keep : κ → Bool) (k : κ) (l : List (κ × α)) :
    find? k (l.filter fun e => keep e.1) = if keep k then find? k l else none := by
  induction l with
  | nil => simp [find?]
  | cons e l ih =>
    obtain ⟨k₀, b⟩ := e
    by_cases hk : keep k₀ = true
    · by_cases h : k₀ = k
      · subst h
        simp [find?, hk]
      · simp [find?, hk, h, ih]
    · by_cases h : k₀ = k
      · subst h
        simp [hk, ih]
      · simp [find?, hk, h, ih]

theorem get?_restrict (t : Table κ α) (keep : κ → Bool) (k : κ) :
    (t.restrict keep).get? k = if keep k then t.get? k else none :=
  find?_filter_keys keep k t.entries

/-! ### Keys -/

theorem find?_isSome_iff (k : κ) (l : List (κ × α)) :
    (find? k l).isSome = true ↔ k ∈ l.map (·.1) := by
  induction l with
  | nil => simp [find?]
  | cons e l ih =>
    obtain ⟨k₀, b⟩ := e
    by_cases h : k₀ = k
    · simp [find?, h]
    · simp only [find?, h, if_false, ih, List.map_cons, List.mem_cons, Ne.symm h, false_or]

/-- The keys of a table are the arguments at which it is defined. -/
theorem mem_keys_iff (t : Table κ α) (k : κ) : k ∈ t.keys ↔ (t.get? k).isSome = true :=
  (find?_isSome_iff k t.entries).symm

theorem mem_values {t : Table κ α} {k : κ} {a : α} (h : t.get? k = some a) : a ∈ t.values := by
  have hfind : ∀ l : List (κ × α), find? k l = some a → a ∈ l.map (·.2) := by
    intro l hl
    induction l with
    | nil => cases hl
    | cons e l ih =>
      obtain ⟨k₀, b⟩ := e
      unfold find? at hl
      split at hl
      · cases hl
        exact List.mem_cons_self
      · exact List.mem_cons_of_mem _ (ih hl)
  exact hfind t.entries h

end Table

end ModGraph
