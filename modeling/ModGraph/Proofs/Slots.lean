import ModGraph.Cache
import ModGraph.Resolver

/-!
# One slot for each key

The three partitions of a cache are exclusive: a key has a slot in at most one of them, and a key whose
file is always a declarative module has it in the declarative one (`Cache.Exclusive`). Such a cache is
a single table, from keys to partitions with slots (`Cache.slot?`), and the lemmas here say what the
life of a slot looks like in that table.
-/

namespace ModGraph

/-- A key whose file is a declarative module by its extension. -/
def IsDeclarativeKey (key : String) : Prop := (⟨(splitQuery key).1⟩ : Path).extension = some "mjs"

instance (key : String) : Decidable (IsDeclarativeKey key) := inferInstanceAs (Decidable (_ = _))

namespace Cache

variable {c : Cache} {p q : Partition} {key k : String} {s : Slot}

/-- No key has slots in two partitions, and declarative modules are where they belong. -/
structure Exclusive (c : Cache) : Prop where
  single : ∀ {key p q}, c.has p key = true → c.has q key = true → p = q
  declarative : ∀ {key p}, IsDeclarativeKey key → c.has p key = true → p = .declarative

/-- Nothing speaks against a slot for a key in a partition. -/
structure Admits (c : Cache) (p : Partition) (key : String) : Prop where
  only : ∀ {q}, c.has q key = true → q = p
  declarative : IsDeclarativeKey key → p = .declarative

/-- The partition and the slot of a key. -/
def slot? (c : Cache) (key : String) : Option (Partition × Slot) :=
  [Partition.declarative, .legacy, .discovery].findSome? fun p => (c.get? p key).map (p, ·)

theorem has_eq (c : Cache) (p : Partition) (key : String) : c.has p key = (c.get? p key).isSome := rfl

theorem has_of_get? (h : c.get? p key = some s) : c.has p key = true := by simp [has_eq, h]

/-! ## The table of an exclusive cache -/

theorem slot?_eq_none : c.slot? key = none ↔ ∀ p, c.get? p key = none := by
  simp only [slot?, List.findSome?_eq_none_iff, List.mem_cons, List.not_mem_nil, or_false,
    Option.map_eq_none_iff]
  constructor
  · intro h p
    cases p <;> exact h _ (by simp)
  · exact fun h p _ => h p

theorem get?_of_slot? (h : c.slot? key = some (p, s)) : c.get? p key = some s := by
  obtain ⟨q, _, hq⟩ := List.exists_of_findSome?_eq_some h
  obtain ⟨s', hs', heq⟩ := Option.map_eq_some_iff.mp hq
  cases heq
  exact hs'

theorem slot?_of_get? (hc : ∀ q, c.has q key = true → q = p) (h : c.get? p key = some s) :
    c.slot? key = some (p, s) := by
  cases hs : c.slot? key with
  | none =>
    rw [slot?_eq_none.mp hs p] at h
    cases h
  | some found =>
    obtain ⟨q, s'⟩ := found
    have hq := get?_of_slot? hs
    obtain rfl := hc q (has_of_get? hq)
    rw [hq] at h
    cases h
    rfl

theorem Exclusive.slot?_eq_some (hc : c.Exclusive) : c.slot? key = some (p, s) ↔ c.get? p key = some s :=
  ⟨get?_of_slot?, fun h => slot?_of_get? (fun _ hq => hc.single hq (has_of_get? h)) h⟩

theorem Exclusive.get?_of_ne (hc : c.Exclusive) (h : c.slot? key = some (p, s)) (hq : q ≠ p) :
    c.get? q key = none := by
  cases hs : c.get? q key with
  | none => rfl
  | some s' => exact absurd (hc.single (has_of_get? hs) (has_of_get? (get?_of_slot? h))) hq

theorem Exclusive.admits (hc : c.Exclusive) (h : c.slot? key = some (p, s)) : c.Admits p key where
  only hq := hc.single hq (has_of_get? (get?_of_slot? h))
  declarative hd := hc.declarative hd (has_of_get? (get?_of_slot? h))

theorem admits_of_absent (h : c.slot? key = none) (hd : IsDeclarativeKey key → p = .declarative) :
    c.Admits p key where
  only {q} hq := by
    rw [has_eq, slot?_eq_none.mp h q] at hq
    cases hq
  declarative := hd

theorem Exclusive.empty : Cache.empty.Exclusive := by
  have hhas : ∀ p key, Cache.empty.has p key = false := fun p key => by cases p <;> rfl
  exact ⟨fun h => by simp [hhas] at h, fun _ h => by simp [hhas] at h⟩

/-- Only the slots matter. -/
theorem Exclusive.congr {c' : Cache} (hc : c.Exclusive) (h : ∀ p, c'.slots p = c.slots p) :
    c'.Exclusive := by
  have hhas : ∀ p key, c'.has p key = c.has p key := fun p key => by rw [has, has, h]
  exact ⟨fun hp hq => hc.single (hhas _ _ ▸ hp) (hhas _ _ ▸ hq), fun hd hp => hc.declarative hd (hhas _ _ ▸ hp)⟩

theorem slot?_congr {c' : Cache} (h : ∀ p, c'.slots p = c.slots p) : c'.slot? key = c.slot? key := by
  simp only [slot?, get?, h]

/-! ## The rest of the cache -/

@[simp] theorem builtins_withSlots (c : Cache) (p : Partition) (slots : Table String Slot) :
    (c.withSlots p slots).builtins = c.builtins := by cases p <;> rfl

@[simp] theorem parsing_withSlots (c : Cache) (p : Partition) (slots : Table String Slot) :
    (c.withSlots p slots).parsing = c.parsing := by cases p <;> rfl

@[simp] theorem builtins_set (c : Cache) (p : Partition) (key : String) (s : Slot) :
    (c.set p key s).builtins = c.builtins := builtins_withSlots c p _

@[simp] theorem parsing_set (c : Cache) (p : Partition) (key : String) (s : Slot) :
    (c.set p key s).parsing = c.parsing := parsing_withSlots c p _

@[simp] theorem builtins_delete (c : Cache) (p : Partition) (key : String) :
    (c.delete p key).builtins = c.builtins := builtins_withSlots c p _

@[simp] theorem parsing_delete (c : Cache) (p : Partition) (key : String) :
    (c.delete p key).parsing = c.parsing := parsing_withSlots c p _

@[simp] theorem builtins_commit (c : Cache) (key : String) (p : Partition) :
    (c.commit key p).1.builtins = c.builtins := by
  unfold Cache.commit
  split
  · rfl
  · dsimp only
    split <;> simp

@[simp] theorem builtins_finish (c : Cache) (p : Partition) (key : String) :
    (c.finish p key).builtins = c.builtins := by
  unfold finish
  split
  · exact builtins_set _ _ _ _
  · rfl

/-! ## The life of a slot -/

theorem Exclusive.set (hc : c.Exclusive) (ha : c.Admits p key) : (c.set p key s).Exclusive := by
  have hhas : ∀ {q k}, (c.set p key s).has q k = true → (p = q ∧ key = k) ∨ c.has q k = true := by
    intro q k h
    rw [has_eq, get?_set] at h
    split at h
    · next heq => exact .inl heq
    · exact .inr h
  constructor
  · intro k q q' h h'
    rcases hhas h with ⟨rfl, rfl⟩ | h <;> rcases hhas h' with ⟨rfl, heq⟩ | h'
    · rfl
    · exact (ha.only h').symm
    · exact ha.only (heq ▸ h)
    · exact hc.single h h'
  · intro k q hd h
    rcases hhas h with ⟨rfl, rfl⟩ | h
    · exact ha.declarative hd
    · exact hc.declarative hd h

theorem slot?_set (ha : c.Admits p key) :
    (c.set p key s).slot? k = if key = k then some (p, s) else c.slot? k := by
  split
  · next h =>
    subst h
    refine slot?_of_get? (fun q hq => ?_) (get?_set_self c p key s)
    rw [has_eq, get?_set] at hq
    split at hq
    · next heq => exact heq.1.symm
    · exact ha.only hq
  · next h => simp only [slot?, get?_set, h, and_false, if_false]

theorem Exclusive.delete (hc : c.Exclusive) (p : Partition) (key : String) :
    (c.delete p key).Exclusive := by
  have hhas : ∀ {q k}, (c.delete p key).has q k = true → c.has q k = true := by
    intro q k h
    rw [has_eq, get?_delete] at h
    split at h
    · cases h
    · exact h
  exact ⟨fun h h' => hc.single (hhas h) (hhas h'), fun hd h => hc.declarative hd (hhas h)⟩

theorem Exclusive.slot?_delete (hc : c.Exclusive) (h : c.slot? key = some (p, s)) :
    (c.delete p key).slot? k = if key = k then none else c.slot? k := by
  split
  · next hk =>
    subst hk
    refine slot?_eq_none.mpr fun q => ?_
    rw [get?_delete]
    split
    · rfl
    · next hne => exact hc.get?_of_ne h fun hq => hne ⟨hq.symm, rfl⟩
  · next hk => simp only [slot?, get?_delete, hk, and_false, if_false]

/-- A slot of discovery is moved as it is. -/
theorem commit_eq {id : EntryId} (h : c.slot? key = some (.discovery, s)) (hs : s.entry? = some id) :
    c.commit key p = ((c.delete .discovery key).set p key s, some id) := by
  simp [commit, get?_of_slot? h, hs]

theorem Exclusive.admits_delete (hc : c.Exclusive) (h : c.slot? key = some (.discovery, s)) :
    (c.delete .discovery key).Admits p key := by
  refine admits_of_absent ?_ fun hd => ?_
  · rw [hc.slot?_delete h, if_pos rfl]
  · cases hc.declarative hd (has_of_get? (get?_of_slot? h))

theorem Exclusive.commit (hc : c.Exclusive) {id : EntryId} (h : c.slot? key = some (.discovery, s))
    (hs : s.entry? = some id) : (c.commit key p).1.Exclusive := by
  rw [commit_eq h hs]
  exact (hc.delete _ _).set (hc.admits_delete h)

theorem Exclusive.slot?_commit (hc : c.Exclusive) {id : EntryId}
    (h : c.slot? key = some (.discovery, s)) (hs : s.entry? = some id) :
    (c.commit key p).1.slot? k = if key = k then some (p, s) else c.slot? k := by
  rw [commit_eq h hs, slot?_set (hc.admits_delete h)]
  split
  · rfl
  · next hk => rw [hc.slot?_delete h, if_neg hk]

end Cache
end ModGraph
