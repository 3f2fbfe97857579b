import Mathlib.Data.List.Forall2
import ModGraph.Proofs.Remnants
import ModGraph.Proofs.Transparency

/-!
# The same under other numbers

Two loaders that differ in nothing but the numbers of their entries, and in what they remember about packages, do the
same. A relation between numbers says which entries correspond (`Loader.Concurs`); it grows while new entries are made.
The entry of a builtin module may be there already in one of the loaders when the other one makes it.

Actions that concur keep all this and come to the same results (`Loader.Concurring`). Small actions do, and what is
composed of actions that do does as well.
-/

namespace ModGraph

open Json (Value)
open Source (Program)

/-- Which entries of two graphs correspond. -/
abbrev Numbering := EntryId → EntryId → Prop

/-! ## Data with numbers in it -/

theorem optionRel_mono {α β : Type} {r s : α → β → Prop} {x : Option α} {y : Option β} (h : Option.Rel r x y)
    (hrs : ∀ a b, r a b → s a b) : Option.Rel s x y := by
  cases h with
  | none => exact .none
  | some h => exact .some (hrs _ _ h)

/-- Tables have the same keys in the same order, and values that correspond. -/
def Table.Alike {α β : Type} (r : α → β → Prop) (t : Table String α) (t' : Table String β) : Prop :=
  List.Forall₂ (fun e e' => e.1 = e'.1 ∧ r e.2 e'.2) t.entries t'.entries

namespace Table.Alike

variable {α β : Type} {r s : α → β → Prop} {t : Table String α} {t' : Table String β}

theorem mono (h : t.Alike r t') (hrs : ∀ a b, r a b → s a b) : t.Alike s t' :=
  List.Forall₂.imp (fun _ _ he => ⟨he.1, hrs _ _ he.2⟩) h

theorem empty : (Table.empty : Table String α).Alike r (Table.empty : Table String β) := .nil

theorem keys (h : t.Alike r t') : t'.keys = t.keys := by
  obtain ⟨entries⟩ := t
  obtain ⟨entries'⟩ := t'
  change entries'.map (·.1) = entries.map (·.1)
  change List.Forall₂ _ entries entries' at h
  induction h with
  | nil => rfl
  | cons he _ ih => simp [he.1, ih]

theorem get? (h : t.Alike r t') (key : String) : Option.Rel r (t.get? key) (t'.get? key) := by
  obtain ⟨entries⟩ := t
  obtain ⟨entries'⟩ := t'
  change Option.Rel r (Table.find? key entries) (Table.find? key entries')
  change List.Forall₂ _ entries entries' at h
  induction h with
  | nil => exact .none
  | @cons e e' rest rest' he _ ih =>
    obtain ⟨k, a⟩ := e
    obtain ⟨k', b⟩ := e'
    obtain rfl : k = k' := he.1
    simp only [Table.find?]
    split
    · exact .some he.2
    · exact ih

theorem insert (h : t.Alike r t') (key : String) {a : α} {b : β} (hab : r a b) :
    (t.insert key a).Alike r (t'.insert key b) := by
  obtain ⟨entries⟩ := t
  obtain ⟨entries'⟩ := t'
  change List.Forall₂ _ (Table.put key a entries) (Table.put key b entries')
  change List.Forall₂ _ entries entries' at h
  induction h with
  | nil => exact .cons ⟨rfl, hab⟩ .nil
  | @cons e e' rest rest' he hrest ih =>
    obtain ⟨k, x⟩ := e
    obtain ⟨k', y⟩ := e'
    obtain rfl : k = k' := he.1
    simp only [Table.put]
    split
    · exact .cons ⟨rfl, hab⟩ hrest
    · exact .cons he ih

theorem filter (h : t.Alike r t') {keep : String × α → Bool} {keep' : String × β → Bool}
    (hk : ∀ key a b, r a b → keep (key, a) = keep' (key, b)) :
    (Table.mk (t.entries.filter keep)).Alike r (Table.mk (t'.entries.filter keep')) := by
  obtain ⟨entries⟩ := t
  obtain ⟨entries'⟩ := t'
  change List.Forall₂ _ (entries.filter keep) (entries'.filter keep')
  change List.Forall₂ _ entries entries' at h
  induction h with
  | nil => exact .nil
  | @cons e e' rest rest' he _ ih =>
    obtain ⟨k, a⟩ := e
    obtain ⟨k', b⟩ := e'
    obtain rfl : k = k' := he.1
    simp only [List.filter_cons, hk k a b he.2]
    split
    · exact .cons he ih
    · exact ih

theorem erase (h : t.Alike r t') (key : String) : (t.erase key).Alike r (t'.erase key) :=
  h.filter fun _ _ _ _ => rfl

theorem contains (h : t.Alike r t') (key : String) : t'.contains key = t.contains key := by
  unfold Table.contains
  have hget := h.get? key
  generalize t.get? key = a at hget
  generalize t'.get? key = b at hget
  cases hget <;> rfl

end Table.Alike

/-- Slots are equally far, and their entries correspond. -/
inductive Slot.Alike (r : Numbering) : Slot → Slot → Prop where
  | loading {i a : EntryId} (h : r i a) : Slot.Alike r (.loading i) (.loading a)
  | ready {i a : EntryId} (h : r i a) : Slot.Alike r (.ready i) (.ready a)
  | poisoned (e : LoadError) : Slot.Alike r (.poisoned e) (.poisoned e)

namespace Slot.Alike

variable {r s : Numbering} {x y : Slot}

theorem mono (h : x.Alike r y) (hrs : ∀ i a, r i a → s i a) : x.Alike s y := by
  cases h with
  | loading h => exact .loading (hrs _ _ h)
  | ready h => exact .ready (hrs _ _ h)
  | poisoned e => exact .poisoned e

theorem finish (h : x.Alike r y) : x.finish.Alike r y.finish := by
  cases h with
  | loading h => exact .ready h
  | ready h => exact .ready h
  | poisoned e => exact .poisoned e

end Slot.Alike

/-- Entries are the same but for who asked for them, and what they asked for corresponds. -/
structure Entry.Alike (r : Numbering) (e e' : Entry) : Prop where
  spared : e.Spared e'
  children : e.children.Alike r e'.children

theorem Entry.Alike.mono {r s : Numbering} {e e' : Entry} (h : e.Alike r e') (hrs : ∀ i a, r i a → s i a) :
    e.Alike s e' := ⟨h.spared, h.children.mono hrs⟩

/-- A change that has nothing to do with who asks for whom keeps entries alike. -/
theorem Entry.Alike.map {r : Numbering} {e e' : Entry} (h : e.Alike r e') {f : Entry → Entry}
    (hf : ∀ (e : Entry) parent children,
      f { e with parent := parent, children := children } = { f e with parent := parent, children := children }) :
    (f e).Alike r (f e') := by
  have hspared : e' = { e with parent := e'.parent, children := e'.children } := by
    obtain ⟨hkey, hformat, hparsed, hmodule, hpackage⟩ := h.spared
    cases e'
    simp_all
  have hself : f e = { f e with parent := e.parent, children := e.children } := hf e e.parent e.children
  have hother : f e' = { f e with parent := e'.parent, children := e'.children } :=
    (congrArg f hspared).trans (hf e _ _)
  rw [hother, hself]
  exact ⟨⟨rfl, rfl, rfl, rfl, rfl⟩, h.children⟩

/-- Entries that correspond make a request, and the same is known about them. -/
structure Referrer.Alike (r : Numbering) (f f' : Referrer) : Prop where
  id : r f.id f'.id
  filename : f'.filename = f.filename
  format : f'.format = f.format
  package : f'.package = f.package
  paths : f'.paths = f.paths

theorem Referrer.Alike.mono {r s : Numbering} {f f' : Referrer} (h : Referrer.Alike r f f')
    (hrs : ∀ i a, r i a → s i a) : Referrer.Alike s f f' := { h with id := hrs _ _ h.id }

/-- Caches have the same keys, and corresponding entries under them. Builtin modules are left out. -/
structure Cache.Alike (r : Numbering) (c c' : Cache) : Prop where
  slots : ∀ p, (c.slots p).Alike (Slot.Alike r) (c'.slots p)
  main : Option.Rel r c.main? c'.main?
  legacyMain : Option.Rel r c.legacyMain? c'.legacyMain?
  parsing : c'.parsing = c.parsing

namespace Cache.Alike

variable {r s : Numbering} {c c' : Cache}

theorem mono (h : c.Alike r c') (hrs : ∀ i a, r i a → s i a) : c.Alike s c' where
  slots p := (h.slots p).mono fun _ _ hx => hx.mono hrs
  main := optionRel_mono h.main hrs
  legacyMain := optionRel_mono h.legacyMain hrs
  parsing := h.parsing

theorem get? (h : c.Alike r c') (p : Partition) (key : String) :
    Option.Rel (Slot.Alike r) (c.get? p key) (c'.get? p key) := (h.slots p).get? key

theorem has (h : c.Alike r c') (p : Partition) (key : String) : c'.has p key = c.has p key := (h.slots p).contains key

theorem withSlots (h : c.Alike r c') (p : Partition) {t t' : Table String Slot} (ht : t.Alike (Slot.Alike r) t') :
    (c.withSlots p t).Alike r (c'.withSlots p t') := by
  refine ⟨fun q => ?_, ?_, ?_, ?_⟩
  · by_cases hpq : p = q
    · subst hpq
      rw [Cache.slots_withSlots_self, Cache.slots_withSlots_self]
      exact ht
    · rw [Cache.slots_withSlots_of_ne _ _ hpq, Cache.slots_withSlots_of_ne _ _ hpq]
      exact h.slots q
  · cases p <;> exact h.main
  · cases p <;> exact h.legacyMain
  · cases p <;> exact h.parsing

theorem set (h : c.Alike r c') (p : Partition) (key : String) {x y : Slot} (hxy : x.Alike r y) :
    (c.set p key x).Alike r (c'.set p key y) := h.withSlots p ((h.slots p).insert key hxy)

theorem delete (h : c.Alike r c') (p : Partition) (key : String) : (c.delete p key).Alike r (c'.delete p key) :=
  h.withSlots p ((h.slots p).erase key)

theorem finish (h : c.Alike r c') (p : Partition) (key : String) : (c.finish p key).Alike r (c'.finish p key) := by
  unfold Cache.finish
  have hget := h.get? p key
  generalize c.get? p key = x at hget
  generalize c'.get? p key = y at hget
  cases hget with
  | none => exact h
  | some hxy => exact h.set p key hxy.finish

theorem commit (h : c.Alike r c') (key : String) (p : Partition) :
    (c.commit key p).1.Alike r (c'.commit key p).1 ∧ Option.Rel r (c.commit key p).2 (c'.commit key p).2 := by
  unfold Cache.commit
  have hget := h.get? .discovery key
  generalize c.get? .discovery key = x at hget
  generalize c'.get? .discovery key = y at hget
  cases hget with
  | none => exact ⟨h, .none⟩
  | some hxy =>
    have hdelete := h.delete .discovery key
    cases hxy with
    | loading hid => exact ⟨hdelete.set p key (.loading hid), .some hid⟩
    | ready hid => exact ⟨hdelete.set p key (.ready hid), .some hid⟩
    | poisoned e => exact ⟨hdelete, .none⟩

theorem withMain (h : c.Alike r c') {m m' k k' : Option EntryId} (hm : Option.Rel r m m') (hk : Option.Rel r k k') :
    Cache.Alike r { c with main? := m, legacyMain? := k } { c' with main? := m', legacyMain? := k' } :=
  ⟨fun p => by
    have hp := h.slots p
    cases p <;> exact hp, hm, hk, h.parsing⟩

theorem withParsing (h : c.Alike r c') (parsing : Bool) :
    Cache.Alike r { c with parsing := parsing } { c' with parsing := parsing } :=
  ⟨fun p => by
    have hp := h.slots p
    cases p <;> exact hp, h.main, h.legacyMain, rfl⟩

theorem invalidate (h : c.Alike r c') (key : String) : (c.invalidate key).Alike r (c'.invalidate key) :=
  ((h.delete .legacy key).delete .declarative key).delete .discovery key

theorem hasAny (h : c.Alike r c') (key : String) : c'.hasAny key = c.hasAny key := by
  simp only [Cache.hasAny, h.has]

theorem keys (h : c.Alike r c') (p : Partition) : c'.keys p = c.keys p := congrArg Cache.sorted (h.slots p).keys

theorem poisonedKeys (h : c.Alike r c') : c'.poisonedKeys = c.poisonedKeys := by
  have hpoisoned : ∀ p, ((c'.slots p).entries.filter fun e => e.2.isPoisoned).map (·.1)
      = ((c.slots p).entries.filter fun e => e.2.isPoisoned).map (·.1) := fun p =>
    ((h.slots p).filter fun _ x y hxy => by cases hxy <;> rfl).keys
  unfold Cache.poisonedKeys
  simp only [hpoisoned]

end Cache.Alike

/-- Both fail with the same error, or succeed with results that correspond. -/
inductive SameOutcome {α β : Type} (out : α → β → Prop) : Except LoadError α → Except LoadError β → Prop where
  | ok {a : α} {b : β} (h : out a b) : SameOutcome out (.ok a) (.ok b)
  | error (e : LoadError) : SameOutcome out (.error e) (.error e)

namespace Loader

variable {α β γ δ : Type} {r s : Numbering} {l l' : Loader} {i a : EntryId}

/-! ## Loaders under other numbers -/

/-- Two loaders have the same modules in the same slots, under other numbers: no entry corresponds to two others, and
those that correspond are alike. -/
structure Renumbers (r : Numbering) (l l' : Loader) : Prop where
  cache : l.cache.Alike r l'.cache
  inRange : ∀ {i a}, r i a → i < l.graph.size ∧ a < l'.graph.size
  left : ∀ {i a b}, r i a → r i b → a = b
  right : ∀ {i j a}, r i a → r j a → i = j
  entry : ∀ {i a}, r i a → (l.graph.entry i).Alike r (l'.graph.entry a)

/-- They look at the same things, too, and remember nothing that is not there. The entries of builtin modules
correspond where both have them, and the second loader may have some that the first one would make now. -/
structure Concurs (r : Numbering) (l l' : Loader) : Prop extends Renumbers r l l' where
  world : l'.world = l.world
  compilers : l'.compilers = l.compilers
  bare : l.codeCache? = none
  bare' : l'.codeCache? = none
  proper : FileSystem.Proper l.files.workingDirectory
  recalls : l.world.Recalls l.packages
  recalls' : l.world.Recalls l'.packages
  sources : l'.sources = l.sources
  programs : l'.programs = l.programs
  builtin : ∀ {name i}, l.cache.builtins.get? name = some i → ∃ a, l'.cache.builtins.get? name = some a ∧ r i a
  spare : ∀ {name a}, l'.cache.builtins.get? name = some a → l.cache.builtins.get? name = none →
    a < l'.graph.size ∧ (∀ i, ¬ r i a) ∧ (l.builtinEntry name).Alike r (l'.graph.entry a)
  distinct : ∀ {name name' a}, l'.cache.builtins.get? name = some a → l'.cache.builtins.get? name' = some a →
    l.cache.builtins.get? name = none → l.cache.builtins.get? name' = none → name = name'

namespace Concurs

theorem resolver (h : Concurs r l l') : l'.resolver = l.resolver := congrArg World.resolver h.world

theorem reader (h : Concurs r l l') : l'.reader = l.reader := congrArg World.reader h.world

theorem manifests (h : Concurs r l l') : l'.manifests = l.manifests := congrArg World.manifests h.world

theorem files (h : Concurs r l l') : l'.files = l.files := congrArg World.files h.world

end Concurs

/-! ## Actions that concur -/

/-- Wherever two actions start from loaders that concur, they come to corresponding results, and to loaders that concur
again. The numbering may grow. -/
def Concurring (r : Numbering) (out : Numbering → α → β → Prop) (x : LoadM α) (y : LoadM β) : Prop :=
  ∀ s : Numbering, (∀ i a, r i a → s i a) → ∀ l l', Concurs s l l' → ∃ t : Numbering, (∀ i a, s i a → t i a) ∧
    Concurs t (l.run x).2 (l'.run y).2 ∧ SameOutcome (out t) (l.run x).1 (l'.run y).1

/-- Results of which nothing is known. -/
abbrev Any (_ : Numbering) (_ : α) (_ : β) : Prop := True

/-- Results that are the same. -/
abbrev Same (_ : Numbering) (a b : α) : Prop := a = b

/-- Results that are corresponding entries. -/
abbrev Numbered (r : Numbering) (i a : EntryId) : Prop := r i a

namespace Concurring

variable {out : Numbering → α → β → Prop} {out' : Numbering → γ → δ → Prop} {x : LoadM α} {y : LoadM β}

theorem mono (h : Concurring r out x y) (hrs : ∀ i a, r i a → s i a) : Concurring s out x y :=
  fun t hst l l' hm => h t (fun i a hr => hst i a (hrs i a hr)) l l' hm

theorem pure {a : α} {b : β} (h : ∀ s : Numbering, (∀ i a, r i a → s i a) → out s a b) :
    Concurring r out (Pure.pure a) (Pure.pure b) :=
  fun s hs _ _ hm => ⟨s, fun _ _ h => h, hm, .ok (h s hs)⟩

theorem throw (e : LoadError) : Concurring r out (MonadExcept.throw e) (MonadExcept.throw e) :=
  fun s _ _ _ hm => ⟨s, fun _ _ h => h, hm, .error e⟩

theorem get : Concurring r Concurs (MonadState.get : LoadM Loader) (MonadState.get : LoadM Loader) :=
  fun s _ _ _ hm => ⟨s, fun _ _ h => h, hm, .ok hm⟩

theorem modified {f g : Loader → Loader}
    (h : ∀ s : Numbering, (∀ i a, r i a → s i a) → ∀ l l', Concurs s l l' → Concurs s (f l) (g l')) :
    Concurring r Any (modify f : LoadM Unit) (modify g : LoadM Unit) :=
  fun s hs l l' hm => ⟨s, fun _ _ h => h, h s hs l l' hm, .ok trivial⟩

theorem bind {next : α → LoadM γ} {next' : β → LoadM δ} (h : Concurring r out x y)
    (hnext : ∀ s : Numbering, (∀ i a, r i a → s i a) → ∀ a b, out s a b → Concurring s out' (next a) (next' b)) :
    Concurring r out' (x >>= next) (y >>= next') := by
  intro s hs l l' hm
  obtain ⟨t, ht, hm', hsame⟩ := h s hs l l' hm
  rw [run_bind, run_bind]
  generalize l.run x = found at hm' hsame
  generalize l'.run y = found' at hm' hsame
  obtain ⟨res, l₁⟩ := found
  obtain ⟨res', l₁'⟩ := found'
  cases hsame with
  | error e => exact ⟨t, ht, hm', .error e⟩
  | @ok a b hab =>
    obtain ⟨u, hu, hm'', hsame'⟩ :=
      hnext t (fun i a hr => ht i a (hs i a hr)) a b hab t (fun _ _ h => h) l₁ l₁' hm'
    exact ⟨u, fun i a h => hu i a (ht i a h), hm'', hsame'⟩

/-- What follows does not depend on the results. -/
theorem andThen {next : α → LoadM γ} {next' : β → LoadM δ} (h : Concurring r out x y)
    (hnext : ∀ a b, Concurring r out' (next a) (next' b)) : Concurring r out' (x >>= next) (y >>= next') :=
  h.bind fun _ hs a b _ => (hnext a b).mono hs

theorem onError {cleanUp cleanUp' : LoadError → LoadM Unit} (h : Concurring r out x y)
    (hclean : ∀ e, Concurring r Any (cleanUp e) (cleanUp' e)) :
    Concurring r out (Loader.onError x cleanUp) (Loader.onError y cleanUp') := by
  intro s hs l l' hm
  obtain ⟨t, ht, hm', hsame⟩ := h s hs l l' hm
  rw [run_onError, run_onError]
  generalize l.run x = found at hm' hsame
  generalize l'.run y = found' at hm' hsame
  obtain ⟨res, l₁⟩ := found
  obtain ⟨res', l₁'⟩ := found'
  cases hsame with
  | ok hab => exact ⟨t, ht, hm', .ok hab⟩
  | error e =>
    have hcleaned : Concurring r out (do cleanUp e; MonadExcept.throw e) (do cleanUp' e; MonadExcept.throw e) :=
      (hclean e).andThen fun _ _ => throw e
    obtain ⟨u, hu, hm'', hsame'⟩ := hcleaned t (fun i a hr => ht i a (hs i a hr)) l₁ l₁' hm'
    rw [run_bind, run_bind] at hm'' hsame'
    exact ⟨u, fun i a h => hu i a (ht i a h), hm'', hsame'⟩

theorem onlyIf {c d : Prop} [Decidable c] [Decidable d] (hcd : c ↔ d) {x y : LoadM Unit} (h : Concurring r Any x y) :
    Concurring r Any (Loader.onlyIf c x) (Loader.onlyIf d y) := by
  unfold Loader.onlyIf
  by_cases hc : c
  · rw [if_pos hc, if_pos (hcd.mp hc)]
    exact h
  · rw [if_neg hc, if_neg fun hd => hc (hcd.mpr hd)]
    exact pure fun _ _ => trivial

/-! ### Small actions -/

theorem report (e e' : Event) : Concurring r Any (Loader.report e) (Loader.report e') :=
  modified fun _ _ _ _ hm => { hm with }

/-- Corresponding entries are changed in the same way. -/
theorem updateEntry (hia : r i a) {f g : Entry → Entry}
    (hfg : ∀ s : Numbering, (∀ i a, r i a → s i a) → ∀ e e', e.Alike s e' → (f e).Alike s (g e')) :
    Concurring r Any (Loader.updateEntry i f) (Loader.updateEntry a g) := by
  refine modified fun s hs l l' hm => ?_
  have hsia := hs i a hia
  refine { hm with inRange := fun h => ?_, entry := fun {j b} h => ?_, spare := fun {name b} hb hnone => ?_ }
  · simpa using hm.inRange h
  · show ((l.graph.update i f).entry j).Alike s ((l'.graph.update a g).entry b)
    by_cases hj : i = j
    · subst hj
      obtain rfl := hm.left hsia h
      rw [Graph.entry_update_self _ _ (hm.inRange h).1, Graph.entry_update_self _ _ (hm.inRange h).2]
      exact hfg s hs _ _ (hm.entry h)
    · have hb : a ≠ b := by
        rintro rfl
        exact hj (hm.right hsia h)
      rw [Graph.entry_update_of_ne _ _ hj, Graph.entry_update_of_ne _ _ hb]
      exact hm.entry h
  · obtain ⟨hlt, hfree, halike⟩ := hm.spare hb hnone
    have hne : a ≠ b := by
      rintro rfl
      exact hfree i hsia
    refine ⟨by simpa using hlt, hfree, ?_⟩
    show (l.builtinEntry name).Alike s ((l'.graph.update a g).entry b)
    rw [Graph.entry_update_of_ne _ _ hne]
    exact halike

/-- A change that has nothing to do with who asks for whom. -/
theorem changeEntry (hia : r i a) {f : Entry → Entry}
    (hf : ∀ (e : Entry) parent children,
      f { e with parent := parent, children := children } = { f e with parent := parent, children := children }) :
    Concurring r Any (Loader.updateEntry i f) (Loader.updateEntry a f) :=
  updateEntry hia fun _ _ _ _ he => he.map hf

end Concurring

/-- A numbering with one more pair. -/
def extended (r : Numbering) (i a : EntryId) : Numbering := fun j b => r j b ∨ j = i ∧ b = a

/-- A new entry may correspond to any entry that is alike and corresponds to no other one. -/
theorem Renumbers.extend {e : Entry} (h : Renumbers s l l') {l₂ : Loader} {a : EntryId} (hc : l₂.cache.Alike s l'.cache)
    (hg : l₂.graph = (l.graph.add e).1) (ha : a < l'.graph.size) (hfree : ∀ i, ¬ s i a)
    (he : e.Alike s (l'.graph.entry a)) : Renumbers (extended s l.graph.size a) l₂ l' := by
  have hold : ∀ i b, s i b → extended s l.graph.size a i b := fun _ _ => .inl
  have hnew : ∀ b, ¬ s l.graph.size b := fun b hs => Nat.lt_irrefl _ (h.inRange hs).1
  refine ⟨hc.mono hold, ?_, ?_, ?_, ?_⟩
  · rintro i b (hs | ⟨rfl, rfl⟩)
    · rw [hg, Graph.size_add]
      exact ⟨Nat.lt_succ_of_lt (h.inRange hs).1, (h.inRange hs).2⟩
    · rw [hg, Graph.size_add]
      exact ⟨Nat.lt_succ_self _, ha⟩
  · rintro i b b' (hs | ⟨rfl, rfl⟩) (hs' | ⟨heq, rfl⟩)
    · exact h.left hs hs'
    · exact absurd (heq ▸ hs) (hnew b)
    · exact absurd hs' (hnew b')
    · rfl
  · rintro i j b (hs | ⟨rfl, rfl⟩) (hs' | ⟨rfl, heq⟩)
    · exact h.right hs hs'
    · exact absurd (heq ▸ hs) (hfree i)
    · exact absurd hs' (hfree j)
    · rfl
  · rintro i b (hs | ⟨rfl, rfl⟩)
    · rw [hg, Graph.entry_add_of_lt _ _ (h.inRange hs).1]
      exact (h.entry hs).mono hold
    · rw [hg, show (l.graph.add e).1.entry l.graph.size = e from Graph.entry_add_self _ _]
      exact he.mono hold

/-- A second loader may have entries that correspond to none. -/
theorem Renumbers.add (h : Renumbers s l l') (e : Entry) {l₂ : Loader} (hc : l.cache.Alike s l₂.cache)
    (hg : l₂.graph = (l'.graph.add e).1) : Renumbers s l l₂ where
  cache := hc
  inRange hs := by
    rw [hg, Graph.size_add]
    exact ⟨(h.inRange hs).1, Nat.lt_succ_of_lt (h.inRange hs).2⟩
  left := h.left
  right := h.right
  entry hs := by
    rw [hg, Graph.entry_add_of_lt _ _ (h.inRange hs).2]
    exact h.entry hs

namespace Concurring

theorem addEntry {e e' : Entry} (he : e.Alike r e') :
    Concurring r Numbered (Loader.addEntry e) (Loader.addEntry e') := by
  intro s hs l l' hm
  have hself : (l'.graph.add e').1.entry l'.graph.size = e' := Graph.entry_add_self _ _
  have hadded : Renumbers s l { l' with graph := (l'.graph.add e').1 } := hm.toRenumbers.add e' hm.cache rfl
  have hextended : Renumbers (extended s l.graph.size l'.graph.size) { l with graph := (l.graph.add e).1 }
      { l' with graph := (l'.graph.add e').1 } := by
    refine hadded.extend hm.cache rfl ?_ (fun i hi => Nat.lt_irrefl _ (hm.inRange hi).2) (e := e) ?_
    · show l'.graph.size < (l'.graph.add e').1.size
      simp
    · show e.Alike s ((l'.graph.add e').1.entry l'.graph.size)
      rw [hself]
      exact he.mono hs
  refine ⟨extended s l.graph.size l'.graph.size, fun _ _ => .inl, ?_, .ok (.inr ⟨rfl, rfl⟩)⟩
  refine { hextended with
    world := hm.world, compilers := hm.compilers, bare := hm.bare, bare' := hm.bare', proper := hm.proper
    recalls := hm.recalls, recalls' := hm.recalls', sources := hm.sources, programs := hm.programs
    builtin := fun hb => ?_, spare := fun {name b} hb hnone => ?_, distinct := hm.distinct }
  · obtain ⟨b, hb', hs⟩ := hm.builtin hb
    exact ⟨b, hb', .inl hs⟩
  · obtain ⟨hlt, hfree, halike⟩ := hm.spare hb hnone
    refine ⟨by simpa using Nat.lt_succ_of_lt hlt, fun i hi => ?_, ?_⟩
    · rcases hi with hi | ⟨-, rfl⟩
      · exact hfree i hi
      · exact Nat.lt_irrefl _ hlt
    · show (l.builtinEntry name).Alike _ ((l'.graph.add e').1.entry b)
      rw [Graph.entry_add_of_lt _ _ hlt]
      exact halike.mono fun _ _ => .inl

end Concurring

theorem get?_setBuiltin (c : Cache) (name name' : String) (id : EntryId) :
    (c.setBuiltin name id).builtins.get? name' = if name = name' then some id else c.builtins.get? name' :=
  Table.get?_insert _ _ _ _

theorem slots_setBuiltin (c : Cache) (name : String) (id : EntryId) (p : Partition) :
    (c.setBuiltin name id).slots p = c.slots p := by
  cases p <;> rfl

/-- The second loader may make the entry of a builtin module before the first one does. -/
theorem Concurs.make (h : Concurs s l l') {name : String} (hb : l'.cache.builtins.get? name = none) :
    Concurs s l { l' with
      graph := (l'.graph.add (l'.builtinEntry name)).1, cache := l'.cache.setBuiltin name l'.graph.size } := by
  have hcache : l.cache.Alike s (l'.cache.setBuiltin name l'.graph.size) :=
    ⟨fun p => by
      rw [slots_setBuiltin]
      exact h.cache.slots p, h.cache.main, h.cache.legacyMain, h.cache.parsing⟩
  refine { h.toRenumbers.add (l'.builtinEntry name) hcache rfl with
    world := h.world, compilers := h.compilers, bare := h.bare, bare' := h.bare', proper := h.proper
    recalls := h.recalls, recalls' := h.recalls', sources := h.sources, programs := h.programs
    builtin := fun {name' i} hget => ?_, spare := fun {name' a} hget hnone => ?_
    distinct := fun {name₁ name₂ a} h₁ h₂ hnone₁ hnone₂ => ?_ }
  · obtain ⟨a, ha, hia⟩ := h.builtin hget
    refine ⟨a, (get?_setBuiltin _ _ _ _).trans ?_, hia⟩
    rw [if_neg, ha]
    rintro rfl
    rw [hb] at ha
    cases ha
  · have hget := (get?_setBuiltin _ _ _ _).symm.trans hget
    split at hget
    · next heq =>
      cases hget
      refine ⟨by simp, fun i hi => Nat.lt_irrefl _ (h.inRange hi).2, ?_⟩
      show (l.builtinEntry name').Alike s ((l'.graph.add (l'.builtinEntry name)).1.entry l'.graph.size)
      rw [show (l'.graph.add (l'.builtinEntry name)).1.entry l'.graph.size = l'.builtinEntry name from
        Graph.entry_add_self _ _, builtinEntry_congr h.world, heq]
      exact ⟨.refl _, .empty⟩
    · obtain ⟨hlt, hfree, halike⟩ := h.spare hget hnone
      refine ⟨by simpa using Nat.lt_succ_of_lt hlt, hfree, ?_⟩
      show (l.builtinEntry name').Alike s ((l'.graph.add (l'.builtinEntry name)).1.entry a)
      rw [Graph.entry_add_of_lt _ _ hlt]
      exact halike
  · -- an entry that was spare before is not the one that is made now
    have hold : ∀ {name'}, l.cache.builtins.get? name' = none → l'.cache.builtins.get? name' = some a →
        a ≠ l'.graph.size := fun hnone hget heq => Nat.lt_irrefl _ (heq ▸ (h.spare hget hnone).1)
    have h₁ := (get?_setBuiltin _ _ _ _).symm.trans h₁
    have h₂ := (get?_setBuiltin _ _ _ _).symm.trans h₂
    split at h₁ <;> split at h₂
    · next heq heq' => exact heq.symm.trans heq'
    · cases h₁
      exact absurd rfl (hold hnone₂ h₂)
    · cases h₂
      exact absurd rfl (hold hnone₁ h₁)
    · exact h.distinct h₁ h₂ hnone₁ hnone₂

/-- When the first loader makes the entry of a builtin module, it corresponds to the one that the second loader has. -/
theorem Concurs.take (h : Concurs s l l') {name : String} (hb : l.cache.builtins.get? name = none)
    (ha : l'.cache.builtins.get? name = some a) :
    Concurs (extended s l.graph.size a) { l with
      graph := (l.graph.add (l.builtinEntry name)).1, cache := l.cache.setBuiltin name l.graph.size } l' := by
  obtain ⟨hlt, hfree, halike⟩ := h.spare ha hb
  have hcache : (l.cache.setBuiltin name l.graph.size).Alike s l'.cache :=
    ⟨fun p => by
      rw [slots_setBuiltin]
      exact h.cache.slots p, h.cache.main, h.cache.legacyMain, h.cache.parsing⟩
  refine { h.toRenumbers.extend hcache rfl hlt hfree halike with
    world := h.world, compilers := h.compilers, bare := h.bare, bare' := h.bare', proper := h.proper
    recalls := h.recalls, recalls' := h.recalls', sources := h.sources, programs := h.programs
    builtin := fun {name' i} hget => ?_, spare := fun {name' b} hget hnone => ?_
    distinct := fun {name₁ name₂ b} h₁ h₂ hnone₁ hnone₂ => ?_ }
  · have hget := (get?_setBuiltin _ _ _ _).symm.trans hget
    split at hget
    · next heq =>
      cases hget
      exact ⟨a, heq ▸ ha, .inr ⟨rfl, rfl⟩⟩
    · obtain ⟨b, hb', hib⟩ := h.builtin hget
      exact ⟨b, hb', .inl hib⟩
  · have hnone := (get?_setBuiltin _ _ _ _).symm.trans hnone
    split at hnone
    · cases hnone
    · next hne =>
      obtain ⟨hlt', hfree', halike'⟩ := h.spare hget hnone
      refine ⟨hlt', fun i hi => ?_, halike'.mono fun _ _ => .inl⟩
      rcases hi with hi | ⟨-, rfl⟩
      · exact hfree' i hi
      · exact hne (h.distinct ha hget hb hnone)
  · have hnone₁ := (get?_setBuiltin _ _ _ _).symm.trans hnone₁
    have hnone₂ := (get?_setBuiltin _ _ _ _).symm.trans hnone₂
    split at hnone₁ <;> split at hnone₂
    · cases hnone₁
    · cases hnone₁
    · cases hnone₂
    · exact h.distinct h₁ h₂ hnone₁ hnone₂

namespace Concurring

/-- The entry of a builtin module is the one that is there, or it is made. -/
theorem builtin (name : String) : Concurring r Numbered (Loader.builtin name) (Loader.builtin name) := by
  intro s hs l l' hm
  rw [run_builtin, run_builtin]
  unfold builtinOf
  cases hb : l.cache.builtins.get? name with
  | some i =>
    obtain ⟨a, ha, hia⟩ := hm.builtin hb
    rw [ha]
    exact ⟨s, fun _ _ h => h, hm, .ok hia⟩
  | none =>
    cases ha : l'.cache.builtins.get? name with
    | some a => exact ⟨extended s l.graph.size a, fun _ _ => .inl, hm.take hb ha, .ok (.inr ⟨rfl, rfl⟩)⟩
    | none =>
      -- both make it: the second one first, so that the first one can take it
      have hmade := (get?_setBuiltin l'.cache name name l'.graph.size).trans (if_pos rfl)
      exact ⟨extended s l.graph.size l'.graph.size, fun _ _ => .inl, (hm.make ha).take hb hmade, .ok (.inr ⟨rfl, rfl⟩)⟩

theorem updateCache {f g : Cache → Cache}
    (hfg : ∀ s : Numbering, (∀ i a, r i a → s i a) → ∀ c c', Cache.Alike s c c' → (f c).Alike s (g c'))
    (hf : ∀ c, (f c).builtins = c.builtins) (hg : ∀ c, (g c).builtins = c.builtins) :
    Concurring r Any (Loader.updateCache f) (Loader.updateCache g) := by
  refine modified fun s hs l l' hm => ?_
  have hget : ∀ name, (f l.cache).builtins.get? name = l.cache.builtins.get? name := fun name => by rw [hf]
  have hget' : ∀ name, (g l'.cache).builtins.get? name = l'.cache.builtins.get? name := fun name => by rw [hg]
  refine { hm with
    cache := hfg s hs _ _ hm.cache
    builtin := fun {name i} hb => ?_
    spare := fun hb hnone => hm.spare ((hget' _).symm.trans hb) ((hget _).symm.trans hnone)
    distinct := fun h₁ h₂ hnone₁ hnone₂ => hm.distinct ((hget' _).symm.trans h₁) ((hget' _).symm.trans h₂)
      ((hget _).symm.trans hnone₁) ((hget _).symm.trans hnone₂) }
  obtain ⟨a, ha, hia⟩ := hm.builtin ((hget _).symm.trans hb)
  exact ⟨a, (hget' _).trans ha, hia⟩

theorem getEntry (hia : r i a) : Concurring r (fun s e e' => e.Alike s e') (Loader.getEntry i) (Loader.getEntry a) :=
  get.bind fun _ hs _ _ hm => pure fun _ ht => (hm.entry (hs _ _ hia)).mono ht

/-! ### Changes of slots -/

theorem commit (key : String) (p : Partition) : Concurring r Any (Loader.commit key p) (Loader.commit key p) := by
  refine get.bind fun s _ l l' hm => ?_
  have hmoved := (hm.cache.commit key p).2
  refine (updateCache (fun t _ c c' hc => (hc.commit key p).1) (fun _ => Cache.builtins_commit _ _ _)
    fun _ => Cache.builtins_commit _ _ _).andThen fun _ _ => onlyIf ?_ (report _ _)
  generalize (l.cache.commit key p).2 = x at hmoved
  generalize (l'.cache.commit key p).2 = y at hmoved
  cases hmoved <;> exact Iff.rfl

theorem rollback (key : String) : Concurring r Any (Loader.rollback key) (Loader.rollback key) := by
  refine get.bind fun s _ l l' hm => onlyIf (by rw [hm.cache.has]) ?_
  exact (updateCache (fun _ _ _ _ hc => hc.delete .discovery key) (fun _ => Cache.builtins_delete _ _ _)
    fun _ => Cache.builtins_delete _ _ _).andThen fun _ _ => report _ _

theorem poison (p : Partition) (key : String) (e : LoadError) :
    Concurring r Any (Loader.poison p key e) (Loader.poison p key e) :=
  (report _ _).andThen fun _ _ => updateCache (fun _ _ _ _ hc => hc.set p key (.poisoned e))
    (fun _ => Cache.builtins_set _ _ _ _) fun _ => Cache.builtins_set _ _ _ _

/-! ### Packages, sources and programs -/

/-- What both loaders find out about the package of a file is what there is to see. -/
theorem packageOfFile {file : Path} (hf : file.Canonical) :
    Concurring r Same (Loader.packageOfFile file) (Loader.packageOfFile file) := by
  intro s hs l l' hm
  rw [run_packageOfFile, run_packageOfFile]
  have hpackage := hm.recalls.contextForFile hf
  have hpackage' := hm.recalls'.contextForFile hf
  have hworld : (l.packaged file).world = l.world := (Evolves.respects.package file l).world hm.bare
  have hworld' : (l'.packaged file).world = l'.world := (Evolves.respects.package file l').world hm.bare'
  have hconcurs : Concurs s (l.packaged file) (l'.packaged file) := { hm with
    world := hworld'.trans (hm.world.trans hworld.symm)
    recalls := by
      rw [hworld]
      exact hpackage.2
    recalls' := by
      rw [hworld]
      have hrecalls := hpackage'.2
      unfold packaged
      rw [hm.manifests, hm.files]
      exact hrecalls
    spare := fun hb hnone => by
      rw [builtinEntry_congr hworld]
      exact hm.spare hb hnone }
  refine ⟨s, fun _ _ h => h, hconcurs, .ok ?_⟩
  unfold packageOf
  rw [hm.manifests, hm.files]
  exact hpackage.1.trans hpackage'.1.symm

theorem keepSource (file : Path) (text : String) :
    Concurring r Any (modify fun l => { l with sources := l.sources.insert file.components text } : LoadM Unit)
      (modify fun l => { l with sources := l.sources.insert file.components text } : LoadM Unit) :=
  modified fun _ _ _ _ hm => { hm with sources := congrArg (Table.insert · file.components text) hm.sources }

theorem keepProgram (file : Path) (p : Program) :
    Concurring r Any (modify fun l => { l with programs := l.programs.insert file.components p } : LoadM Unit)
      (modify fun l => { l with programs := l.programs.insert file.components p } : LoadM Unit) :=
  modified fun _ _ _ _ hm => { hm with programs := congrArg (Table.insert · file.components p) hm.programs }

theorem sourceOf (file : Path) : Concurring r Same (Loader.sourceOf file) (Loader.sourceOf file) := by
  refine get.bind fun s _ l l' hm => ?_
  rw [hm.sources, hm.reader, hm.files]
  cases l.sources.get? file.components with
  | some text => exact pure fun _ _ => rfl
  | none =>
    refine (report _ _).andThen fun _ _ => ?_
    cases l.reader l.files file with
    | error fault => exact throw _
    | ok text =>
      exact (keepSource file text).andThen fun _ _ => pure fun _ _ => rfl

theorem scanSource (file : Path) (source : String) :
    Concurring r Same (Loader.scanSource file source) (Loader.scanSource file source) := by
  intro s _ l l' hm
  rw [run_scanSource_bare hm.bare, run_scanSource_bare hm.bare']
  refine ⟨s, fun _ _ h => h, hm, ?_⟩
  cases scanOf file source with
  | ok p => exact .ok rfl
  | error e => exact .error e

theorem programOf (file : Path) : Concurring r Same (Loader.programOf file) (Loader.programOf file) := by
  refine get.bind fun s _ l l' hm => ?_
  rw [hm.programs]
  cases l.programs.get? file.components with
  | some p => exact pure fun _ _ => rfl
  | none =>
    refine (sourceOf file).bind fun _ _ text _ htext => ?_
    subst htext
    refine (scanSource file text).bind fun _ _ p _ hp => ?_
    subst hp
    exact (keepProgram file p).andThen fun _ _ => pure fun _ _ => rfl

end Concurring

/-! ## Requests -/

namespace Concurring

theorem referrers {parent parent' : Option EntryId} (hp : Option.Rel r parent parent') :
    Concurring r (fun s => Option.Rel (Referrer.Alike s)) (parent.mapM Loader.referrer)
      (parent'.mapM Loader.referrer) := by
  cases hp with
  | none => exact pure fun _ _ => .none
  | @some i a hia =>
    have hreferrer : Concurring r Referrer.Alike (Loader.referrer i) (Loader.referrer a) := by
      refine (getEntry hia).bind fun s hs e e' he => pure fun t ht => ?_
      obtain ⟨-, hformat, -, hmodule, hpackage⟩ := he.spared
      exact ⟨ht _ _ (hs _ _ hia), by rw [hmodule], hformat, hpackage, by rw [hmodule]⟩
    exact hreferrer.bind fun s _ f f' hf => pure fun t ht => .some (hf.mono ht)

theorem link {f f' : Option Referrer} (hf : Option.Rel (Referrer.Alike r) f f') (request : String) (hia : r i a) :
    Concurring r Any (Loader.link f request i) (Loader.link f' request a) := by
  cases hf with
  | none => exact pure fun _ _ => trivial
  | some hf =>
    exact updateEntry hf.id fun s hs e e' he =>
      ⟨⟨he.spared.key, he.spared.format, he.spared.parsed, he.spared.module, he.spared.package⟩,
        he.children.insert request (hs _ _ hia)⟩

/-- Which numbers entries have makes no difference to what is resolved on their behalf. -/
theorem resolveSpecifier (specifier : String) {f f' : Option Referrer} (hf : Option.Rel (Referrer.Alike r) f f')
    (isMain : Bool) : Concurring r (fun _ found found' => found = found' ∧ ∀ file, found = .file file → file.Canonical)
      (Loader.resolveSpecifier specifier f isMain) (Loader.resolveSpecifier specifier f' isMain) := by
  intro s _ l l' hm
  have hsame : resolution l'.resolver l'.files specifier f' isMain
      = resolution l.resolver l.files specifier f isMain := by
    rw [hm.resolver, hm.files]
    cases hf with
    | none => rfl
    | @some q q' hq =>
      obtain ⟨id, filename, format, package, paths⟩ := q
      obtain ⟨id', filename', format', package', paths'⟩ := q'
      obtain ⟨-, rfl, rfl, rfl, rfl⟩ := hq
      have hglobal : searchesGlobally ⟨id', filename', format', package', paths'⟩
          = searchesGlobally ⟨id, filename', format', package', paths'⟩ := rfl
      simp only [resolution, query, globalQuery?, Option.filter_some, Option.map_some, hglobal]
      by_cases hs : searchesGlobally ⟨id, filename', format', package', paths'⟩ = true
      · simp [hs]
      · simp [hs]
  rw [run_resolveSpecifier, run_resolveSpecifier, hsame]
  have hcanonical : ∀ file, resolution l.resolver l.files specifier f isMain = .ok (.file file) → file.Canonical := by
    intro file hr
    obtain ⟨q, hq⟩ := resolve_of_resolution hr
    exact Resolver.canonical_of_resolve hm.proper hq
  refine ⟨s, fun _ _ h => h, { hm with }, ?_⟩
  generalize resolution l.resolver l.files specifier f isMain = found at hcanonical
  cases found with
  | error e => exact .error e
  | ok found => exact .ok ⟨rfl, fun file h => hcanonical file (h ▸ rfl)⟩

end Concurring
end Loader
end ModGraph
