import ModGraph.Proofs.Confluence
import ModGraph.Proofs.Instances
import ModGraph.Proofs.Partitions
import ModGraph.Proofs.TwinRequests

/-!
# Parsing first

A load after a parse-only pass comes to the same as a load without one (`Loader.load_after_discover`). Both
follow the load without a pass in lockstep: the pass itself, so that it succeeds where that load does, and the
load behind it, which takes up what was parsed. A pass leaves modules as a load can take them up
(`Loader.Engaged.shelf`). If all three succeed, an entry and its two twins have one number: those of the pass are
numbered as in the load without one, and the load behind the pass finds an entry for every name.
-/

namespace ModGraph

open Loader (Job)

/-! ## What a pass leaves behind -/

namespace Loader

variable {w : World} {parsing : Bool} {l l' : Loader} {request key : String} {parent : Option EntryId} {limit : Nat}
  {id : EntryId} {file : Path}

theorem Ends.run_ok {α : Type} {R E : Loader → Loader → Prop} {action : LoadM α} (h : Ends R E action) {a : α}
    (hrun : l.run action = (.ok a, l')) : R l l' := by
  have hl := h l
  rwa [hrun] at hl

theorem Pristine.engaged (h : l.Pristine) : l.Engaged l.world false :=
  { h.toStarts.resting.toConsistent with
    recites := (h.fresh.sees h.codeCache).recites
    proper := h.proper
    canonical := fun {p _ _} hk => by
      rw [h.fresh.cache] at hk
      cases p <;> cases hk
    sees := h.fresh.sees h.codeCache
    compilers := h.compilers
    parsing := by rw [h.fresh.cache]; rfl }

theorem Engaged.withParsing (h : l.Engaged w parsing) (parsing' : Bool) : (l.withParsing parsing').Engaged w parsing' :=
  { h.toConsistent.withParsing parsing', h.toWatching.elsewhere (h.toRereadable.withParsing parsing')
      ⟨rfl, rfl, rfl, rfl, rfl⟩ with
    compilers := h.compilers
    parsing := rfl }

theorem Engaged.load (h : l.Engaged w parsing) (request : String) (parent : Option EntryId) (isMain : Bool) :
    (l.run (Loader.load request parent isMain)).2.Engaged w parsing :=
  h.of_safely (((@Watching.loads w).load request parent isMain).follows (Safely.outcomes .self) l)
    (Evolves.respects.load request parent isMain l) fun _ (hj : _ ∈ none) => nomatch hj

theorem Engaged.discover (h : l.Engaged w parsing) (request : String) (parent : Option EntryId) :
    (l.run (Loader.discover request parent)).2.Engaged w parsing := by
  rw [run_discover]
  exact h.parsing ▸ ((h.withParsing true).load request parent false).withParsing l.cache.parsing

/-- A pass over a loader without modules loads none. -/
theorem Fresh.drafted (h : l.Fresh) : (l.withParsing true).Drafted where
  parsing := rfl
  unloaded hk _ := by
    simp only [Loader.withParsing, h.cache] at hk
    cases hk
  builtin hb := by
    simp only [Loader.withParsing, h.cache] at hb
    cases hb

/-- What a pass finds missing it makes without a parent if nobody else asks for it, and it stays so. -/
theorem Drafted.parent_of_load (hd : l.Drafted) (hc : l.Consistent)
    (hfile : l.resolved request none false = .ok (.file file))
    (hnone : l.cache.slot? (cacheKey file (splitQuery request).2) = none)
    (hrun : l.run (load request none false) = (.ok id, l')) : (l'.graph.entry id).parent = none := by
  have hnoted := hc.noted [.enters request .resolving]
  have hdrafted : (l.noted [.enters request .resolving]).Drafted := (Drafts.seeks.noted l rfl hd).1
  -- the module has no slot, and so it gets an entry
  have hmissing : (((l.noted [.enters request .resolving]).retried request none false).packaged file).view.held
      (.module (l.target request file).key) = none := congrArg (Option.map _) hnone
  obtain ⟨p, l₁, hmet, hview⟩ := met_of_missing hmissing request none false
  have hseek : (l.noted [.enters request .resolving]).run (seek request none false) = _ :=
    hnoted.toOrderly.run_seek
  rw [show (l.noted [.enters request .resolving]).resolved request none false = _ from hfile] at hseek
  replace hseek := hseek.trans hmet
  have hdrafts := Drafts.seeks.seek hnoted.toOrderly request none false hdrafted
  have hc₁ := hnoted.sought request none false
  rw [hseek] at hdrafts hc₁
  have hdue : l₁.Due _ := ⟨_, request, none, false, hnoted, hseek⟩
  have hperform := Drafts.loads.perform (Drafts.loads.loadNested (l.nestingBound request)) hc₁ hdue
  rw [run_load, loadWithin, run_reported, answer, run_bind, hseek, andThen_ok] at hrun
  dsimp only at hrun hperform
  rw [Spares.run_perform (Spares.loadNested _) hc₁ hdue.ready] at hrun hperform
  generalize (l₁.occupied _).run _ = r at hrun hperform
  obtain ⟨e | c, l₂⟩ := r
  · cases hrun
  · cases hrun
    obtain ⟨-, -, hparent⟩ := hperform hdrafts.1
    have hentry := (congrArg (·.graph.entry l.graph.size) hview).trans (Graph.entry_add_self _ _)
    exact (hparent hdue.ready.inRange).trans (congrArg Entry.parent hentry)

theorem Pristine.sorted (h : l.Pristine) : l.Sorted l.world.package l.world.program :=
  { h.engaged.toRereadable with
    compilers := h.compilers
    filed := fun {_ p _} hk => by
      rw [h.fresh.cache] at hk
      cases p <;> cases hk }

/-- What a pass that succeeds leaves in the cache is ready. -/
theorem Pristine.ready_of_discover (h : l.Pristine) (hrun : l.run (discover request none) = (.ok id, l')) {s : Slot}
    {p : Partition} (hk : l'.cache.slot? key = some (p, s)) : ∃ j, s = .ready j := by
  have hrest : l'.Resting := by
    have hrest : (l.after (.discover request none)).Resting := h.toStarts.resting.after trivial
    rwa [after, hrun] at hrest
  cases s with
  | loading j => exact absurd hk (hrest.inProgress key p j)
  | ready j => exact ⟨j, rfl⟩
  | poisoned e =>
    have hintact := ((Intact.loads.discover Intact.withParsing request none).run_ok hrun).rel
      h.toStarts.resting.toConsistent h.toStarts.orderly h.toStarts.resting.provisional
    have hnone := hintact.2 key p e hk
    rw [h.fresh.cache] at hnone
    cases hnone

/-- A pass that succeeds loads nothing, apart from builtin modules. -/
theorem Pristine.unloaded_of_discover (h : l.Pristine) (hrun : l.run (discover request none) = (.ok id, l')) :
    (∀ {key p s j}, l'.cache.slot? key = some (p, s) → s.entry? = some j →
      j < l'.graph.size ∧ (l'.graph.entry j).isLoaded = false) ∧
    ∀ {name j}, l'.cache.builtins.get? name = some j →
      j < l'.graph.size ∧ ∃ children, l'.graph.entry j = { l.world.builtinEntry name with children := children } := by
  have hengaged := h.engaged.discover request none
  rw [hrun] at hengaged
  rw [run_discover] at hrun
  generalize hload : (l.withParsing true).run (load request none false) = r at hrun
  obtain ⟨result, l₂⟩ := r
  cases hrun
  have hdrafted := ((Drafts.loads.load request none false).run_ok hload).rel
    (h.toStarts.resting.toConsistent.withParsing true) h.fresh.drafted |>.1
  refine ⟨hdrafted.unloaded, fun {name j} hb => ?_⟩
  rw [← hengaged.builtinEntry]
  exact hdrafted.builtin hb

/-- A pass that succeeds leaves modules as a load can take them up. -/
theorem Pristine.shelf (h : l.Pristine) (hrun : l.run (discover request none) = (.ok id, l')) :
    l'.view.Shelf l.world false := by
  have hengaged := h.engaged.discover request none
  have hsorted : (l.after (.discover request none)).Sorted l.world.package l.world.program :=
    h.sorted.after h.toStarts.resting.toConsistent trivial
  rw [hrun] at hengaged
  rw [after, hrun] at hsorted
  obtain ⟨hunloaded, hbuiltin⟩ := h.unloaded_of_discover hrun
  have hfiled : ∀ {key j}, l'.view.held (.module key) = some (.ready j) →
      ∃ p, l'.Filed l.world.package l.world.program key p j := fun hk => by
    obtain ⟨p, hk⟩ := slot?_of_held hk
    exact ⟨p, hsorted.filed (Cache.get?_of_slot? hk)⟩
  -- an entry tells under which name it is held
  have hheld : ∀ {ref j}, l'.view.held ref = some (.ready j) → ref =
      if (l'.graph.entry j).isLoaded then .builtin (l'.graph.entry j).key else .module (l'.graph.entry j).key := by
    intro ref j hk
    cases ref with
    | module key =>
      obtain ⟨p, hslot⟩ := slot?_of_held hk
      rw [(hunloaded hslot rfl).2, (hengaged.keyed hslot rfl).2]
      rfl
    | builtin name =>
      obtain ⟨-, children, heq⟩ := hbuiltin (builtins_of_held hk)
      rw [heq]
      rfl
  refine { ready := fun {ref s} hk => ?_, distinct := fun {ref ref' j} hk hk' => ?_,
           empty := fun hp => absurd hp Bool.false_ne_true,
           key := fun hk => ?_, unloaded := fun hk => ?_, filename := fun hk => ?_, package := fun hk => ?_,
           blank := fun hk => ?_, builtin := fun hk => (hbuiltin (builtins_of_held hk)).2 }
  · cases ref with
    | module key =>
      obtain ⟨p, hslot⟩ := slot?_of_held hk
      obtain ⟨j, rfl⟩ := h.ready_of_discover hrun hslot
      exact ⟨j, (hunloaded hslot rfl).1, rfl⟩
    | builtin name =>
      obtain ⟨j, hb, rfl⟩ := held_builtin.mp hk
      exact ⟨j, (hbuiltin hb).1, rfl⟩
  · exact (hheld hk).trans (hheld hk').symm
  · obtain ⟨p, hslot⟩ := slot?_of_held hk
    exact (hengaged.keyed hslot rfl).2
  · obtain ⟨p, hslot⟩ := slot?_of_held hk
    exact (hunloaded hslot rfl).2
  · obtain ⟨p, hf⟩ := hfiled hk
    exact hf.filename
  · obtain ⟨p, hf⟩ := hfiled hk
    exact hf.package
  · obtain ⟨p, hslot⟩ := slot?_of_held hk
    exact (hsorted.filed (Cache.get?_of_slot? hslot)).blank (hunloaded hslot rfl).2

end Loader

/-! ## Three loads side by side -/

/-- At most the mark of a parse-only pass and the order of the children are different. -/
structure Entry.Matches (e e' : Entry) : Prop where
  eq : e' = { e with parsed := e'.parsed, children := e'.children }
  children : ∀ request, e'.children.get? request = e.children.get? request

theorem Entry.eq_of_parts {e e' : Entry} (hkey : e'.key = e.key) (hformat : e'.format = e.format)
    (hid : e'.module.id = e.module.id) (hfile : e'.module.filename = e.module.filename)
    (hexports : e'.module.exports = e.module.exports) (hloaded : e'.isLoaded = e.isLoaded)
    (hpaths : e'.module.paths = e.module.paths) (hpackage : e'.package = e.package) (hparent : e'.parent = e.parent) :
    e' = { e with parsed := e'.parsed, children := e'.children } := by
  obtain ⟨key, format, parsed, ⟨id, file, exports, loaded, paths⟩, package, parent, children⟩ := e
  obtain ⟨key', format', parsed', ⟨id', file', exports', loaded', paths'⟩, package', parent', children'⟩ := e'
  simp_all [Entry.isLoaded]

namespace Twins

variable {start v v₁ v₂ : View} {m₁ m₂ : EntryId → EntryId} (h₁ : Twins true start none m₁ v v₁)
  (hnone : start.graph.size = 0) (h₂ : Twins false v₁ none m₂ v v₂)
include h₁ hnone h₂

/-- Entries that a pass makes are numbered as in the load that it follows, and so are those of a load behind it. -/
theorem numbers_eq {i : EntryId} (hi : i < v.graph.size) : m₁ i = i ∧ m₂ i = i := by
  have hm₁ := (h₁.numbered hnone).2 i hi
  obtain ⟨ref, s, hs, hentry⟩ := h₂.known hi
  have hstart : v₁.held ref = some (s.renamed m₁) := by
    rw [h₁.held, hs]
    rfl
  have hadopted := h₂.adopted hs hentry
  rw [hstart] at hadopted
  refine ⟨hm₁, Option.some.inj (hadopted.symm.trans ?_)⟩
  cases s with
  | poisoned e => cases hentry
  | _ =>
    cases hentry
    exact congrArg some hm₁

theorem size_eq : v₂.graph.size = v.graph.size := by
  have hsize := (h₁.numbered hnone).1
  refine Nat.le_antisymm (Nat.le_of_not_lt fun hlt => ?_) (hsize ▸ h₂.grown)
  obtain ⟨i, hi, heq⟩ := h₂.made (Nat.le_of_eq hsize) hlt
  rw [(numbers_eq h₁ hnone h₂ hi).2] at heq
  exact Nat.ne_of_lt hi heq

theorem held_eq (hempty : ∀ ref, start.held ref = none) (ref : Ref) : v₂.held ref = v.held ref := by
  rw [h₂.held, h₁.held, hempty]
  cases hs : v.held ref with
  | none => rfl
  | some s =>
    have hrenamed : s.renamed m₂ = s := by
      obtain ⟨i, hi, rfl | ⟨rfl, -⟩⟩ := h₁.finding hs
      · exact congrArg Slot.loading (numbers_eq h₁ hnone h₂ hi).2
      · exact congrArg Slot.ready (numbers_eq h₁ hnone h₂ hi).2
    exact congrArg some hrenamed

/-- An entry that was parsed first ends up like one that was not. -/
theorem matches_entry {i : EntryId} (hi : i < v.graph.size) : (v.graph.entry i).Matches (v₂.graph.entry i) := by
  obtain ⟨hm₁, hm₂⟩ := numbers_eq h₁ hnone h₂ hi
  have hk₁ := h₁.kin hi
  have hk₂ := h₂.kin hi
  have hsame := h₂.same rfl hi nofun
  have hstart : start.graph.find i = none := if_neg (hnone ▸ Nat.not_lt_zero i)
  have hfound : v₁.graph.find i = some (v₁.graph.entry i) := if_pos ((h₁.numbered hnone).1 ▸ hi)
  rw [hm₁, hstart] at hk₁
  rw [hm₂, hfound] at hk₂
  rw [hm₂] at hsame
  -- of an entry that was parsed first, nothing is left that the pass did not see as the load does
  have hname := hk₁.name.resolve_right nofun
  have hpaths := hk₁.paths.resolve_right nofun
  refine ⟨Entry.eq_of_parts hk₂.key hsame.1 ?_ hk₂.filename hsame.2 (hk₂.isLoaded rfl) ?_ hk₂.package ?_,
    fun request => ?_⟩
  · rcases hk₂.name with h | ⟨b, ⟨⟩, h⟩
    · exact h
    · exact h.trans hname
  · rcases hk₂.paths with h | ⟨b, ⟨⟩, h⟩
    · exact h
    · exact h.trans hpaths
  · cases hp : (v.graph.entry i).parent with
    | none => exact hk₂.orphan rfl hp
    | some q =>
      obtain ⟨hq, h⟩ := hk₁.parent hp
      rw [(numbers_eq h₁ hnone h₂ hq).1] at h
      exact (hk₂.parent hp).2.trans h
  · cases hc : (v.graph.entry i).children.get? request with
    | none => exact (hk₂.barren hc).trans (hk₁.barren hc)
    | some c =>
      obtain ⟨hlt, h⟩ := hk₂.child hc
      rwa [(numbers_eq h₁ hnone h₂ hlt).2] at h

end Twins

/-! ## Ownership -/

namespace Graph

variable {g : Graph} {roots : List EntryId}

/-- What is owned from outside stays. -/
theorem settle_of_owned {ids : List EntryId} (h : ∀ id ∈ ids, id ∈ roots) (rounds : Nat) :
    g.settle roots rounds ids = ids := by
  induction rounds with
  | zero => rfl
  | succ rounds ih =>
    have hkept : ids.filter (g.isOwned roots ids) = ids :=
      List.filter_eq_self.mpr fun id hid => by simp [isOwned, h id hid]
    rw [settle, hkept, ih]

/-- Where everything is owned from outside every parent lives. -/
theorem parent?_of_owned (h : ∀ id < g.size, id ∈ roots) (id : EntryId) :
    g.parent? roots id = (g.entry id).parent.filter (· < g.size) := by
  rw [parent?, alive, settle_of_owned fun i hi => h i (List.mem_range.mp hi)]
  congr 1
  funext parent
  simp

end Graph

/-- What the cache leads to it owns. -/
theorem Loader.mem_owned_of_held {l : Loader} {ref : Ref} {s : Slot} {id : EntryId}
    (h : l.view.held ref = some s) (hs : s.entry? = some id) : id ∈ l.cache.owned := by
  simp only [Cache.owned, List.mem_append, List.mem_flatMap, List.mem_filterMap]
  cases ref with
  | module key =>
    obtain ⟨p, hk⟩ := slot?_of_held h
    refine .inl (.inl (.inl ⟨p, ?_, s, Table.mem_values (Cache.get?_of_slot? hk), hs⟩))
    cases p <;> simp [Partition.all]
  | builtin name =>
    obtain ⟨j, hb, rfl⟩ := held_builtin.mp h
    cases hs
    exact .inl (.inl (.inr (Table.mem_values hb)))

/-! ## Fresh loaders -/

theorem View.Shelf.of_empty {w : World} {parsing : Bool} {v : View} (h : ∀ ref, v.held ref = none) :
    v.Shelf w parsing where
  ready hk := by rw [h] at hk; cases hk
  distinct hk := by rw [h] at hk; cases hk
  empty _ := h
  key hk := by rw [h] at hk; cases hk
  unloaded hk := by rw [h] at hk; cases hk
  filename hk := by rw [h] at hk; cases hk
  package hk := by rw [h] at hk; cases hk
  blank hk := by rw [h] at hk; cases hk
  builtin hk := by rw [h] at hk; cases hk

/-- A slot of a committed partition is where the module's format and package demand. -/
theorem Placed.unique {file : Path} {unexposed : Bool} {format : Format} {p p' : Partition}
    (h : Placed file unexposed format p) (h' : Placed file unexposed format p') (hp : p ≠ .discovery)
    (hp' : p' ≠ .discovery) : p = p' := by
  cases p <;> cases p' <;> first | rfl | exact absurd rfl hp | exact absurd rfl hp' | skip
  · exact absurd h' fun hd => hd.elim h.1 h.2
  · exact absurd h fun hd => hd.elim h'.1 h'.2

namespace Loader

variable {l l' l₁ l₂ : Loader} {request : String} {id : EntryId} {file : Path}

/-- Two loaders with the same modules in the same committed slots. Entries may have gone through a parse-only
pass in one of them and not in the other. -/
structure SameModules (l l' : Loader) : Prop where
  size : l'.graph.size = l.graph.size
  entry : ∀ id < l.graph.size, (l.graph.entry id).Matches (l'.graph.entry id)
  parent? : ∀ held, ∀ id < l.graph.size, l'.parent? held id = l.parent? held id
  slot : ∀ p key, l'.cache.get? p key = l.cache.get? p key
  discovery : ∀ key, l'.cache.get? .discovery key = none
  builtin : ∀ name, l'.cache.builtins.get? name = l.cache.builtins.get? name

theorem Fresh.held (h : l.Fresh) (ref : Ref) : l.view.held ref = none := by
  cases ref <;> simp only [view, h.cache] <;> rfl

theorem Fresh.size (h : l.Fresh) : l.view.graph.size = 0 := by
  simp only [view, h.graph]
  rfl

/-- What is asked for first has no parent after a pass. -/
theorem Pristine.parent_of_discover (h : l.Pristine) (hrun : l.run (discover request none) = (.ok id, l'))
    (hfile : l.resolved request none false = .ok (.file file)) {j : EntryId}
    (hk : l'.view.held (.module (cacheKey file (splitQuery request).2)) = some (.ready j)) :
    (l'.graph.entry j).parent = none := by
  have hc : (l.withParsing true).Consistent := h.toStarts.resting.toConsistent.withParsing true
  have hnone : ∀ key, (l.withParsing true).cache.slot? key = none := fun key => by
    simp only [Loader.withParsing, h.fresh.cache]
    rfl
  rw [run_discover] at hrun
  generalize hload : (l.withParsing true).run (load request none false) = r at hrun
  obtain ⟨result, l₂⟩ := r
  cases hrun
  have hslot := slot_of_load hc (fun key p i hp => by rw [InProgress, hnone] at hp; cases hp) hfile
    (congrArg Prod.fst hload)
  rw [hload] at hslot
  obtain ⟨p, hslot⟩ := hslot
  have hheld : l₂.view.held (.module (cacheKey file (splitQuery request).2)) = some (.ready id) :=
    held_of_slot? hslot
  obtain rfl : id = j := Slot.ready.inj (Option.some.inj (hheld.symm.trans hk))
  have hparent : (l₂.graph.entry id).parent = none := h.fresh.drafted.parent_of_load hc hfile (hnone _) hload
  exact hparent

/-- A pass follows a load. -/
theorem Pristine.mirrors_discover (h : l.Pristine) (hn : l.world.Narrow) (request : String) :
    Mirrors true (Answers true l.view (fun i => i) l.graph.size) (l.run (load request none false))
      (l.run (discover request none)) := by
  have halike : Alike (fun i => i) l (l.withParsing true) none := nofun
  have hmirrors : Mirrors true (Answers true l.view (fun i => i) l.graph.size)
      (l.run (loadWithin request none false (l.nestingBound request)))
      ((l.withParsing true).run (loadWithin request none false (l.nestingBound request))) :=
    h.engaged.mirrors_loadWithin (.of_empty h.fresh.held) hn (inStep (.of_empty h.fresh.held) hn _)
      (h.engaged.withParsing true) (.begin h.fresh.size h.fresh.held) halike
      fun _ file j _ hk => by rw [h.fresh.held] at hk; cases hk
  rw [run_discover, run_load, run_load, nestingBound_withParsing]
  generalize l.run _ = r at hmirrors ⊢
  generalize (l.withParsing true).run _ = r' at hmirrors ⊢
  obtain ⟨e | id, l₁⟩ := r
  · exact nofun
  · obtain ⟨id', l₁', rfl, hanswers⟩ := hmirrors
    exact ⟨id', _, rfl, hanswers⟩

/-- A load behind a pass follows the load without one. -/
theorem Pristine.mirrors_load (h : l.Pristine) (hn : l.world.Narrow)
    (hrun : l.run (discover request none) = (.ok id, l')) :
    Mirrors false (Answers false l'.view (fun i => i) l.graph.size) (l.run (load request none false))
      (l'.run (load request none false)) := by
  have hengaged := h.engaged.discover request none
  have hsteady := (h.plain.steady.discover request none).1
  rw [hrun] at hengaged hsteady
  -- there is a limit that is high enough for both loads
  obtain ⟨-, bound, hbound⟩ := (h.plain.steady.load request none false).2
  obtain ⟨-, bound', hbound'⟩ := (hsteady.load request none false).2
  rw [← hbound _ (Nat.le_max_left bound bound'), ← hbound' _ (Nat.le_max_right bound bound')]
  have halike : Alike (fun i => i) l l' none := nofun
  exact h.engaged.mirrors_loadWithin (h.shelf hrun) hn (inStep (h.shelf hrun) hn _) hengaged
    (.begin h.fresh.size h.fresh.held) halike
    fun _ file j hfile hk => h.parent_of_discover hrun hfile hk

/-- A loader between calls whose ready slots are where they belong. -/
structure Settled (w : World) (l : Loader) : Prop extends Resting l, Sorted w.package w.program l

theorem Settled.after {w : World} (h : l.Settled w) {op : Operation} (hop : Undisturbed l op) :
    (l.after op).Settled w :=
  { h.toResting.after hop.regular, h.toSorted.after h.toConsistent hop with }

/-- Modules that are loaded on both sides are in the same slots. -/
theorem Settled.slot?_eq {w : World} (h : l.Settled w) (h' : l'.Settled w)
    (hheld : ∀ ref, l'.view.held ref = l.view.held ref)
    (hentries : ∀ i < l.graph.size, (l.graph.entry i).Matches (l'.graph.entry i))
    (hfinding : ∀ {ref s}, l.view.held ref = some s →
      ∃ i < l.graph.size, s = .loading i ∨ s = .ready i ∧ (l.graph.entry i).isLoaded = true) (key : String) :
    l'.cache.slot? key = l.cache.slot? key ∧ ∀ s, l'.cache.slot? key ≠ some (.discovery, s) := by
  cases hk : l.cache.slot? key with
  | none =>
    have hnone : l.view.held (.module key) = none := congrArg (Option.map Prod.snd) hk
    have hnone' : l'.cache.slot? key = none := Option.map_eq_none_iff.mp ((hheld _).trans hnone)
    exact ⟨hnone', fun s hs => by rw [hnone'] at hs; cases hs⟩
  | some slot =>
    obtain ⟨p, s⟩ := slot
    have hsome : l.view.held (.module key) = some s := held_of_slot? hk
    obtain ⟨i, hi, rfl | ⟨rfl, hloaded⟩⟩ := hfinding hsome
    · exact absurd hk (h.inProgress key p i)
    · obtain ⟨p', hk'⟩ := slot?_of_held ((hheld _).trans hsome)
      have hb := h.toSorted.belongs h.toResting (Cache.get?_of_slot? hk)
      have hb' := h'.toSorted.belongs h'.toResting (Cache.get?_of_slot? hk')
      have hplaced := hb'.placed
      have hdiscovered := hb'.discovered
      rw [(hentries i hi).eq] at hplaced hdiscovered
      have hp : p ≠ .discovery := fun hp => by rw [(hb.discovered hp).2] at hloaded; cases hloaded
      have hp' : p' ≠ .discovery := fun hp' => by
        have hunloaded := (hdiscovered hp').2
        exact absurd (hunloaded.symm.trans hloaded) nofun
      obtain rfl := hb.placed.unique hplaced hp hp'
      refine ⟨hk', fun s hs => ?_⟩
      rw [hk'] at hs
      cases hs
      exact hp rfl

/-- What a load without a parent leaves behind if both the pass and the load behind it follow. -/
theorem Pristine.sameModules (h : l.Pristine) {later : Loader} (hs : l₁.Settled l.world) (hs' : later.Settled l.world)
    {start : View} {m₁ m₂ : EntryId → EntryId} (ht₁ : Twins true l.view none m₁ l₁.view start)
    (ht₂ : Twins false start none m₂ l₁.view later.view) : SameModules l₁ later := by
  have hsize : later.graph.size = l₁.graph.size := Twins.size_eq ht₁ h.fresh.size ht₂
  have hheld := Twins.held_eq ht₁ h.fresh.size ht₂ h.fresh.held
  have hentries : ∀ i < l₁.graph.size, (l₁.graph.entry i).Matches (later.graph.entry i) := fun i hi =>
    Twins.matches_entry ht₁ h.fresh.size ht₂ hi
  have hslot := hs.slot?_eq hs' hheld hentries ht₁.finding
  have howned : ∀ i < l₁.graph.size, i ∈ l₁.cache.owned ∧ i ∈ later.cache.owned := fun i hi => by
    obtain ⟨ref, s, hk, hentry⟩ := ht₁.known hi
    exact ⟨mem_owned_of_held hk hentry, mem_owned_of_held ((hheld ref).trans hk) hentry⟩
  refine ⟨hsize, hentries, fun held i hi => ?_, fun p key => ?_, fun key => ?_, fun name => ?_⟩
  · unfold Loader.parent?
    rw [Graph.parent?_of_owned fun j hj => List.mem_append_right held (howned j hj).1,
      Graph.parent?_of_owned fun j hj => List.mem_append_right held (howned j (hsize ▸ hj)).2, hsize,
      (hentries i hi).eq]
  · have heq := (hslot key).1
    refine Option.ext fun s => ?_
    rw [← hs.exclusive.slot?_eq_some, ← hs'.exclusive.slot?_eq_some, heq]
  · refine Option.eq_none_iff_forall_ne_some.mpr fun s hk => ?_
    exact (hslot key).2 s (hs'.exclusive.slot?_eq_some.mpr hk)
  · have hb : (later.cache.builtins.get? name).map Slot.ready = (l₁.cache.builtins.get? name).map .ready :=
      hheld (.builtin name)
    exact Option.map_injective (fun _ _ => Slot.ready.inj) hb

/-- A load succeeds only if a parse-only pass does, and behind a pass that succeeds it comes to the same as
without one: to the same error, or to the same entry among the same modules. -/
theorem load_after_discover (h : l.Pristine) (hn : l.world.Narrow) (request : String) :
    let direct := l.run (load request none false)
    let pass := l.run (discover request none)
    let later := pass.2.run (load request none false)
    (∀ id, direct.1 = .ok id → pass.1 = .ok id) ∧
      ∀ id, pass.1 = .ok id → later.1 = direct.1 ∧ ((∃ id, direct.1 = .ok id) → SameModules direct.2 later.2) := by
  have hsettled : l.Settled l.world := { h.toStarts.resting, h.sorted with }
  have hdirect : (l.after (.load request none false)).Settled l.world := hsettled.after trivial
  have hdiscovered : (l.after (.discover request none)).Settled l.world := hsettled.after trivial
  have hlater : ((l.after (.discover request none)).after (.load request none false)).Settled l.world :=
    hdiscovered.after trivial
  have hpass := h.mirrors_discover hn request
  have hbehind : ∀ id l', l.run (discover request none) = (.ok id, l') →
      Mirrors false (Answers false l'.view (fun i => i) l.graph.size) (l.run (load request none false))
        (l'.run (load request none false)) := fun _ _ => h.mirrors_load hn
  simp only [after] at hdirect hlater
  dsimp only
  generalize hload : l.run (load request none false) = direct at hdirect hpass hbehind ⊢
  generalize hdiscover : l.run (discover request none) = pass at hlater hpass hbehind ⊢
  obtain ⟨e | id, l₁⟩ := direct
  · refine ⟨fun _ hid => (by cases hid), fun id hid => ?_⟩
    obtain ⟨result, l'⟩ := pass
    obtain rfl : result = .ok id := hid
    refine ⟨hbehind id l' rfl rfl, ?_⟩
    rintro ⟨_, hdirect⟩
    cases hdirect
  · obtain ⟨id', l', rfl, m₁, ht₁, -, hlt, rfl⟩ := hpass
    have hm₁ := (ht₁.numbered h.fresh.size).2 id hlt
    rw [hm₁] at hbehind ⊢
    obtain ⟨id'', later, hrun, m₂, ht₂, -, -, rfl⟩ := hbehind id l' rfl
    dsimp only at hlater ⊢
    rw [hrun] at hlater ⊢
    refine ⟨fun _ heq => heq, fun _ _ => ⟨?_, fun _ => h.sameModules hdirect hlater ht₁ ht₂⟩⟩
    exact congrArg Except.ok (Twins.numbers_eq ht₁ h.fresh.size ht₂ hlt).2

/-- A loader with nothing set, for files without manifests. -/
def bare (fs : FileSystem) : Loader :=
  { ofConfig (.default ⟨none, none⟩) fs with manifests := fun _ _ => .absent }

theorem fresh_bare (fs : FileSystem) : (bare fs).Fresh := ⟨rfl, rfl, rfl, rfl, rfl, rfl⟩

theorem narrow_bare (fs : FileSystem) : (bare fs).world.Narrow := by
  have hin : ∀ dirs, (bare fs).world.packageIn dirs = ⟨none, .default⟩ := fun dirs => by
    induction dirs with
    | nil => rfl
    | cons dir above ih => exact ih
  intro file
  unfold World.package
  split
  · rw [hin]
    rfl
  · rfl

theorem pristine_bare_circular : (bare circularFiles).Pristine where
  fresh := fresh_bare _
  unmarked := ⟨unmarked_circular.names, fun hc => by cases hc⟩
  compilers := rfl
  codeCache := rfl
  faithful := fun _ _ _ h => h
  proper := proper_app

/-- Modules that ask for each other are parsed first. -/
theorem load_after_discover_circular :
    let l := bare circularFiles
    let direct := l.run (load "./a.js" none false)
    let pass := l.run (discover "./a.js" none)
    let later := pass.2.run (load "./a.js" none false)
    direct.1 = .ok 0 ∧ pass.1 = .ok 0 ∧ later.1 = .ok 0 ∧ SameModules direct.2 later.2 := by
  have hdirect : ((bare circularFiles).run (load "./a.js" none false)).1 = .ok 0 := by decide +kernel
  obtain ⟨hpass, hlater⟩ := load_after_discover pristine_bare_circular (narrow_bare _) "./a.js"
  obtain ⟨hsame, hmodules⟩ := hlater 0 (hpass 0 hdirect)
  exact ⟨hdirect, hpass 0 hdirect, hsame.trans hdirect, hmodules ⟨0, hdirect⟩⟩

/-- A module with a query in its request, and a file whose name is the module's key. -/
def collidingFiles : FileSystem where
  nodes := ⟨[
    (["app"], .directory),
    (["low.ts", "app"], .file "exports.v = 1".toUTF8),
    (["low.ts?x.mjs", "app"], .file "export const v = 2".toUTF8),
    (["link.mjs", "app"], .link "/app/low.ts?x.mjs"),
    (["main.cjs", "app"],
      .file "exports.x = require(\"./low.ts?x.mjs\").v\nexports.y = require(\"./link.mjs\").v".toUTF8)]⟩
  workingDirectory := ["app"]

/-- Where names hold query marks, a load behind a pass can come to something else: the key of two modules, one of
discovery and a declarative one, leads to the second of them only. -/
theorem load_after_discover_colliding :
    let l := bare collidingFiles
    let direct := l.run (load "./main.cjs" none false)
    let pass := l.run (discover "./main.cjs" none)
    let later := pass.2.run (load "./main.cjs" none false)
    (l.Fresh ∧ l.compilers = .standard ∧ l.codeCache? = none ∧ l.Faithful ∧
      FileSystem.Proper l.files.workingDirectory ∧ l.world.Narrow) ∧
    direct.1 = .ok 0 ∧ pass.1 = .ok 0 ∧ later.1 = .ok 0 ∧
      (direct.2.graph.entry 0).module.exports.render = "\x7b\"x\":1,\"y\":2\x7d" ∧
      (later.2.graph.entry 0).module.exports.render = "\x7b\"x\":1,\"y\":1\x7d" ∧
      later.2.cache.get? .discovery "/app/low.ts?x.mjs" ≠ none := by
  refine ⟨⟨fresh_bare _, rfl, rfl, fun _ _ _ h => h, fun name hname => ?_, narrow_bare _⟩, ?_⟩
  · obtain rfl := List.mem_singleton.mp hname
    exact Path.isStep_name.mpr (by decide)
  · decide +kernel

end Loader
end ModGraph
