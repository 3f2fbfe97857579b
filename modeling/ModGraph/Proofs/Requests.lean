import ModGraph.Proofs.Follows
import ModGraph.Proofs.Slots

/-!
# One request, step by step

What each step on the way of a request answers, and which loader it leaves behind, as equations between
runs and pure functions. In an exclusive cache the classification of a module is one case analysis on
its slot (`run_classify`), and `run_seek` puts the steps together up to the point where a module is to
be compiled. `run_occupy`, `run_vacate` and `run_settle` are the changes of its slot from there on.
-/

namespace ModGraph
namespace Loader

/-! ## Changes -/

/-- The loader after some more events, the latest first. -/
def noted (l : Loader) (events : List Event) : Loader := { l with journal := events ++ l.journal }

/-- The loader after the request of an entry was linked. -/
def linked (l : Loader) (referrer : Option Referrer) (request : String) (child : EntryId) : Loader :=
  match referrer with
  | none => l
  | some r => { l with graph := l.graph.update r.id fun e => e.addChild request child }

theorem cache_linked (l : Loader) (referrer : Option Referrer) (request : String) (child : EntryId) :
    (l.linked referrer request child).cache = l.cache := by
  cases referrer <;> rfl

/-- The loader after a slot of discovery was moved. -/
def committed (l : Loader) (key : String) (p : Partition) : Loader :=
  { l with cache := (l.cache.commit key p).1, journal := .commits key p :: l.journal }

/-- The loader after the package of a file was looked up. -/
def packaged (l : Loader) (file : Path) : Loader :=
  let answer := l.packages.contextForFile (l.manifests l.files) file
  { l with packages := answer.contexts, journal := (walkEvents answer).reverse ++ l.journal }

/-- The package that a file is found to belong to. -/
def packageOf (l : Loader) (file : Path) : PackageContext :=
  let answer := l.packages.contextForFile (l.manifests l.files) file
  answer.contexts.context answer.id

variable {l : Loader} {request key specifier : String} {referrer : Option Referrer} {isMain : Bool}

theorem run_packageOfFile (l : Loader) (file : Path) :
    l.run (packageOfFile file) = (.ok (l.packageOf file), l.packaged file) := rfl

theorem run_link (l : Loader) (referrer : Option Referrer) (request : String) (child : EntryId) :
    l.run (link referrer request child) = (.ok (), l.linked referrer request child) := by
  cases referrer <;> rfl

/-! ## Resolution -/

/-- What is known about the entry that makes a request. -/
def referrer? (l : Loader) (parent : Option EntryId) : Option Referrer :=
  parent.map fun id =>
    let e := l.graph.entry id
    ⟨id, e.module.filename, e.format, e.package, e.module.paths⟩

/-- What a resolver is asked for on behalf of an entry. -/
def query (specifier : String) (referrer : Option Referrer) (isMain : Bool) : Resolver.Query where
  specifier := specifier
  referrer := referrer.map Referrer.filename
  format := (referrer.map Referrer.format).getD .legacy
  isMain := isMain
  search := []

/-- The folders for legacy modules, as far as an entry may search them. -/
def globalQuery? (r : Resolver) (q : Resolver.Query) (referrer : Option Referrer) :
    Option Resolver.Query :=
  (referrer.filter searchesGlobally).map fun f =>
    { q with
      format := .legacy
      search := if f.paths.isEmpty then r.legacySearchPaths f.filename.directory else f.paths }

/-- What a specifier stands for, for an entry. -/
def resolution (r : Resolver) (fs : FileSystem) (specifier : String) (referrer : Option Referrer)
    (isMain : Bool) : Except LoadError Resolution :=
  let q := query specifier referrer isMain
  match r.resolve fs q with
  | .ok found => .ok found
  | .error e =>
    match globalQuery? r q referrer with
    | none => .error e
    | some global => (r.resolve fs global).mapError fun _ => e

/-- What resolution reports. -/
def retries (r : Resolver) (fs : FileSystem) (specifier : String) (referrer : Option Referrer)
    (isMain : Bool) : List Event :=
  match r.resolve fs (query specifier referrer isMain) with
  | .ok _ => []
  | .error _ => if (referrer.filter searchesGlobally).isSome then [.retries specifier] else []

/-- Resolution fails with the specifier and the file of the module that asks. -/
theorem error_of_resolution {r : Resolver} {fs : FileSystem} {e : LoadError}
    (h : resolution r fs specifier referrer isMain = .error e) :
    e = .moduleNotFound specifier (referrer.map Referrer.filename) := by
  have hresolve : ∀ {q e}, r.resolve fs q = .error e → e = .moduleNotFound q.specifier q.referrer := by
    intro q e h
    unfold Resolver.resolve at h
    split at h
    · cases h
    · split at h <;> cases h
      rfl
  simp only [resolution] at h
  split at h
  · cases h
  · next e' he =>
    split at h
    · cases h
      exact hresolve he
    · next global _ =>
      cases hr : r.resolve fs global <;> rw [hr] at h <;> cases h
      exact hresolve he

/-- What is found is found by one of two queries. -/
theorem resolve_of_resolution {r : Resolver} {fs : FileSystem} {found : Resolution}
    (h : resolution r fs specifier referrer isMain = .ok found) :
    ∃ q, r.resolve fs q = .ok found := by
  simp only [resolution] at h
  split at h
  · next heq => exact ⟨_, heq.trans h⟩
  · split at h
    · cases h
    · next global _ =>
      refine ⟨global, ?_⟩
      cases hr : r.resolve fs global with
      | error e => rw [hr] at h; cases h
      | ok found' => rw [hr] at h; exact h

theorem run_referrers (l : Loader) (parent : Option EntryId) :
    l.run (parent.mapM Loader.referrer) = (.ok (l.referrer? parent), l) := by
  cases parent <;> rfl

theorem run_resolveSpecifier (l : Loader) (specifier : String) (referrer : Option Referrer)
    (isMain : Bool) :
    l.run (resolveSpecifier specifier referrer isMain)
      = (resolution l.resolver l.files specifier referrer isMain,
        l.noted (retries l.resolver l.files specifier referrer isMain)) := by
  unfold resolveSpecifier
  rw [run_bind, run_get, andThen_ok]
  simp only [resolution, retries, globalQuery?, query]
  cases referrer with
  | none =>
    generalize l.resolver.resolve l.files _ = first
    cases first <;> rfl
  | some r =>
    generalize l.resolver.resolve l.files _ = first
    cases first with
    | ok found => rfl
    | error e =>
      by_cases hs : searchesGlobally r = true
      · simp only [hs, if_true, Option.filter_some, Option.map_some, run_bind, run_report, andThen_ok,
          Option.isSome_some]
        generalize l.resolver.resolve l.files _ = second
        cases second <;> rfl
      · simp only [hs, Option.filter_some]
        rfl

/-- What a request stands for in the eyes of an entry. -/
def resolved (l : Loader) (request : String) (parent : Option EntryId) (isMain : Bool) :
    Except LoadError Resolution :=
  resolution l.resolver l.files (splitQuery request).1 (l.referrer? parent) isMain

/-- The loader after a request was resolved. -/
def retried (l : Loader) (request : String) (parent : Option EntryId) (isMain : Bool) : Loader :=
  l.noted (retries l.resolver l.files (splitQuery request).1 (l.referrer? parent) isMain)

/-- The key of what a request stands for; of a builtin module, its name. -/
def keyOf (request : String) : Resolution → String
  | .builtin name => name
  | .file path => cacheKey path (splitQuery request).2

theorem run_resolve (l : Loader) (request : String) (parent : Option EntryId) :
    l.run (resolve request parent)
      = ((l.resolved request parent false).map (keyOf request), l.retried request parent false) := by
  unfold resolve
  rw [run_bind, run_referrers, andThen_ok]
  dsimp only
  rw [run_bind, run_resolveSpecifier]
  change andThen (l.resolved request parent false, l.retried request parent false) _ = _
  cases l.resolved request parent false with
  | error e => rfl
  | ok found => cases found <;> rfl

/-! ## Builtin modules -/

/-- The entry of a builtin module that was not asked for before. -/
def builtinEntry (l : Loader) (name : String) : Entry :=
  let e := Entry.new name ⟨name⟩ .legacy l.packages.defaultContext
  (e.setExports ((l.builtinExports.get? name).getD e.module.exports)).setLoaded true

/-- The entry of a builtin module, and the loader after it was asked for. -/
def builtinOf (l : Loader) (name : String) : EntryId × Loader :=
  match l.cache.builtins.get? name with
  | some id => (id, l)
  | none => (l.graph.size, { l with
      graph := (l.graph.add (l.builtinEntry name)).1
      cache := l.cache.setBuiltin name l.graph.size })

theorem run_builtin (l : Loader) (name : String) :
    l.run (builtin name) = (.ok (l.builtinOf name).1, (l.builtinOf name).2) := by
  unfold builtin builtinOf
  rw [run_bind, run_get, andThen_ok]
  cases l.cache.builtins.get? name <;> rfl

theorem builtins_builtinOf (l : Loader) (name : String) :
    (l.builtinOf name).2.cache.builtins.get? name = some (l.builtinOf name).1 := by
  unfold builtinOf
  cases hb : l.cache.builtins.get? name with
  | some id => exact hb
  | none => exact Table.get?_insert_self _ _ _

/-! ## Classification -/

/-- The partition for a module that has no slot. -/
def newPartition : Option Format → Partition
  | some .declarative => .declarative
  | some .legacy => .legacy
  | none => .discovery

theorem settledPartition_ne (unexposed : Bool) (format : Format) :
    settledPartition unexposed format ≠ .discovery := by
  unfold settledPartition
  split <;> decide

/-- What a slot means for a request, and what becomes of the loader. A module of discovery moves to its
partition as soon as it is used outside of a parse-only pass. -/
def classified (l : Loader) (key : String) (fixed : Option Format) (unexposed : Bool) :
    Except LoadError CacheLookup × Loader :=
  match l.cache.slot? key with
  | none => (.ok (.miss (newPartition fixed)), l)
  | some (_, .poisoned e) => (.error e, l)
  | some (p, .loading id) => (.ok (.hit id), l.noted (if p = .discovery then [] else [.circular key]))
  | some (p, .ready id) =>
    if l.cache.parsing then (.ok (.hit id), l)
    else
      let e := l.graph.entry id
      let p' := if p = .discovery then settledPartition unexposed e.format else p
      (.ok (if e.isLoaded then .hit id else .evaluate p' id),
        if p = .discovery then (l.noted [.adopts key]).committed key p' else l)

theorem classified_loading {p : Partition} {id : EntryId} (h : l.cache.slot? key = some (p, .loading id))
    (fixed : Option Format) (unexposed : Bool) : l.classified key fixed unexposed
      = (.ok (.hit id), l.noted (if p = .discovery then [] else [.circular key])) := by
  unfold classified
  rw [h]

/-- A classification only reports, or it moves a module out of discovery. -/
theorem loader_classified (l : Loader) (key : String) (fixed : Option Format) (unexposed : Bool) :
    (∃ events : List Event, events.filterMap Event.compiledKey? = [] ∧
      (l.classified key fixed unexposed).2 = l.noted events) ∨
    ∃ id, l.cache.slot? key = some (.discovery, .ready id) ∧ l.cache.parsing = false ∧
      (l.classified key fixed unexposed).2
        = (l.noted [.adopts key]).committed key (settledPartition unexposed (l.graph.entry id).format) := by
  unfold classified
  split
  · exact .inl ⟨[], rfl, rfl⟩
  · exact .inl ⟨[], rfl, rfl⟩
  · exact .inl ⟨_, by split <;> rfl, rfl⟩
  · next p id hslot =>
    split
    · exact .inl ⟨[], rfl, rfl⟩
    · next hparsing =>
      dsimp only
      split
      · next hp =>
        subst hp
        exact .inr ⟨id, hslot, by simpa using hparsing, rfl⟩
      · exact .inl ⟨[], rfl, rfl⟩

/-- Classification only moves slots and reports. -/
theorem classified_frame (l : Loader) (key : String) (fixed : Option Format) (unexposed : Bool) :
    ∃ cache events, (l.classified key fixed unexposed).2
        = { l with cache := cache, journal := events ++ l.journal } ∧
      cache.builtins = l.cache.builtins ∧ cache.parsing = l.cache.parsing ∧
      events.filterMap Event.compiledKey? = [] := by
  obtain ⟨events, hevents, heq⟩ | ⟨id, hslot, -, heq⟩ := l.loader_classified key fixed unexposed
  · exact ⟨l.cache, events, heq, rfl, rfl, hevents⟩
  · have hcommit : ∀ q, (l.cache.commit key q).1.builtins = l.cache.builtins ∧
        (l.cache.commit key q).1.parsing = l.cache.parsing := fun q => by
      simp [Cache.commit_eq hslot rfl]
    exact ⟨_, [.commits key _, .adopts key], heq, (hcommit _).1, (hcommit _).2, rfl⟩

/-- Where a slot of discovery that holds an entry moved, it is in its new place and nowhere else. -/
theorem get?_committed {s : Slot} {id : EntryId} (h : l.cache.get? .discovery key = some s)
    (hs : s.entry? = some id) (p q : Partition) (k : String) :
    (l.committed key p).cache.get? q k =
      if p = q ∧ key = k then some s else if .discovery = q ∧ key = k then none else l.cache.get? q k := by
  simp only [committed, Cache.commit, h, hs, Cache.get?_set, Cache.get?_delete]

/-- After a classification a slot is where it was before, or it is the one of the key and came from
discovery. -/
theorem get?_classified {fixed : Option Format} {unexposed : Bool} {q : Partition} {k : String} {s : Slot}
    (h : (l.classified key fixed unexposed).2.cache.get? q k = some s) :
    l.cache.get? q k = some s ∨ k = key ∧ ∃ id, s = .ready id ∧
      l.cache.get? .discovery key = some (.ready id) ∧
      q = settledPartition unexposed (l.graph.entry id).format := by
  obtain ⟨events, -, heq⟩ | ⟨id, hslot, -, heq⟩ := l.loader_classified key fixed unexposed
  · rw [heq] at h
    exact .inl h
  · have hget := Cache.get?_of_slot? hslot
    rw [heq, get?_committed (l := l.noted [.adopts key]) hget rfl] at h
    split at h
    · next hq => exact .inr ⟨hq.2.symm, id, (Option.some.inj h).symm, hget, hq.1.symm⟩
    · split at h
      · cases h
      · exact .inl h

/-! What a classification answers says what the slot of the key is. -/

/-- Classification fails only with what a slot holds. -/
theorem poisoned_of_classified {fixed : Option Format} {unexposed : Bool} {e : LoadError}
    (h : (l.classified key fixed unexposed).1 = .error e) : ∃ p, l.cache.slot? key = some (p, .poisoned e) := by
  unfold classified at h
  split at h
  · cases h
  · next p e' hslot =>
    cases h
    exact ⟨p, hslot⟩
  · cases h
  · split at h <;> cases h

/-- A slot that is used as it is holds a module that is in progress, that is loaded, or that a parse-only pass asks
for. -/
theorem slot_of_hit {fixed : Option Format} {unexposed : Bool} {id : EntryId}
    (h : (l.classified key fixed unexposed).1 = .ok (.hit id)) :
    ∃ p s, l.cache.slot? key = some (p, s) ∧
      (s = .loading id ∨ s = .ready id ∧ ((l.graph.entry id).isLoaded = true ∨ l.cache.parsing = true)) := by
  unfold classified at h
  split at h
  · cases h
  · cases h
  · next p id' hslot =>
    cases h
    exact ⟨p, _, hslot, .inl rfl⟩
  · next p id' hslot =>
    split at h
    · next hparsing =>
      cases h
      exact ⟨p, _, hslot, .inr ⟨rfl, .inr hparsing⟩⟩
    · dsimp only at h
      split at h
      · next hloaded =>
        cases h
        exact ⟨p, _, hslot, .inr ⟨rfl, .inl hloaded⟩⟩
      · cases h

/-- A module that is left to be evaluated was parsed only: it is in a committed partition, or it moves to one. -/
theorem parsed_of_classified {fixed : Option Format} {unexposed : Bool} {p : Partition} {id : EntryId}
    (h : (l.classified key fixed unexposed).1 = .ok (.evaluate p id)) :
    p ≠ .discovery ∧ l.cache.parsing = false ∧ (l.graph.entry id).isLoaded = false ∧
      (l.cache.slot? key = some (p, .ready id) ∧ (l.classified key fixed unexposed).2 = l ∨
        l.cache.slot? key = some (.discovery, .ready id) ∧
          (l.classified key fixed unexposed).2 = (l.noted [.adopts key]).committed key p) := by
  unfold classified at h ⊢
  cases hslot : l.cache.slot? key with
  | none => simp [hslot] at h
  | some found =>
    obtain ⟨q, s⟩ := found
    cases s with
    | poisoned e => simp [hslot] at h
    | loading id' => simp [hslot] at h
    | ready id' =>
      by_cases hparsing : l.cache.parsing = true
      · simp [hslot, hparsing] at h
      by_cases hloaded : (l.graph.entry id').isLoaded = true
      · simp [hslot, hparsing, hloaded] at h
      rw [Bool.not_eq_true] at hparsing hloaded
      simp only [hslot, hparsing, hloaded, Bool.false_eq_true, if_false, Except.ok.injEq,
        CacheLookup.evaluate.injEq] at h ⊢
      obtain ⟨rfl, rfl⟩ := h
      split
      · next hq =>
        subst hq
        exact ⟨settledPartition_ne _ _, trivial, hloaded, .inr ⟨rfl, rfl⟩⟩
      · next hq => exact ⟨hq, trivial, hloaded, .inl ⟨rfl, rfl⟩⟩

/-- A module is made anew only where its key has no slot. -/
theorem slot_of_missed {fixed : Option Format} {unexposed : Bool} {p : Partition}
    (h : (l.classified key fixed unexposed).1 = .ok (.miss p)) :
    (l.classified key fixed unexposed).2 = l ∧ l.cache.slot? key = none ∧ newPartition fixed = p := by
  unfold classified at h ⊢
  split at h
  · next hslot =>
    cases h
    exact ⟨rfl, hslot, rfl⟩
  · cases h
  · cases h
  · split at h
    · cases h
    · dsimp only at h
      split at h <;> cases h

/-! ### A partition that is looked into -/

theorem run_lookup_of_none {p : Partition} (h : l.cache.get? p key = none) :
    l.run (lookup p key) = (.ok (.miss p), l) := by
  simp [lookup, h]

theorem run_lookup_of_poisoned {p : Partition} {e : LoadError} (h : l.cache.get? p key = some (.poisoned e)) :
    l.run (lookup p key) = (.error e, l) := by
  simp [lookup, h]

theorem run_lookup_of_loading {p : Partition} {id : EntryId} (h : l.cache.get? p key = some (.loading id)) :
    l.run (lookup p key) = (.ok (.hit id), l.noted [.circular key]) := by
  simp [lookup, h, noted]

theorem run_lookup_of_ready {p : Partition} {id : EntryId} (h : l.cache.get? p key = some (.ready id)) :
    l.run (lookup p key)
      = (.ok (if (l.graph.entry id).isLoaded || l.cache.parsing then .hit id else .evaluate p id), l) := by
  unfold lookup
  rw [run_bind, run_get, andThen_ok, h]
  dsimp only
  split <;> rfl

/-! ### The partition that decides -/

theorem has_eq_false_iff {c : Cache} {p : Partition} : c.has p key = false ↔ c.get? p key = none := by
  simp [Cache.has_eq]

/-- A module that is declarative by its name, or as there is a declarative slot, is looked up as such. -/
theorem run_classify_declarative {fixed : Option Format}
    (h : fixed = some .declarative ∨ l.cache.has .declarative key = true) (unexposed : Bool) :
    l.run (classify key fixed unexposed) = l.run (lookup .declarative key) := by
  unfold classify
  rw [run_bind, run_get, andThen_ok, if_pos (by simpa using h)]

/-- Where there is no declarative slot a legacy one decides. -/
theorem run_classify_legacy {fixed : Option Format} (hfixed : fixed ≠ some .declarative)
    (hd : l.cache.get? .declarative key = none) (h : l.cache.has .legacy key = true) (unexposed : Bool) :
    l.run (classify key fixed unexposed) = l.run (lookup .legacy key) := by
  have hhas := has_eq_false_iff.mpr hd
  unfold classify
  rw [run_bind, run_get, andThen_ok, if_neg (by simp [hfixed, hhas]), if_pos h]

/-- A module that is used outside of a parse-only pass leaves discovery. -/
theorem run_adopt {p : Partition} {id : EntryId} (h : l.cache.get? .discovery key = some (.ready id))
    (hparsing : l.cache.parsing = false) :
    l.run (do
        report (.adopts key)
        commit key p
        lookup p key)
      = (.ok (if (l.graph.entry id).isLoaded then .hit id else .evaluate p id),
        (l.noted [.adopts key]).committed key p) := by
  have hcommit : l.cache.commit key p
      = ((l.cache.delete .discovery key).set p key (.ready id), some id) := by
    simp [Cache.commit, h, Slot.entry?]
  have hrun : (l.noted [.adopts key]).run (commit key p)
      = (.ok (), (l.noted [.adopts key]).committed key p) := by
    simp [commit, committed, noted, hcommit]
  have hslot : ((l.noted [.adopts key]).committed key p).cache.get? p key = some (.ready id) := by
    simp [committed, noted, hcommit, Cache.get?_set_self]
  have hparsing' : ((l.noted [.adopts key]).committed key p).cache.parsing = false := by
    simp [committed, noted, hcommit, hparsing]
  rw [run_bind, run_report, andThen_ok]
  change (l.noted [.adopts key]).run _ = _
  rw [run_bind, hrun, andThen_ok, run_lookup_of_ready hslot, hparsing', Bool.or_false]
  rfl

/-- Where there is no slot elsewhere that of discovery decides. -/
theorem run_classify_discovery {fixed : Option Format} (hfixed : fixed ≠ some .declarative)
    (hd : l.cache.get? .declarative key = none) (hl : l.cache.get? .legacy key = none) (unexposed : Bool) :
    l.run (classify key fixed unexposed) =
      match l.cache.get? .discovery key with
      | none => (.ok (.miss (newPartition fixed)), l)
      | some (.poisoned e) => (.error e, l)
      | some (.loading id) => (.ok (.hit id), l)
      | some (.ready id) =>
        if l.cache.parsing then (.ok (.hit id), l)
        else
          let p := settledPartition unexposed (l.graph.entry id).format
          (.ok (if (l.graph.entry id).isLoaded then .hit id else .evaluate p id),
            (l.noted [.adopts key]).committed key p) := by
  have hhas := has_eq_false_iff.mpr hd
  have hhas' := has_eq_false_iff.mpr hl
  unfold classify
  rw [run_bind, run_get, andThen_ok, if_neg (by simp [hfixed, hhas]), if_neg (by simp [hhas'])]
  cases hs : l.cache.get? .discovery key with
  | none =>
    rcases fixed with - | - | -
    · rfl
    · rfl
    · exact absurd rfl hfixed
  | some s =>
    cases s with
    | poisoned e => rfl
    | loading id => rfl
    | ready id =>
      dsimp only
      split
      · rfl
      · next hparsing => exact run_adopt hs (by simpa using hparsing)

/-- One of the three partitions decides what a key is. -/
theorem classify_cases (c : Cache) (key : String) (fixed : Option Format) :
    (fixed = some .declarative ∨ c.has .declarative key = true) ∨
      fixed ≠ some .declarative ∧ c.get? .declarative key = none ∧
        (c.has .legacy key = true ∨ c.get? .legacy key = none) := by
  by_cases hfixed : fixed = some .declarative
  · exact .inl (.inl hfixed)
  cases hd : c.has .declarative key with
  | true => exact .inl (.inr rfl)
  | false =>
    refine .inr ⟨hfixed, has_eq_false_iff.mp hd, ?_⟩
    cases hl : c.has .legacy key with
    | true => exact .inl rfl
    | false => exact .inr (has_eq_false_iff.mp hl)

/-! ### In an exclusive cache -/

theorem run_lookup {p : Partition} {s : Slot} (hp : p ≠ .discovery)
    (h : l.cache.slot? key = some (p, s)) (fixed : Option Format) (unexposed : Bool) :
    l.run (lookup p key) = l.classified key fixed unexposed := by
  have hget := Cache.get?_of_slot? h
  unfold classified
  rw [h]
  cases s with
  | poisoned e => exact run_lookup_of_poisoned hget
  | loading id =>
    rw [run_lookup_of_loading hget]
    simp [hp]
  | ready id =>
    rw [run_lookup_of_ready hget]
    by_cases hparsing : l.cache.parsing = true
    · simp [hparsing]
    · simp [hparsing, hp]

theorem run_classify {fixed : Option Format} (hc : l.cache.Exclusive)
    (hfixed : fixed = some .declarative → IsDeclarativeKey key) (unexposed : Bool) :
    l.run (classify key fixed unexposed) = l.classified key fixed unexposed := by
  cases hs : l.cache.slot? key with
  | none =>
    have habsent := Cache.slot?_eq_none.mp hs
    have hclass : l.classified key fixed unexposed = (.ok (.miss (newPartition fixed)), l) := by
      simp [classified, hs]
    rw [hclass]
    by_cases hf : fixed = some .declarative
    · rw [run_classify_declarative (.inl hf), run_lookup_of_none (habsent _), hf]
      rfl
    · rw [run_classify_discovery hf (habsent _) (habsent _), habsent]
  | some found =>
    obtain ⟨p, s⟩ := found
    have hhas := Cache.has_of_get? (Cache.get?_of_slot? hs)
    have hne : p ≠ .declarative → fixed ≠ some .declarative := fun hp hf =>
      hp (hc.declarative (hfixed hf) hhas)
    cases p with
    | declarative =>
      rw [run_classify_declarative (.inr hhas)]
      exact run_lookup (by decide) hs fixed unexposed
    | legacy =>
      rw [run_classify_legacy (hne (by decide)) (hc.get?_of_ne hs (by decide)) hhas]
      exact run_lookup (by decide) hs fixed unexposed
    | discovery =>
      rw [run_classify_discovery (hne (by decide)) (hc.get?_of_ne hs (by decide)) (hc.get?_of_ne hs (by decide)),
        Cache.get?_of_slot? hs]
      unfold classified
      rw [hs]
      cases s <;> rfl

/-! ## Seeking -/

/-- The entry that is made for a module without a slot. -/
def newEntry (referrer : Option Referrer) (target : Target) : Entry :=
  { Entry.new target.key target.filename (target.fixed.getD .legacy) target.package with
    parent := referrer.map Referrer.id }

/-- What comes of the classification of a target. -/
def found (l : Loader) (request : String) (referrer : Option Referrer) (isMain : Bool)
    (target : Target) : CacheLookup → Except LoadError Finding × Loader
  | .hit id => (.ok (.found id), (l.noted [.enters target.key .cacheHit]).linked referrer request id)
  | .evaluate p id => (.ok (.needs ⟨request, referrer, isMain, target, p, id⟩), l)
  | .miss p => (.ok (.needs ⟨request, referrer, isMain, target, p, l.graph.size⟩),
      { l with graph := (l.graph.add (newEntry referrer target)).1 })

/-- What comes of looking for a target. -/
def met (l : Loader) (request : String) (referrer : Option Referrer) (isMain : Bool)
    (target : Target) : Except LoadError Finding × Loader :=
  match (l.noted [.enters target.key .classifying]).classified target.key target.fixed
      target.package.isUnexposed with
  | (.error e, l') => (.error e, l')
  | (.ok c, l') => l'.found request referrer isMain target c

/-- A target is classified, and that tells what to do with it. -/
theorem run_seekTarget_eq (l : Loader) (request : String) (referrer : Option Referrer) (isMain : Bool)
    (target : Target) : l.run (seekTarget request referrer isMain target) =
      match (l.noted [.enters target.key .classifying]).run
          (classify target.key target.fixed target.package.isUnexposed) with
      | (.error e, l') => (.error e, l')
      | (.ok c, l') => l'.found request referrer isMain target c := by
  unfold seekTarget
  rw [run_bind, run_report, andThen_ok]
  change (l.noted [.enters target.key .classifying]).run _ = _
  rw [run_bind]
  generalize (l.noted [.enters target.key .classifying]).run (classify _ _ _) = r
  obtain ⟨e | c, l'⟩ := r
  · rfl
  · cases c with
    | hit id => simp [found, run_link, noted]
    | evaluate p id => rfl
    | miss p => rfl

theorem run_seekTarget {target : Target} (hc : l.cache.Exclusive)
    (hfixed : target.fixed = some .declarative → IsDeclarativeKey target.key) :
    l.run (seekTarget request referrer isMain target) = l.met request referrer isMain target := by
  rw [run_seekTarget_eq, run_classify (l := l.noted [.enters target.key .classifying]) hc hfixed, met]

/-- A target whose module is to be compiled was classified so: its module was parsed only, or there is none yet. -/
theorem needs_of_seekTarget {l' : Loader} {job : Job} {target : Target}
    (h : l.run (seekTarget request referrer isMain target) = (.ok (.needs job), l')) :
    job.request = request ∧ job.referrer = referrer ∧ job.isMain = isMain ∧ job.target = target ∧
      let classification := (l.noted [.enters target.key .classifying]).run
        (classify target.key target.fixed target.package.isUnexposed)
      classification = (.ok (.evaluate job.partition job.id), l') ∨
        ∃ l₁, classification = (.ok (.miss job.partition), l₁) ∧ job.id = l₁.graph.size ∧
          l' = { l₁ with graph := (l₁.graph.add (newEntry referrer target)).1 } := by
  rw [run_seekTarget_eq] at h
  dsimp only
  generalize (l.noted [.enters target.key .classifying]).run (classify _ _ _) = r at h ⊢
  obtain ⟨e | c, l₁⟩ := r
  · cases h
  · cases c with
    | hit id => cases h
    | evaluate p id =>
      cases h
      exact ⟨rfl, rfl, rfl, rfl, .inl rfl⟩
    | miss p =>
      cases h
      exact ⟨rfl, rfl, rfl, rfl, .inr ⟨l₁, rfl, rfl, rfl⟩⟩

/-- What a file is for a request. -/
def target (l : Loader) (request : String) (file : Path) : Target :=
  ⟨file, cacheKey file (splitQuery request).2, l.packageOf file, Format.ofPath? file⟩

/-- A request is resolved, and then its target is looked for. -/
theorem run_seek_eq (l : Loader) (request : String) (parent : Option EntryId) (isMain : Bool) :
    l.run (seek request parent isMain) =
      let l' := l.retried request parent isMain
      match l.resolved request parent isMain with
      | .error e => (.error e, l')
      | .ok (.builtin name) =>
        (.ok (.found (l'.builtinOf name).1),
          (l'.builtinOf name).2.linked (l.referrer? parent) request (l'.builtinOf name).1)
      | .ok (.file file) =>
        (l'.packaged file).run (seekTarget request (l.referrer? parent) isMain (l.target request file)) := by
  unfold seek
  rw [run_bind, run_referrers, andThen_ok]
  dsimp only
  rw [run_bind, run_resolveSpecifier]
  change andThen (l.resolved request parent isMain, l.retried request parent isMain) _ = _
  cases hr : l.resolved request parent isMain with
  | error e => rfl
  | ok found =>
    cases found with
    | builtin name => simp [run_builtin, run_link]
    | file file =>
      simp only [andThen_ok, run_bind, run_packageOfFile]
      rfl

theorem run_seek (hc : l.cache.Exclusive) {parent : Option EntryId}
    (hfixed : ∀ file, l.resolved request parent isMain = .ok (.file file) →
      Format.ofPath? file = some .declarative →
      IsDeclarativeKey (cacheKey file (splitQuery request).2)) :
    l.run (seek request parent isMain) =
      let l' := l.retried request parent isMain
      match l.resolved request parent isMain with
      | .error e => (.error e, l')
      | .ok (.builtin name) =>
        (.ok (.found (l'.builtinOf name).1),
          (l'.builtinOf name).2.linked (l.referrer? parent) request (l'.builtinOf name).1)
      | .ok (.file file) =>
        (l'.packaged file).met request (l.referrer? parent) isMain (l.target request file) := by
  rw [run_seek_eq]
  cases hr : l.resolved request parent isMain with
  | error e => rfl
  | ok found =>
    cases found with
    | builtin name => rfl
    | file file =>
      exact run_seekTarget (l := (l.retried request parent isMain).packaged file) hc (hfixed file hr)

/-! ## The beginning and the end of a compilation -/

/-- The loader after the preparation of an entry. -/
def begun (l : Loader) (id : EntryId) (filename : Path) : Loader :=
  let g := l.graph.update id fun e => { e with module := { e.module with filename := filename } }
  { l with
    graph := if (l.graph.entry id).module.paths.isEmpty then
        g.update id fun e => e.setPaths (searchPaths l.resolver e.package e.format filename)
      else g
    journal := .compiles filename :: l.journal }

/-- The compiler that is at work on an entry. -/
def compilation (l : Loader) (id : EntryId) (filename : Path) : Compilation :=
  let e := l.graph.entry id
  ⟨e.format, l.cache.parsing,
    (l.compilers.forPath filename).task ⟨filename, e.package.options.mode, l.cache.parsing⟩⟩

theorem run_beginCompile (l : Loader) (id : EntryId) (filename : Path) :
    l.run (beginCompile id filename) = (.ok (l.compilation id filename), l.begun id filename) := by
  unfold beginCompile begun compilation
  rw [run_bind, run_get, andThen_ok]
  dsimp only
  rw [run_bind, run_updateEntry, andThen_ok, run_bind, run_onlyIf]
  by_cases hp : (l.graph.entry id).module.paths.isEmpty = true <;>
    simp only [hp, Bool.false_eq_true, if_true, if_false] <;> rfl

theorem run_setFormat (l : Loader) (id : EntryId) (format : Format) :
    l.run (setFormat id format) = (.ok (), { l with
      graph := l.graph.update id fun e => e.setFormat format
      journal := (if (l.graph.entry id).isLoaded then [.keepsFormat (l.graph.entry id).key] else [])
        ++ l.journal }) := by
  unfold setFormat
  rw [run_bind, run_getEntry, andThen_ok, run_bind, run_onlyIf]
  split <;> rfl

/-- The loader after the marks of a compilation. -/
def marked (l : Loader) (id : EntryId) (filename : Path) (c : Compilation) : Loader :=
  let g := if (l.graph.entry id).format ≠ c.format then
      l.graph.update id fun e => e.setPaths (searchPaths l.resolver e.package e.format filename)
    else l.graph
  { l with graph := g.update id fun e => if c.parsing then { e with parsed := true } else e.setLoaded true }

theorem run_endCompile (l : Loader) (id : EntryId) (filename : Path) (c : Compilation) :
    l.run (endCompile id filename c) = (.ok (), l.marked id filename c) := by
  unfold endCompile marked
  rw [run_bind, run_get, andThen_ok]
  dsimp only
  rw [run_bind, run_onlyIf]
  by_cases hf : (l.graph.entry id).format ≠ c.format <;> cases c.parsing <;> simp [hf]

/-! ## The slot of a module that is compiled -/

/-- The loader after a module's slot was marked. -/
def occupied (l : Loader) (job : Job) : Loader :=
  let c := l.cache.set job.partition job.target.key (.loading job.id)
  if job.isMain then
    { l with
      cache := { c with main? := some job.id, legacyMain? := some job.id }
      graph := l.graph.update job.id fun e => { e with module := { e.module with id := "." } }
      journal := .compilesIn job.target.key job.partition :: l.journal }
  else { l with cache := c, journal := .compilesIn job.target.key job.partition :: l.journal }

theorem run_occupy (l : Loader) (job : Job) : l.run (occupy job) = (.ok (), l.occupied job) := by
  unfold occupy occupied
  cases h : job.isMain <;> simp

/-- The loader after a compilation failed. -/
def vacated (l : Loader) (job : Job) (e : LoadError) : Loader :=
  if job.partition.isCommitted then
    { l with
      cache := l.cache.poison job.partition job.target.key e
      journal := .poisons job.target.key job.partition :: l.journal }
  else
    { l with
      cache := l.cache.rollback job.target.key
      journal := .rollsBack job.target.key :: l.journal }

theorem graph_vacated (l : Loader) (job : Job) (e : LoadError) : (l.vacated job e).graph = l.graph := by
  unfold vacated
  split <;> rfl

theorem run_vacate_of_get? {job : Job} {s : Slot}
    (h : l.cache.get? job.partition job.target.key = some s) (e : LoadError) :
    l.run (vacate job e) = (.ok (), l.vacated job e) := by
  unfold vacate vacated
  split
  · rfl
  · next hp =>
    have hd : job.partition = .discovery := by
      cases hq : job.partition <;> simp_all [Partition.isCommitted]
    have hhas : l.cache.has .discovery job.target.key = true := by
      rw [← hd]
      exact Cache.has_of_get? h
    simp [rollback, hhas]

theorem run_vacate {job : Job} {s : Slot} (h : l.cache.slot? job.target.key = some (job.partition, s))
    (e : LoadError) : l.run (vacate job e) = (.ok (), l.vacated job e) :=
  run_vacate_of_get? (Cache.get?_of_slot? h) e

/-- The partition in which a compiled module stays. -/
def finalPartition (l : Loader) (job : Job) : Partition :=
  if job.partition = .discovery && !l.cache.parsing then
    settledPartition job.target.package.isUnexposed (l.graph.entry job.id).format
  else job.partition

/-- The loader after a module was compiled and its slot marked as ready. -/
def settled (l : Loader) (job : Job) : Loader :=
  let p := l.finalPartition job
  let moves : Bool := job.partition = .discovery && !l.cache.parsing
  { l with
    cache := (if moves then (l.cache.commit job.target.key p).1 else l.cache).set p job.target.key
      (.ready job.id)
    journal := (if moves then [.commits job.target.key p] else []) ++ l.journal }

theorem run_settle {job : Job} (h : l.cache.get? job.partition job.target.key = some (.loading job.id)) :
    l.run (settle job.partition job.target.key job.target.package.isUnexposed
        (l.graph.entry job.id).format)
      = (.ok (), l.settled job) := by
  unfold settle settled finalPartition
  rw [run_bind, run_get, andThen_ok]
  generalize hm : (job.partition = .discovery && !l.cache.parsing : Bool) = moves
  cases moves with
  | true =>
    have hd : job.partition = .discovery := by simp_all
    rw [hd] at h
    simp only [if_true]
    obtain ⟨p, hp⟩ : ∃ p, p = settledPartition job.target.package.isUnexposed
        (l.graph.entry job.id).format := ⟨_, rfl⟩
    have hcommit : l.cache.commit job.target.key p =
        ((l.cache.delete .discovery job.target.key).set p job.target.key (.loading job.id), some job.id) := by
      simp [Cache.commit, h, Slot.entry?]
    rw [← hp]
    simp [commit, hcommit, Cache.finish, Cache.get?_set_self, Slot.finish]
  | false =>
    simp only [Bool.false_eq_true, if_false]
    rw [run_updateCache]
    simp [Cache.finish, h, Slot.finish]

/-- The loader after a compiled module was linked and what is to be hidden was hidden. -/
def concealed (l : Loader) (job : Job) (format : Format) : Loader :=
  let unexposed := job.target.package.isUnexposed
  if l.cache.parsing then l
  else
    let hides := job.isMain && unexposed && format == .declarative
    let l := if hides then
        { l with
          cache := { l.cache with legacyMain? := none }
          journal := .hidesMain job.target.key :: l.journal }
      else l
    if severs job.referrer format then
      { l with graph := l.graph.update job.id fun e => { e with parent := none } }
    else l

theorem run_conceal (l : Loader) (job : Job) (format : Format) :
    l.run (conceal job.referrer job.isMain job.target.package.isUnexposed job.target.key job.id format)
      = (.ok (), l.concealed job format) := by
  unfold conceal concealed
  rw [run_bind, run_get, andThen_ok, run_onlyIf]
  cases hparsing : l.cache.parsing with
  | true => simp
  | false =>
    simp only [Bool.not_false, if_true, run_bind, run_onlyIf, Bool.false_eq_true, if_false]
    cases hh : (job.isMain && job.target.package.isUnexposed && format == .declarative) <;>
      simp only [Bool.false_eq_true, if_false, if_true, andThen_ok, run_report, run_updateCache] <;>
      cases severs job.referrer format <;> rfl

/-- The loader after a compiled module took its place. -/
def concluded (l : Loader) (job : Job) : Loader :=
  let l' := (l.settled job).noted [.enters job.target.key .linking]
  (l'.linked job.referrer job.request job.id).concealed job (l.graph.entry job.id).format

theorem run_conclude_of_get? {job : Job}
    (h : l.cache.get? job.partition job.target.key = some (.loading job.id)) :
    l.run (conclude job) = (.ok (), l.concluded job) := by
  unfold conclude concluded
  rw [run_bind, run_getEntry, andThen_ok]
  dsimp only
  rw [run_bind, run_settle h, andThen_ok, run_bind, run_report, andThen_ok, run_bind, run_link,
    andThen_ok, run_conceal]
  rfl

theorem run_conclude {job : Job}
    (h : l.cache.slot? job.target.key = some (job.partition, .loading job.id)) :
    l.run (conclude job) = (.ok (), l.concluded job) :=
  run_conclude_of_get? (Cache.get?_of_slot? h)

/-- An answer that is reported is the same answer. -/
theorem run_reported (l : Loader) (request : String) (action : LoadM EntryId) :
    l.run (reported request action) =
      match (l.noted [.enters request .resolving]).run action with
      | (.error e, l') => (.error e, l'.noted [.fails request e])
      | (.ok id, l') => (.ok id, l'.noted [.enters request .done]) := by
  have hnoted : l.run (report (.enters request .resolving)) = (.ok (), l.noted [.enters request .resolving]) :=
    rfl
  unfold reported
  rw [run_bind, hnoted, andThen_ok, run_bind, run_onError]
  generalize (l.noted [.enters request .resolving]).run action = r
  obtain ⟨_ | _, l'⟩ := r <;> rfl

/-! ## Parse-only passes -/

/-- The loader at the beginning or the end of a parse-only pass. -/
def withParsing (l : Loader) (parsing : Bool) : Loader :=
  { l with cache := { l.cache with parsing := parsing } }

theorem run_setParsing (l : Loader) (parsing : Bool) :
    l.run (setParsing parsing) = (.ok (), l.withParsing parsing) := rfl

/-- A discovery is a load in a parse-only pass. -/
theorem run_discover (l : Loader) (request : String) (parent : Option EntryId) :
    l.run (discover request parent) =
      let r := (l.withParsing true).run (load request parent false)
      (r.1, r.2.withParsing l.cache.parsing) := by
  unfold discover
  rw [run_bind, run_get, andThen_ok]
  dsimp only
  rw [run_bind, run_setParsing, andThen_ok, run_bind, run_onError]
  generalize (l.withParsing true).run (load request parent false) = r
  obtain ⟨_ | _, l'⟩ := r <;> rfl

end Loader
end ModGraph
