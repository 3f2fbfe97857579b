import ModGraph.Proofs.Twins

/-!
# What shows of a loader

The view of a loader (`Loader.view`) changes only where an entry is made or written to, and where the slot of a
module is marked or finished. In which partition a slot is does not show, and so neither does the move of a slot
from discovery to another one. Each lemma here says for one step on the way of a request what it does to the view.
-/

namespace ModGraph

namespace Graph

/-- Graphs with the same entries are the same. -/
theorem ext_entry {g g' : Graph} (hsize : g'.size = g.size) (h : ∀ id < g.size, g'.entry id = g.entry id) :
    g' = g := by
  obtain ⟨entries⟩ := g
  obtain ⟨entries'⟩ := g'
  simp only [size] at hsize h
  refine congrArg Graph.mk (Array.ext hsize fun id hid' hid => ?_)
  simpa [entry, hid, hid'] using h id hid

theorem update_self (g : Graph) (id : EntryId) : g.update id (fun e => e) = g := by
  refine ext_entry (size_update _ _ _) fun id' _ => ?_
  rw [entry_update]
  split <;> rfl

theorem update_update (g : Graph) (id : EntryId) (f f' : Entry → Entry) :
    (g.update id f).update id f' = g.update id fun e => f' (f e) := by
  refine ext_entry (by simp) fun id' _ => ?_
  simp only [entry_update, size_update]
  split <;> rfl

/-- How an entry is changed may depend on what it was. -/
theorem update_congr (g : Graph) (id : EntryId) {f f' : Entry → Entry} (h : f (g.entry id) = f' (g.entry id)) :
    g.update id f = g.update id f' := by
  refine ext_entry (by simp) fun id' _ => ?_
  simp only [entry_update]
  split
  · next hid => rw [← hid.1, h]
  · rfl

end Graph

namespace View

theorem update_self (v : View) (id : EntryId) : v.update id (fun e => e) = v := by
  rw [update, Graph.update_self]

/-- A slot that is there already may be put there. -/
theorem put_of_held {v : View} {ref : Ref} {s : Slot} (h : v.held ref = some s) : v.put ref s = v := by
  unfold put
  congr 1
  funext other
  split
  · next heq => rw [← heq, h]
  · rfl

theorem put_linked (v : View) (id : Option EntryId) (request : String) (child : EntryId) (ref : Ref) (s : Slot) :
    (v.linked id request child).put ref s = (v.put ref s).linked id request child := by
  cases id <;> rfl

theorem held_linked (v : View) (id : Option EntryId) (request : String) (child : EntryId) :
    (v.linked id request child).held = v.held := by
  cases id <;> rfl

@[simp] theorem size_linked (v : View) (id : Option EntryId) (request : String) (child : EntryId) :
    (v.linked id request child).graph.size = v.graph.size := by
  cases id with
  | none => rfl
  | some id => exact Graph.size_update _ _ _

end View

/-- An entry at the beginning of a compilation: with its file, and with search paths. -/
def Entry.begun (e : Entry) (r : Resolver) (filename : Path) : Entry :=
  { e with module := { e.module with
    filename := filename
    paths := if e.module.paths.isEmpty then Loader.searchPaths r e.package e.format filename else e.module.paths } }

/-- An entry at the end of a compilation. -/
def Entry.marked (e : Entry) (r : Resolver) (filename : Path) (c : Loader.Compilation) : Entry :=
  let e := if e.format ≠ c.format then e.setPaths (Loader.searchPaths r e.package e.format filename) else e
  if c.parsing then { e with parsed := true } else e.setLoaded true

/-- The marks say whether the module is loaded or parsed, and search paths may be set anew. -/
theorem Entry.marked_eq (e : Entry) (r : Resolver) (filename : Path) (c : Loader.Compilation) :
    ∃ paths, (paths = Loader.searchPaths r e.package e.format filename ∨ paths = e.module.paths) ∧
      e.marked r filename c = { e with
        parsed := c.parsing || e.parsed
        module := { e.module with paths := paths, loaded := !c.parsing || e.module.loaded } } := by
  unfold Entry.marked
  by_cases hformat : e.format ≠ c.format
  · rw [if_pos hformat]
    refine ⟨_, .inl rfl, ?_⟩
    cases c.parsing <;> rfl
  · rw [if_neg hformat]
    refine ⟨_, .inr rfl, ?_⟩
    cases c.parsing <;> rfl

namespace Loader

variable {l l' : Loader} {job : Job}

/-- The entries of a loader, and under which names its cache leads to them. -/
def view (l : Loader) : View where
  graph := l.graph
  held
    | .module key => (l.cache.slot? key).map (·.2)
    | .builtin name => (l.cache.builtins.get? name).map .ready

theorem view_congr (hg : l'.graph = l.graph)
    (hs : ∀ key, (l'.cache.slot? key).map (·.2) = (l.cache.slot? key).map (·.2))
    (hb : l'.cache.builtins = l.cache.builtins) : l'.view = l.view := by
  unfold view
  rw [hg, hb]
  congr 1
  funext ref
  cases ref with
  | module key => exact hs key
  | builtin name => rfl

theorem view_of_same (hc : l'.cache = l.cache) (hg : l'.graph = l.graph) : l'.view = l.view :=
  view_congr hg (fun _ => by rw [hc]) (by rw [hc])

theorem view_linked (l : Loader) (referrer : Option Referrer) (request : String) (child : EntryId) :
    (l.linked referrer request child).view = l.view.linked (referrer.map Referrer.id) request child := by
  cases referrer <;> rfl

theorem view_classified (hc : l.cache.Exclusive) (key : String) (fixed : Option Format) (unexposed : Bool) :
    (l.classified key fixed unexposed).2.view = l.view := by
  have hslot := slot?_classified hc key fixed unexposed
  obtain ⟨cache, events, heq, hb, -⟩ := l.classified_frame key fixed unexposed
  rw [heq] at hslot ⊢
  exact view_congr rfl hslot hb

theorem view_builtinOf {name : String} (h : l.cache.builtins.get? name = none) :
    (l.builtinOf name).2.view = (l.view.add (l.builtinEntry name)).put (.builtin name) (.ready l.graph.size) := by
  unfold builtinOf
  rw [h]
  unfold view View.put View.add
  congr 1
  funext ref
  cases ref with
  | module key =>
    rw [if_neg nofun]
    exact congrArg (Option.map _) (Cache.slot?_congr fun p => by cases p <;> rfl)
  | builtin other =>
    show ((l.cache.builtins.insert name l.graph.size).get? other).map _ = _
    rw [Table.get?_insert]
    by_cases hname : name = other
    · rw [if_pos hname, if_pos (congrArg Ref.builtin hname)]
      rfl
    · rw [if_neg hname, if_neg fun heq => hname (Ref.builtin.inj heq)]

theorem builtinOf_of_none {name : String} (hb : l.cache.builtins.get? name = none) :
    (l.builtinOf name).1 = l.graph.size ∧ (l.builtinOf name).2.graph.size = l.graph.size + 1 :=
  ⟨by simp only [Loader.builtinOf, hb], (congrArg (·.graph.size) (view_builtinOf hb)).trans (Graph.size_add _ _)⟩

/-- Where slots change, they change under one key. -/
theorem held_view {key : String} {p : Partition} {s : Slot}
    (hs : ∀ k, l'.cache.slot? k = if key = k then some (p, s) else l.cache.slot? k)
    (hb : l'.cache.builtins = l.cache.builtins) : l'.view.held = (l.view.put (.module key) s).held := by
  funext ref
  cases ref with
  | module k =>
    show (l'.cache.slot? k).map (·.2) = if Ref.module key = .module k then some s else (l.cache.slot? k).map (·.2)
    rw [hs]
    by_cases hk : key = k
    · rw [if_pos hk, if_pos (congrArg Ref.module hk)]
      rfl
    · rw [if_neg hk, if_neg fun heq => hk (Ref.module.inj heq)]
  | builtin name =>
    show (l'.cache.builtins.get? name).map .ready
      = if Ref.module key = .builtin name then some s else (l.cache.builtins.get? name).map .ready
    rw [hb, if_neg nofun]

theorem view_occupied (h : l.Ready job) (hmain : job.isMain = false) :
    (l.occupied job).view = l.view.put (.module job.target.key) (.loading job.id) := by
  have hsame : (l.occupied job).graph = l.graph ∧ (l.occupied job).cache.builtins = l.cache.builtins := by
    simp [occupied, hmain]
  exact congrArg₂ View.mk hsame.1 (held_view (h.slot?_occupied ·) hsame.2)

theorem view_begun (l : Loader) (id : EntryId) (filename : Path) :
    (l.begun id filename).view = l.view.update id (Entry.begun · l.resolver filename) := by
  refine congrArg (View.mk · l.view.held) ?_
  unfold begun
  dsimp only
  split
  · next hpaths =>
    rw [Graph.update_update]
    refine Graph.update_congr _ _ ?_
    rw [Entry.begun, if_pos hpaths]
    rfl
  · next hpaths =>
    refine Graph.update_congr _ _ ?_
    rw [Entry.begun, if_neg hpaths]

theorem view_marked (l : Loader) (id : EntryId) (filename : Path) (c : Compilation) :
    (l.marked id filename c).view = l.view.update id (Entry.marked · l.resolver filename c) := by
  refine congrArg (View.mk · l.view.held) ?_
  unfold marked
  dsimp only
  split
  · next hformat =>
    rw [Graph.update_update]
    refine Graph.update_congr _ _ ?_
    rw [Entry.marked, if_pos hformat]
  · next hformat =>
    refine Graph.update_congr _ _ ?_
    rw [Entry.marked, if_neg hformat]

theorem entry_marked_self (l : Loader) {id : EntryId} (filename : Path) (c : Compilation) (h : id < l.graph.size) :
    (l.marked id filename c).graph.entry id = (l.graph.entry id).marked l.resolver filename c :=
  (congrArg (·.graph.entry id) (view_marked l id filename c)).trans (Graph.entry_update_self _ _ h)

/-! ### Looking for a module -/

variable {key : String} {s : Slot} {id : EntryId} {target : Target}

theorem slot?_of_held (h : l.view.held (.module key) = some s) : ∃ p, l.cache.slot? key = some (p, s) := by
  obtain ⟨⟨p, s'⟩, hslot, rfl⟩ := Option.map_eq_some_iff.mp h
  exact ⟨p, hslot⟩

theorem held_of_slot? {p : Partition} (h : l.cache.slot? key = some (p, s)) : l.view.held (.module key) = some s :=
  congrArg (Option.map Prod.snd) h

theorem held_builtin {name : String} :
    l.view.held (.builtin name) = some s ↔ ∃ id, l.cache.builtins.get? name = some id ∧ s = .ready id :=
  ⟨fun h => (Option.map_eq_some_iff.mp h).imp fun _ h => ⟨h.1, h.2.symm⟩,
    fun ⟨_, hb, hs⟩ => hs ▸ congrArg (Option.map Slot.ready) hb⟩

theorem builtins_of_held {name : String} (h : l.view.held (.builtin name) = some (.ready id)) :
    l.cache.builtins.get? name = some id := by
  obtain ⟨_, hb, heq⟩ := held_builtin.mp h
  cases heq
  exact hb

theorem result_classified_of_hit (h : l.view.held (.module key) = some s)
    (hs : s = .loading id ∨ s = .ready id ∧ ((l.graph.entry id).isLoaded = true ∨ l.cache.parsing = true))
    (fixed : Option Format) (unexposed : Bool) : (l.classified key fixed unexposed).1 = .ok (.hit id) := by
  obtain ⟨p, hslot⟩ := slot?_of_held h
  unfold classified
  rw [hslot]
  rcases hs with rfl | ⟨rfl, hl⟩
  · rfl
  · dsimp only
    split
    · rfl
    · next hp => rw [if_pos (hl.resolve_right hp)]

theorem result_classified_of_ready (h : l.view.held (.module key) = some (.ready id))
    (hl : (l.graph.entry id).isLoaded = false) (hp : l.cache.parsing = false) (fixed : Option Format)
    (unexposed : Bool) : ∃ p, (l.classified key fixed unexposed).1 = .ok (.evaluate p id) := by
  obtain ⟨p, hslot⟩ := slot?_of_held h
  unfold classified
  rw [hslot]
  simp only [hp, hl, Bool.false_eq_true, if_false]
  exact ⟨_, rfl⟩

/-- A module that is in progress, that is loaded, or that a parse-only pass asks for, is found. -/
theorem met_of_hit (hc : l.cache.Exclusive) (h : l.view.held (.module target.key) = some s)
    (hs : s = .loading id ∨ s = .ready id ∧ ((l.graph.entry id).isLoaded = true ∨ l.cache.parsing = true))
    (request : String) (referrer : Option Referrer) (isMain : Bool) :
    ∃ l₁, l.met request referrer isMain target = (.ok (.found id), l₁) ∧
      l₁.view = l.view.linked (referrer.map Referrer.id) request id := by
  have hview := view_classified (l := l.noted [.enters target.key .classifying]) hc target.key target.fixed
    target.package.isUnexposed
  have hhit := result_classified_of_hit (l := l.noted [.enters target.key .classifying]) h hs target.fixed
    target.package.isUnexposed
  unfold met
  generalize (l.noted [.enters target.key .classifying]).classified target.key target.fixed
    target.package.isUnexposed = r at hview hhit
  obtain ⟨result, l₂⟩ := r
  obtain rfl : result = .ok (.hit id) := hhit
  refine ⟨_, rfl, ?_⟩
  rw [view_linked]
  exact congrArg (View.linked · _ _ _) hview

/-- A module that was only parsed is to be evaluated. -/
theorem met_of_ready (hc : l.cache.Exclusive) (h : l.view.held (.module target.key) = some (.ready id))
    (hl : (l.graph.entry id).isLoaded = false) (hp : l.cache.parsing = false) (request : String)
    (referrer : Option Referrer) (isMain : Bool) :
    ∃ p l₁, l.met request referrer isMain target = (.ok (.needs ⟨request, referrer, isMain, target, p, id⟩), l₁) ∧
      l₁.view = l.view := by
  have hview := view_classified (l := l.noted [.enters target.key .classifying]) hc target.key target.fixed
    target.package.isUnexposed
  obtain ⟨p, hready⟩ := result_classified_of_ready (l := l.noted [.enters target.key .classifying]) h hl hp
    target.fixed target.package.isUnexposed
  unfold met
  generalize (l.noted [.enters target.key .classifying]).classified target.key target.fixed
    target.package.isUnexposed = r at hview hready
  obtain ⟨result, l₂⟩ := r
  obtain rfl : result = .ok (.evaluate p id) := hready
  exact ⟨p, l₂, rfl, hview⟩

/-- A module without a slot gets an entry. -/
theorem met_of_missing (h : l.view.held (.module target.key) = none) (request : String)
    (referrer : Option Referrer) (isMain : Bool) :
    ∃ p l₁, l.met request referrer isMain target
        = (.ok (.needs ⟨request, referrer, isMain, target, p, l.graph.size⟩), l₁) ∧
      l₁.view = l.view.add (newEntry referrer target) := by
  have hslot : (l.noted [.enters target.key .classifying]).cache.slot? target.key = none :=
    Option.map_eq_none_iff.mp h
  unfold met classified
  rw [hslot]
  exact ⟨_, _, rfl, rfl⟩

/-! ### Compiling a module -/

/-- A module takes its place: it is linked, it is ready, and it may lose its parent. -/
theorem view_concluded (ho : l.Orderly) (h : l.InProgress job.target.key job.partition job.id) :
    (l.concluded job).view =
      let v := (l.view.linked (job.referrer.map Referrer.id) job.request job.id).put (.module job.target.key)
        (.ready job.id)
      if l.cache.parsing = false ∧ severs job.referrer (l.graph.entry job.id).format = true then
        v.update job.id fun e => { e with parent := none }
      else v := by
  have hheld := held_view (slot?_concluded ho h).2 (builtins_concluded l job)
  have hgraph : (l.concluded job).view.graph = _ := graph_concluded l job
  have hlinked : (l.linked job.referrer job.request job.id).graph
      = (l.view.linked (job.referrer.map Referrer.id) job.request job.id).graph :=
    congrArg View.graph (l.view_linked job.referrer job.request job.id)
  have hkept : (l.view.linked (job.referrer.map Referrer.id) job.request job.id).held = l.view.held := by
    cases job.referrer <;> rfl
  refine (congrArg₂ View.mk hgraph hheld).trans ?_
  rw [hlinked]
  dsimp only [View.put, View.update]
  rw [hkept]
  split <;> rfl

end Loader
end ModGraph
