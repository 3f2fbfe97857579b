import ModGraph.Proofs.Demands
import ModGraph.Proofs.ParsedFirst

/-!
# Edges

While modules are in progress the graph is unfinished: a module that asks gets its edges one after the other, and in
a circle an edge leads to a module that is in progress itself. What holds all the time is that each edge leads where
the request of the file does, that ready modules have all their edges, and that the edges of a loaded module lead to
modules that are loaded or in progress (`View.Woven`). It is kept by a request that is answered from the cache
(`Loader.weaves_of_found`).
-/

namespace ModGraph

open Loader (Job)
open Relation (ReflTransGen)
open Source (Program)

/-- Under what the cache keeps what a request was resolved to. -/
def Resolution.ref (request : String) : Resolution → Ref
  | .builtin name => .builtin name
  | .file path => .module (cacheKey path (splitQuery request).2)

namespace View

variable {w : World} {parsing : Bool} {v v' v'' : View} {key request : String} {id child : EntryId} {ref : Ref}
  {file : Path}

/-- The cache leads to an entry. -/
def Leads (v : View) (ref : Ref) (id : EntryId) : Prop := ∃ s, v.held ref = some s ∧ s.entry? = some id

/-- An entry is loaded, or its module is in progress. -/
def Backed (v : View) (id : EntryId) : Prop :=
  (v.graph.entry id).isLoaded = true ∨ ∃ key, v.held (.module key) = some (.loading id)

/-- An edge is as it should be: a file asks for the request, and the cache leads to the child under what the request
stands for. -/
def Justifies (w : World) (v : View) (file : Path) (request : String) (child : EntryId) : Prop :=
  ∃ format p found, w.body file = .ok (.program format p) ∧ request ∈ p.requests ∧
    w.resolve file format request = .ok found ∧ v.Leads (found.ref request) child

/-- How far the graph is while modules are in progress. -/
structure Woven (w : World) (parsing : Bool) (v : View) : Prop where
  inRange : ∀ {ref s id}, v.held ref = some s → s.entry? = some id → id < v.graph.size
  edge : ∀ {key s id request child}, v.held (.module key) = some s → s.entry? = some id →
    (v.graph.entry id).children.get? request = some child → Justifies w v (keyFile key) request child
  /-- A module that is ready has all its edges. -/
  full : ∀ {key id}, v.held (.module key) = some (.ready id) → ∃ body, w.body (keyFile key) = .ok body ∧
    ∀ request ∈ body.requests, ((v.graph.entry id).children.get? request).isSome = true
  /-- The edges of a loaded module lead to modules that are loaded, or in progress outside of a parse-only pass. -/
  firm : ∀ {key id request child}, v.held (.module key) = some (.ready id) → (v.graph.entry id).isLoaded = true →
    (v.graph.entry id).children.get? request = some child →
      (v.graph.entry child).isLoaded = true ∨ parsing = false ∧ ∃ k, v.held (.module k) = some (.loading child)
  /-- Builtin modules are loaded and ask for nothing. -/
  leaf : ∀ {name id}, v.held (.builtin name) = some (.ready id) →
    (v.graph.entry id).isLoaded = true ∧ ∀ request, (v.graph.entry id).children.get? request = none

/-- The cache leads wherever it led before, and no edge is lost. -/
structure Grows (v v' : View) : Prop where
  size : v.graph.size ≤ v'.graph.size
  leads : ∀ {ref id}, v.Leads ref id → v'.Leads ref id
  edge : ∀ {id request}, id < v.graph.size → ((v.graph.entry id).children.get? request).isSome = true →
    ((v'.graph.entry id).children.get? request).isSome = true

theorem held_put_self (v : View) (ref : Ref) (s : Slot) : (v.put ref s).held ref = some s := if_pos rfl

theorem held_put_of_ne (v : View) {k : String} (h : key ≠ k) (s : Slot) :
    (v.put (.module key) s).held (.module k) = v.held (.module k) :=
  if_neg fun heq => h (Ref.module.inj heq)

/-- An entry is written to, but neither its edges change nor whether it is loaded. -/
theorem entry_update (v : View) (id : EntryId) {f : Entry → Entry}
    (hf : ∀ e : Entry, (f e).children = e.children ∧ (f e).isLoaded = e.isLoaded) (id' : EntryId) :
    ((v.update id f).graph.entry id').children = (v.graph.entry id').children ∧
      ((v.update id f).graph.entry id').isLoaded = (v.graph.entry id').isLoaded := by
  show ((v.graph.update id f).entry id').children = _ ∧ ((v.graph.update id f).entry id').isLoaded = _
  rw [Graph.entry_update]
  split
  · exact hf _
  · exact ⟨rfl, rfl⟩

/-- An edge does not say whether a module is loaded. -/
theorem isLoaded_linked (v : View) (parent : Option EntryId) (request : String) (child id : EntryId) :
    ((v.linked parent request child).graph.entry id).isLoaded = (v.graph.entry id).isLoaded := by
  cases parent with
  | none => rfl
  | some x =>
    show ((v.graph.update x _).entry id).isLoaded = _
    rw [Graph.entry_update]
    split <;> rfl

theorem Leads.unique (h : v.Leads ref id) (h' : v.Leads ref child) : id = child := by
  obtain ⟨s, hs, hid⟩ := h
  obtain ⟨s', hs', hchild⟩ := h'
  cases hs.symm.trans hs'
  exact Option.some.inj (hid.symm.trans hchild)

/-- An edge stays as it should be while the cache leads wherever it led. -/
theorem Justifies.mono (h : Justifies w v file request child)
    (hleads : ∀ {ref id}, v.Leads ref id → v'.Leads ref id) : Justifies w v' file request child := by
  obtain ⟨format, p, found, hbody, hmem, hresolve, hl⟩ := h
  exact ⟨format, p, found, hbody, hmem, hresolve, hleads hl⟩

/-- A file's request leads to one entry only. -/
theorem Justifies.unique (h : Justifies w v file request id) (h' : Justifies w v file request child) :
    id = child := by
  obtain ⟨format, p, found, hbody, -, hresolve, hl⟩ := h
  obtain ⟨format', p', found', hbody', -, hresolve', hl'⟩ := h'
  cases hbody.symm.trans hbody'
  cases hresolve.symm.trans hresolve'
  exact hl.unique hl'

namespace Grows

theorem refl (v : View) : Grows v v := ⟨Nat.le_refl _, id, fun _ h => h⟩

theorem trans (h : Grows v v') (h' : Grows v' v'') : Grows v v'' where
  size := Nat.le_trans h.size h'.size
  leads hl := h'.leads (h.leads hl)
  edge hid he := h'.edge (Nat.lt_of_lt_of_le hid h.size) (h.edge hid he)

theorem of_held (hheld : v'.held = v.held) (hsize : v.graph.size ≤ v'.graph.size)
    (hchildren : ∀ {id}, id < v.graph.size → (v'.graph.entry id).children = (v.graph.entry id).children) :
    Grows v v' where
  size := hsize
  leads := by
    rintro ref id ⟨s, hs, hid⟩
    exact ⟨s, hheld ▸ hs, hid⟩
  edge hid he := by rwa [hchildren hid]

theorem linked (v : View) (id : Option EntryId) (request : String) (child : EntryId) :
    Grows v (v.linked id request child) := by
  cases id with
  | none => exact refl v
  | some id =>
    refine ⟨Nat.le_of_eq (Graph.size_update _ _ _).symm, fun h => h, fun {id' request'} _ he => ?_⟩
    show (((v.graph.update id _).entry id').children.get? request').isSome = true
    rw [Graph.entry_update]
    split
    · show ((Table.insert _ _ _).get? request').isSome = true
      rw [Table.get?_insert]
      split
      · rfl
      · exact he
    · exact he

/-- A slot may be put where none was, or in place of one with the same entry. -/
theorem put {s : Slot} (h : ∀ s' id, v.held ref = some s' → s'.entry? = some id → s.entry? = some id) :
    Grows v (v.put ref s) where
  size := Nat.le_refl _
  leads := by
    rintro other id ⟨s', hs', hid⟩
    by_cases heq : ref = other
    · subst heq
      exact ⟨s, if_pos rfl, h s' id hs' hid⟩
    · exact ⟨s', (if_neg heq).trans hs', hid⟩
  edge _ he := he

end Grows

namespace Woven

/-- Only what is in the cache matters, and the edges of what it leads to; what is not ready may become loaded. -/
theorem of_held (h : v.Woven w parsing) (hheld : v'.held = v.held) (hsize : v.graph.size ≤ v'.graph.size)
    (hchildren : ∀ {id}, id < v.graph.size → (v'.graph.entry id).children = (v.graph.entry id).children)
    (hloaded : ∀ {id}, (v.graph.entry id).isLoaded = true → (v'.graph.entry id).isLoaded = true)
    (hready : ∀ {ref id}, v.held ref = some (.ready id) → (v'.graph.entry id).isLoaded = true →
      (v.graph.entry id).isLoaded = true) : v'.Woven w parsing where
  inRange hs hid := Nat.lt_of_lt_of_le (h.inRange (hheld ▸ hs) hid) hsize
  edge hs hid he := by
    rw [hheld] at hs
    rw [hchildren (h.inRange hs hid)] at he
    exact (h.edge hs hid he).mono (Grows.of_held hheld hsize hchildren).leads
  full hs := by
    rw [hheld] at hs
    rw [hchildren (h.inRange hs rfl)]
    exact h.full hs
  firm hs hl he := by
    rw [hheld] at hs ⊢
    rw [hchildren (h.inRange hs rfl)] at he
    exact (h.firm hs (hready hs hl) he).imp_left hloaded
  leaf hs := by
    rw [hheld] at hs
    obtain ⟨hl, hnone⟩ := h.leaf hs
    exact ⟨hloaded hl, fun request => by rw [hchildren (h.inRange hs rfl)]; exact hnone request⟩

theorem update (h : v.Woven w parsing) (id : EntryId) {f : Entry → Entry}
    (hf : ∀ e : Entry, (f e).children = e.children ∧ (f e).isLoaded = e.isLoaded) :
    Grows v (v.update id f) ∧ (v.update id f).Woven w parsing := by
  have hentry := fun id' => v.entry_update id hf id'
  have hsize : v.graph.size ≤ (v.update id f).graph.size := Nat.le_of_eq (Graph.size_update _ _ _).symm
  exact ⟨.of_held rfl hsize fun _ => (hentry _).1, h.of_held rfl hsize (fun _ => (hentry _).1)
    (fun hl => (hentry _).2.trans hl) fun _ hl => (hentry _).2.symm.trans hl⟩

theorem add (h : v.Woven w parsing) (e : Entry) : Grows v (v.add e) ∧ (v.add e).Woven w parsing := by
  have hentry : ∀ {id}, id < v.graph.size → (v.add e).graph.entry id = v.graph.entry id := fun hid =>
    Graph.entry_add_of_lt _ _ hid
  have hsize : v.graph.size ≤ (v.add e).graph.size := by
    show v.graph.size ≤ (v.graph.add e).1.size
    simp
  have hchildren : ∀ {id}, id < v.graph.size → ((v.add e).graph.entry id).children = (v.graph.entry id).children :=
    fun hid => congrArg Entry.children (hentry hid)
  refine ⟨.of_held rfl hsize hchildren, h.of_held rfl hsize hchildren (fun hl => ?_) fun hs hl => ?_⟩
  · rwa [hentry (Loader.lt_size_of_isLoaded hl)]
  · rwa [hentry (h.inRange hs rfl)] at hl

/-- A module in progress gets an edge. -/
theorem linked (h : v.Woven w parsing) {parent : Option EntryId}
    (hunloaded : ∀ x ∈ parent, (v.graph.entry x).isLoaded = false)
    (hedge : ∀ x ∈ parent, ∀ key s, v.held (.module key) = some s → s.entry? = some x →
      Justifies w v (keyFile key) request child) : (v.linked parent request child).Woven w parsing := by
  cases parent with
  | none => exact h
  | some x =>
    -- only the entry that asks changes, and only in its edges
    have hentry : ∀ id, (v.linked (some x) request child).graph.entry id = v.graph.entry id ∨
        id = x ∧ (v.linked (some x) request child).graph.entry id = (v.graph.entry id).addChild request child := by
      intro id
      show (v.graph.update x _).entry id = _ ∨ id = x ∧ (v.graph.update x _).entry id = _
      rw [Graph.entry_update]
      split
      · next hx => exact .inr ⟨hx.1.symm, rfl⟩
      · exact .inl rfl
    have hsame : ∀ {id}, (v.graph.entry id).isLoaded = true →
        (v.linked (some x) request child).graph.entry id = v.graph.entry id := by
      intro id hl
      refine (hentry id).resolve_right ?_
      rintro ⟨rfl, -⟩
      rw [hunloaded id rfl] at hl
      cases hl
    have hgrows := Grows.linked v (some x) request child
    refine ⟨fun hs hid => Nat.lt_of_lt_of_le (h.inRange hs hid) hgrows.size, ?_, fun hs => ?_, ?_, fun hs => ?_⟩
    · intro key s id request' child' hs hid he
      refine Justifies.mono (v := v) ?_ hgrows.leads
      rcases hentry id with heq | ⟨rfl, heq⟩
      · rw [heq] at he
        exact h.edge hs hid he
      · rw [heq] at he
        change (Table.insert _ _ _).get? request' = some child' at he
        rw [Table.get?_insert] at he
        split at he
        · next hrequest =>
          cases he
          exact hrequest ▸ hedge id rfl key s hs hid
        · exact h.edge hs hid he
    · obtain ⟨body, hbody, hall⟩ := h.full hs
      exact ⟨body, hbody, fun request hmem => hgrows.edge (h.inRange hs rfl) (hall request hmem)⟩
    · intro key id request' child' hs hl he
      rw [isLoaded_linked] at hl
      rw [hsame hl] at he
      rw [isLoaded_linked]
      exact h.firm hs hl he
    · obtain ⟨hl, hnone⟩ := h.leaf hs
      rw [hsame hl]
      exact ⟨hl, hnone⟩

/-- A slot is put where the cache led to the same entry or nowhere, and what is there has its edges. -/
theorem put (h : v.Woven w parsing) {s : Slot} (hid : id < v.graph.size)
    (hgrows : Grows v (v.put ref s)) (hs : ∀ id', s.entry? = some id' → id' = id)
    (hedge : ∀ {key request child}, ref = .module key →
      (v.graph.entry id).children.get? request = some child → Justifies w v (keyFile key) request child)
    (hfull : ∀ {key}, ref = .module key → s = .ready id → ∃ body, w.body (keyFile key) = .ok body ∧
      ∀ request ∈ body.requests, ((v.graph.entry id).children.get? request).isSome = true)
    (hfirm : ∀ {key id' request child}, (v.put ref s).held (.module key) = some (.ready id') →
      (v.graph.entry id').isLoaded = true → (v.graph.entry id').children.get? request = some child →
        (v.graph.entry child).isLoaded = true ∨
          parsing = false ∧ ∃ k, (v.put ref s).held (.module k) = some (.loading child))
    (hleaf : ∀ {name}, ref = .builtin name → (v.graph.entry id).isLoaded = true ∧
      ∀ request, (v.graph.entry id).children.get? request = none) : (v.put ref s).Woven w parsing where
  inRange {other s' id'} hs' hid' := by
    rcases of_held_put hs' with ⟨-, rfl⟩ | hs'
    · exact hs id' hid' ▸ hid
    · exact h.inRange hs' hid'
  edge {key s' id' request' child'} hs' hid' he := by
    -- the cache leads wherever it led, so what was justified still is
    refine Justifies.mono (v := v) ?_ hgrows.leads
    rcases of_held_put hs' with ⟨heq, rfl⟩ | hs'
    · obtain rfl := hs id' hid'
      exact hedge heq he
    · exact h.edge hs' hid' he
  full {key id'} hs' := by
    rcases of_held_put hs' with ⟨heq, rfl⟩ | hs'
    · obtain rfl := hs id' rfl
      exact hfull heq rfl
    · exact h.full hs'
  firm := hfirm
  leaf {name id'} hs' := by
    rcases of_held_put hs' with ⟨heq, rfl⟩ | hs'
    · obtain rfl := hs id' rfl
      exact hleaf heq
    · exact h.leaf hs'

/-- The slot of a builtin module is made. -/
theorem provide (h : v.Woven w parsing) {name : String} (hnone : v.held (.builtin name) = none)
    (hid : id < v.graph.size) (hl : (v.graph.entry id).isLoaded = true)
    (hc : ∀ request, (v.graph.entry id).children.get? request = none) :
    (v.put (.builtin name) (.ready id)).Woven w parsing := by
  refine h.put hid (.put fun s' _ hs' => ?_) (fun _ hid' => (Option.some.inj hid').symm) nofun nofun ?_
    fun _ => ⟨hl, hc⟩
  · rw [hnone] at hs'
    cases hs'
  · exact fun hs' hl' he => h.firm hs' hl' he

/-- The slot of a module is marked. -/
theorem mark (h : v.Woven w parsing) (hid : id < v.graph.size) (hslot : v.held (.module key) = some (.ready id) ∨
    v.held (.module key) = none ∧ ∀ request, (v.graph.entry id).children.get? request = none) :
    Grows v (v.put (.module key) (.loading id)) ∧ (v.put (.module key) (.loading id)).Woven w parsing := by
  have hgrows : Grows v (v.put (.module key) (.loading id)) := by
    refine .put fun s' id' hs' hid' => ?_
    rcases hslot with hready | ⟨hnone, -⟩
    · cases hready.symm.trans hs'
      exact hid'
    · rw [hnone] at hs'
      cases hs'
  refine ⟨hgrows, h.put hid hgrows (fun _ hid' => (Option.some.inj hid').symm) ?_ nofun ?_ nofun⟩
  · rintro k request child hk he
    cases hk
    -- a module that was parsed keeps the edges that it got then
    rcases hslot with hready | ⟨-, hnone⟩
    · exact h.edge hready rfl he
    · rw [hnone] at he
      cases he
  · intro k id' request child hs' hl he
    have hne : key ≠ k := by
      rintro rfl
      cases hs'.symm.trans (held_put_self v _ _)
    rw [held_put_of_ne v hne] at hs'
    -- the slot that is marked was not marked before, so what was in progress still is
    refine (h.firm hs' hl he).imp_right fun ⟨hp, k', hk'⟩ => ⟨hp, k', ?_⟩
    have hne' : key ≠ k' := by
      rintro rfl
      rcases hslot with hready | ⟨hnone, -⟩
      · cases hready.symm.trans hk'
      · cases hnone.symm.trans hk'
    exact (held_put_of_ne v hne' _).trans hk'

/-- A module that made all requests of its file becomes ready. -/
theorem finish (h : v.Woven w parsing) (hslot : v.held (.module key) = some (.loading id)) {body : Body}
    (hbody : w.body (keyFile key) = .ok body)
    (hfull : ∀ request ∈ body.requests, ((v.graph.entry id).children.get? request).isSome = true)
    (hloaded : (v.graph.entry id).isLoaded = !parsing)
    (hfirm : parsing = false → ∀ {request child}, (v.graph.entry id).children.get? request = some child →
      v.Backed child) :
    Grows v (v.put (.module key) (.ready id)) ∧ (v.put (.module key) (.ready id)).Woven w parsing := by
  have hgrows : Grows v (v.put (.module key) (.ready id)) := by
    refine .put fun s' id' hs' hid' => ?_
    cases hslot.symm.trans hs'
    exact hid'
  refine ⟨hgrows, h.put (h.inRange hslot rfl) hgrows (fun _ hid' => (Option.some.inj hid').symm) ?_ ?_ ?_ nofun⟩
  · rintro k request child hk he
    cases hk
    exact h.edge hslot rfl he
  · rintro k hk -
    cases hk
    exact ⟨body, hbody, hfull⟩
  · intro k id' request child hs' hl he
    -- what was in progress still is, unless it is the module itself
    have hbusy : parsing = false → (∃ k, v.held (.module k) = some (.loading child)) →
        (v.graph.entry child).isLoaded = true ∨
          parsing = false ∧ ∃ k, (v.put (.module key) (.ready id)).held (.module k) = some (.loading child) := by
      rintro hp ⟨k', hk'⟩
      by_cases heq : key = k'
      · subst heq
        cases hslot.symm.trans hk'
        exact .inl (hloaded.trans (by rw [hp]; rfl))
      · exact .inr ⟨hp, k', (held_put_of_ne v heq _).trans hk'⟩
    by_cases heq : key = k
    · subst heq
      cases hs'.symm.trans (held_put_self v _ _)
      have hp : parsing = false := by simpa using hloaded.symm.trans hl
      exact (hfirm hp he).elim .inl (hbusy hp)
    · rw [held_put_of_ne v heq] at hs'
      exact (h.firm hs' hl he).elim .inl fun ⟨hp, hk⟩ => hbusy hp hk

end Woven

/-- What a request comes to that is answered. -/
structure Weaves (w : World) (parsing : Bool) (v : View) (request : String) (parent : Option EntryId)
    (child : EntryId) (v' : View) : Prop where
  woven : v'.Woven w parsing
  grows : v.Grows v'
  edge : ∀ x ∈ parent, (v'.graph.entry x).children.get? request = some child
  leads : ∃ ref, v'.Leads ref child
  backed : parsing = false → v'.Backed child

/-- What does not matter for the graph may change afterwards. -/
theorem Weaves.update {parent : Option EntryId} (h : Weaves w parsing v request parent child v') (id : EntryId)
    {f : Entry → Entry} (hf : ∀ e : Entry, (f e).children = e.children ∧ (f e).isLoaded = e.isLoaded) :
    Weaves w parsing v request parent child (v'.update id f) := by
  obtain ⟨hgrows, hwoven⟩ := h.woven.update id hf
  have hentry := fun x => v'.entry_update id hf x
  exact ⟨hwoven, h.grows.trans hgrows, fun x hx => by rw [(hentry x).1]; exact h.edge x hx,
    h.leads.imp fun _ => hgrows.leads, fun hp => (h.backed hp).imp_left ((hentry child).2.trans ·)⟩

end View
namespace Loader

variable {w : World} {parsing isMain : Bool} {l l' l₁ l₂ : Loader} {job : Job} {limit : Nat} {request : String}
  {parent : Option EntryId} {child : EntryId} {found : Resolution} {v : View}

/-! ## Answers -/

/-- Who asks is in progress, its file asks for the request, and what the request finds is what it stands for. -/
def Rightful (w : World) (l : Loader) (request : String) (parent : Option EntryId) (isMain : Bool) : Prop :=
  ∀ x ∈ parent, (∃ key p, l.InProgress key p x) ∧ ∀ key p, l.InProgress key p x → ∃ format prog,
    w.body (keyFile key) = .ok (.program format prog) ∧ request ∈ prog.requests ∧
      ∀ found, l.resolved request parent isMain = .ok found → w.resolve (keyFile key) format request = .ok found

/-- Who asks is not loaded, and has no slot but that in which it is in progress. -/
def Apart (l : Loader) (parent : Option EntryId) (v : View) : Prop :=
  ∀ x ∈ parent, (v.graph.entry x).isLoaded = false ∧
    ∀ key s, v.held (.module key) = some s → s.entry? = some x → ∃ p, l.InProgress key p x

theorem Consistent.apart (hc : l'.Consistent) (hprogress : ∀ key p id, l'.InProgress key p id ↔ l.InProgress key p id)
    (hr : l.Rightful w request parent isMain) : l.Apart parent l'.view := by
  intro x hx
  obtain ⟨⟨key, p, hin⟩, -⟩ := hr x hx
  have hin' := (hprogress _ _ _).mpr hin
  refine ⟨hc.unfinished hin', fun k s hs hid => ?_⟩
  obtain ⟨q, hslot⟩ := slot?_of_held hs
  obtain rfl : k = key := (hc.keyed hslot hid).2.symm.trans (hc.keyed hin' rfl).2
  exact ⟨p, hin⟩

theorem Apart.congr {v' : View} (h : l.Apart parent v) (hheld : v'.held = v.held)
    (hloaded : ∀ id, (v'.graph.entry id).isLoaded = (v.graph.entry id).isLoaded) : l.Apart parent v' := fun x hx =>
  ⟨(hloaded x).trans (h x hx).1, fun key s hs => (h x hx).2 key s (hheld ▸ hs)⟩

/-- The edge is recorded at last. -/
theorem weaves_of_linked (hw : v.Woven w parsing) (hgrows : l.view.Grows v) (ha : l.Apart parent v)
    (hr : l.Rightful w request parent isMain) (hx : ∀ x ∈ parent, x < v.graph.size)
    (hfound : l.resolved request parent isMain = .ok found) (hleads : v.Leads (found.ref request) child)
    (hbacked : parsing = false → v.Backed child) :
    View.Weaves w parsing l.view request parent child (v.linked parent request child) := by
  have hlinked : (v.linked parent request child).Woven w parsing := by
    refine hw.linked (fun x hx => (ha x hx).1) fun x hx key s hs hid => ?_
    obtain ⟨p, hin⟩ := (ha x hx).2 key s hs hid
    obtain ⟨format, prog, hbody, hmem, hresolve⟩ := (hr x hx).2 key p hin
    exact ⟨format, prog, found, hbody, hmem, hresolve found hfound, hleads⟩
  have hmore := View.Grows.linked v parent request child
  refine ⟨hlinked, hgrows.trans hmore, ?_, ⟨_, hmore.leads hleads⟩, fun hp => ?_⟩
  · rintro x hparent
    obtain rfl := Option.mem_def.mp hparent
    show ((v.graph.update x _).entry x).children.get? request = some child
    rw [Graph.entry_update_self _ _ (hx x rfl)]
    exact Table.get?_insert_self _ _ _
  · have hheld := v.held_linked parent request child
    exact (hbacked hp).imp ((View.isLoaded_linked v _ _ _ _).trans ·) fun hk => hheld ▸ hk

/-! ## Seeking -/

theorem map_id_referrer? (l : Loader) (parent : Option EntryId) : (l.referrer? parent).map Referrer.id = parent := by
  cases parent <;> rfl

/-- A builtin module is found. -/
theorem weaves_of_builtin (hc : l.Consistent) (hw : l.view.Woven w parsing)
    (hr : l.Rightful w request parent isMain) {name : String}
    (hfound : l.resolved request parent isMain = .ok (.builtin name)) :
    View.Weaves w parsing l.view request parent (l.builtinOf name).1
      ((l.builtinOf name).2.view.linked parent request (l.builtinOf name).1) := by
  have ha := hc.apart (fun _ _ _ => .rfl) hr
  have hx : ∀ x ∈ parent, x < l.view.graph.size := fun x hx => by
    obtain ⟨⟨key, p, hin⟩, -⟩ := hr x hx
    exact (hc.keyed hin rfl).1
  cases hb : l.cache.builtins.get? name with
  | some id =>
    have hsame : l.builtinOf name = (id, l) := by
      unfold builtinOf
      rw [hb]
    rw [hsame]
    have hheld : l.view.held (.builtin name) = some (.ready id) := held_builtin.mpr ⟨id, hb, rfl⟩
    exact weaves_of_linked hw (.refl _) ha hr hx hfound ⟨_, hheld, rfl⟩ fun _ => .inl (hw.leaf hheld).1
  | none =>
    -- the entry is made, then its slot, and neither is of a module in progress
    have hnone : l.view.held (.builtin name) = none := congrArg (Option.map Slot.ready) hb
    have hid : (l.builtinOf name).1 = l.graph.size := by
      unfold builtinOf
      rw [hb]
    obtain ⟨hadd, hadded⟩ := hw.add (l.builtinEntry name)
    have hentry : (l.view.add (l.builtinEntry name)).graph.entry l.graph.size = l.builtinEntry name :=
      Graph.entry_add_self _ _
    have hsize : l.graph.size < (l.view.add (l.builtinEntry name)).graph.size := by
      show l.graph.size < (l.graph.add _).1.size
      simp
    have hprovided := hadded.provide hnone hsize (by rw [hentry]; rfl) (by rw [hentry]; exact fun _ => rfl)
    have hput : View.Grows (l.view.add (l.builtinEntry name))
        ((l.view.add (l.builtinEntry name)).put (.builtin name) (.ready l.graph.size)) := by
      refine .put fun s' _ hs' => ?_
      cases hnone.symm.trans hs'
    rw [view_builtinOf hb, hid]
    have hold : ∀ {id}, id < l.graph.size → (l.view.add (l.builtinEntry name)).graph.entry id = l.graph.entry id :=
      fun hlt => Graph.entry_add_of_lt _ _ hlt
    refine weaves_of_linked hprovided (hadd.trans hput) (fun x hparent => ?_) hr
      (fun x hparent => Nat.lt_trans (hx x hparent) hsize) hfound ⟨_, View.held_put_self _ _ _, rfl⟩ fun _ => .inl ?_
    · obtain ⟨hunloaded, honly⟩ := ha x hparent
      exact ⟨(congrArg Entry.isLoaded (hold (hx x hparent))).trans hunloaded, fun key s hs => honly key s hs⟩
    · exact (congrArg Entry.isLoaded hentry).trans rfl

/-- A module is found in its slot. -/
theorem weaves_of_hit (hc : l.Consistent) (hparsing : l.cache.parsing = parsing) (hw : l.view.Woven w parsing)
    (hr : l.Rightful w request parent isMain) {file : Path}
    (hfound : l.resolved request parent isMain = .ok (.file file)) {s : Slot}
    (hs : l.view.held (.module (cacheKey file (splitQuery request).2)) = some s)
    (hused : s = .loading child ∨ s = .ready child ∧ ((l.graph.entry child).isLoaded = true ∨ l.cache.parsing = true)) :
    View.Weaves w parsing l.view request parent child (l.view.linked parent request child) := by
  have hx : ∀ x ∈ parent, x < l.view.graph.size := fun x hx => by
    obtain ⟨⟨key, p, hin⟩, -⟩ := hr x hx
    exact (hc.keyed hin rfl).1
  have hentry : s.entry? = some child := by
    rcases hused with rfl | ⟨rfl, -⟩ <;> rfl
  refine weaves_of_linked hw (.refl _) (hc.apart (fun _ _ _ => .rfl) hr) hr hx hfound ⟨s, hs, hentry⟩ fun hp => ?_
  rcases hused with rfl | ⟨-, hl | hl⟩
  · exact .inr ⟨_, hs⟩
  · exact .inl hl
  · rw [hparsing, hp] at hl
    cases hl

/-- A slot that is used as it is holds a module that is in progress, that is loaded, or that a parse-only pass asks
for. -/
theorem held_of_hit {key : String} {fixed : Option Format} {unexposed : Bool}
    (h : (l.classified key fixed unexposed).1 = .ok (.hit child)) :
    ∃ s, l.view.held (.module key) = some s ∧
      (s = .loading child ∨ s = .ready child ∧ ((l.graph.entry child).isLoaded = true ∨ l.cache.parsing = true)) := by
  obtain ⟨p, s, hslot, hused⟩ := slot_of_hit h
  exact ⟨s, held_of_slot? hslot, hused⟩

/-- What is found is linked. -/
theorem weaves_of_found (he : l.Engaged w parsing) (hw : l.view.Woven w parsing)
    (hr : l.Rightful w request parent isMain)
    (hseek : l.run (seek request parent isMain) = (.ok (.found child), l')) :
    View.Weaves w parsing l.view request parent child l'.view := by
  obtain ⟨name, hfound, rfl, rfl⟩ | ⟨file, l₁, hfound, hhit, rfl⟩ := found_of_seek he.toConsistent.toOrderly hseek
  · rw [view_linked, map_id_referrer?]
    exact weaves_of_builtin (l := l.retried request parent isMain) (he.toConsistent.noted _) hw hr hfound
  · have hview := view_classified (he.toConsistent.classifying request parent isMain file).exclusive
      (l.target request file).key (l.target request file).fixed (l.target request file).package.isUnexposed
    obtain ⟨s, hs, hused⟩ := held_of_hit (congrArg Prod.fst hhit)
    rw [hhit] at hview
    have hlinked : ((l₁.noted [.enters (l.target request file).key .cacheHit]).linked (l.referrer? parent)
        request child).view = (l.classifying request parent isMain file).view.linked parent request child := by
      rw [view_linked, map_id_referrer?, ← hview]
      rfl
    rw [hlinked]
    exact weaves_of_hit (l := l.classifying request parent isMain file)
      (he.toConsistent.classifying request parent isMain file) he.parsing hw hr hfound hs hused

/-- A module that is to be compiled gets an entry at most. -/
theorem woven_of_needs (he : l.Engaged w parsing) (hw : l.view.Woven w parsing)
    (hseek : l.run (seek request parent isMain) = (.ok (.needs job), l')) :
    l.view.Grows l'.view ∧ l'.view.Woven w parsing := by
  obtain ⟨file, -, -, -, -, -, hclass⟩ := needs_of_seek he.toConsistent.toOrderly hseek
  dsimp only at hclass
  have hview := view_classified (he.toConsistent.classifying request parent isMain file).exclusive
    job.target.key job.target.fixed job.target.package.isUnexposed
  rcases hclass with ⟨-, rfl⟩ | ⟨-, -, rfl⟩
  · rw [hview]
    exact ⟨.refl _, hw⟩
  · have hadd := hw.add (newEntry (l.referrer? parent) job.target)
    have hadded : ∀ {l₁ : Loader}, l₁.view = l.view →
        ({ l₁ with graph := (l₁.graph.add (newEntry (l.referrer? parent) job.target)).1 } : Loader).view
          = l.view.add (newEntry (l.referrer? parent) job.target) := fun h => by
      rw [← h]
      rfl
    rw [hadded hview]
    exact hadd

end Loader
end ModGraph
