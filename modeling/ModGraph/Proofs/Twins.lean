import ModGraph.Proofs.Drafts
import ModGraph.Proofs.Formats

/-!
# Twins

Two loaders that do the same have the same modules, but not under the same numbers, and not all at the same
time: the one that follows may have begun with modules that were parsed before, which it takes up one by one
(`Twins`). What counts are the entries and the names under which the cache leads to them (`View`). A pair of
entries can be written to on both sides (`Twins.update`), a new entry has a new one or one that was there from
the start as its twin (`Twins.make`, `Twins.adopt`), and a module can become ready (`Twins.finish`).
-/

namespace ModGraph

open Json (Value)

/-- Under what the cache keeps an entry: the key of a module, or the name of a builtin module. -/
inductive Ref where
  | module (key : String)
  | builtin (name : String)
deriving DecidableEq

/-- A slot in a loader with other numbers. -/
def Slot.renamed (m : EntryId → EntryId) : Slot → Slot
  | loading id => loading (m id)
  | ready id => ready (m id)
  | poisoned e => poisoned e

theorem Slot.renamed_congr {m m' : EntryId → EntryId} {s : Slot} (h : ∀ i, s.entry? = some i → m' i = m i) :
    s.renamed m' = s.renamed m := by
  cases s with
  | loading id => exact congrArg Slot.loading (h id rfl)
  | ready id => exact congrArg Slot.ready (h id rfl)
  | poisoned e => rfl

/-- The entry with a number, if there is one. -/
def Graph.find (g : Graph) (id : EntryId) : Option Entry := if id < g.size then some (g.entry id) else none

/-- The entries, and under which names the cache leads to them. -/
structure View where
  graph : Graph
  held : Ref → Option Slot

namespace View

/-- Change an entry. -/
def update (v : View) (id : EntryId) (f : Entry → Entry) : View := { v with graph := v.graph.update id f }

/-- Make an entry. -/
def add (v : View) (e : Entry) : View := { v with graph := (v.graph.add e).1 }

/-- Put a slot under a name. -/
def put (v : View) (ref : Ref) (s : Slot) : View :=
  { v with held := fun other => if ref = other then some s else v.held other }

/-- Record that the request of an entry led to another. -/
def linked (v : View) (id : Option EntryId) (request : String) (child : EntryId) : View :=
  match id with
  | none => v
  | some id => v.update id fun e => e.addChild request child

/-- What is under a name after a slot was put: that slot, or what was there. -/
theorem of_held_put {v : View} {ref other : Ref} {s s' : Slot} (h : (v.put ref s).held other = some s') :
    ref = other ∧ s' = s ∨ v.held other = some s' := by
  change (if ref = other then _ else _) = _ at h
  split at h
  · next heq => exact .inl ⟨heq, (Option.some.inj h).symm⟩
  · exact .inr h

/-- Everything in the cache is ready, and no two names lead to one entry. -/
structure Shelved (v : View) : Prop where
  ready : ∀ {ref s}, v.held ref = some s → ∃ id < v.graph.size, s = .ready id
  distinct : ∀ {ref ref' id}, v.held ref = some (.ready id) → v.held ref' = some (.ready id) → ref = ref'

end View

/-- An entry and its twin, given what the twin was at the start if it was there then. -/
structure Entry.Kin (parsing : Bool) (before : Option Entry) (size : Nat) (m : EntryId → EntryId) (e e' : Entry) :
    Prop where
  key : e'.key = e.key
  package : e'.package = e.package
  filename : e'.module.filename = e.module.filename
  isLoaded : parsing = false → e'.isLoaded = e.isLoaded
  name : e'.module.id = e.module.id ∨ ∃ b ∈ before, e'.module.id = b.module.id
  paths : e'.module.paths = e.module.paths ∨ ∃ b ∈ before, e'.module.paths = b.module.paths
  child : ∀ {request c}, e.children.get? request = some c → c < size ∧ e'.children.get? request = some (m c)
  barren : ∀ {request}, e.children.get? request = none →
    e'.children.get? request = before.bind fun b => b.children.get? request
  parent : ∀ {q}, e.parent = some q → q < size ∧ e'.parent = before.elim (some (m q)) Entry.parent
  orphan : parsing = false → e.parent = none → e'.parent = none

namespace Entry.Kin

variable {parsing : Bool} {before : Option Entry} {size : Nat} {m m' : EntryId → EntryId} {e e' x x' : Entry}

/-- More entries may have got twins. -/
theorem extend (h : e.Kin parsing before size m e') {size' : Nat} (hsize : size ≤ size')
    (hm : ∀ i < size, m' i = m i) : e.Kin parsing before size' m' e' :=
  { h with
    child := fun hc => by
      obtain ⟨hlt, hc'⟩ := h.child hc
      exact ⟨Nat.lt_of_lt_of_le hlt hsize, hc'.trans (by rw [hm _ hlt])⟩
    parent := fun hp => by
      obtain ⟨hlt, hp'⟩ := h.parent hp
      exact ⟨Nat.lt_of_lt_of_le hlt hsize, hp'.trans (by rw [hm _ hlt])⟩ }

/-- Formats, exports and whether an entry was parsed do not matter. -/
theorem recast (h : e.Kin parsing before size m e') (hx : e.Recast x) (hx' : e'.Recast x') :
    x.Kin parsing before size m x' := by
  obtain ⟨exports, hmodule⟩ := hx.module
  obtain ⟨exports', hmodule'⟩ := hx'.module
  constructor
  · rw [hx.key, hx'.key, h.key]
  · rw [hx.package, hx'.package, h.package]
  · rw [hmodule, hmodule']
    exact h.filename
  · rw [hx.isLoaded, hx'.isLoaded]
    exact h.isLoaded
  · rw [hmodule, hmodule']
    exact h.name
  · rw [hmodule, hmodule']
    exact h.paths
  · rw [hx.children, hx'.children]
    exact h.child
  · rw [hx.children, hx'.children]
    exact h.barren
  · rw [hx.parent, hx'.parent]
    exact h.parent
  · rw [hx.parent, hx'.parent]
    exact h.orphan

/-- A request is linked on both sides. -/
theorem addChild (h : e.Kin parsing before size m e') (request : String) {c : EntryId} (hc : c < size) :
    (e.addChild request c).Kin parsing before size m (e'.addChild request (m c)) :=
  { h with
    child := fun {request' c'} hget => by
      change (e.children.insert request c).get? request' = some c' at hget
      show c' < size ∧ (e'.children.insert request (m c)).get? request' = some (m c')
      rw [Table.get?_insert] at hget ⊢
      split at hget
      · next heq =>
        cases hget
        exact ⟨hc, if_pos heq⟩
      · next hne =>
        rw [if_neg hne]
        exact h.child hget
    barren := fun {request'} hget => by
      change (e.children.insert request c).get? request' = none at hget
      show (e'.children.insert request (m c)).get? request' = _
      rw [Table.get?_insert] at hget ⊢
      split at hget
      · cases hget
      · next hne =>
        rw [if_neg hne]
        exact h.barren hget }

/-- A module loses its parent, at least where it is evaluated. -/
theorem sever (h : e.Kin parsing before size m e') (hx : x' = { e' with parent := none } ∨ x' = e' ∧ parsing = true) :
    Entry.Kin parsing before size m { e with parent := none } x' := by
  rcases hx with rfl | ⟨rfl, hparsing⟩
  · exact { h with parent := (nomatch ·), orphan := fun _ _ => rfl }
  · exact { h with
      parent := (nomatch ·)
      orphan := fun hp => by rw [hparsing] at hp; cases hp }

end Entry.Kin

/-- The modules of a loader have twins in another one, which follows it in a parse-only pass or not: `m` gives
the number of an entry's twin. The other loader may have begun with modules, which are twins as soon as they are
asked for. Where modules are evaluated on both sides, twins have the same format and exports, apart from the
module `own` that is being compiled. -/
structure Twins (parsing : Bool) (start : View) (own : Option EntryId) (m : EntryId → EntryId) (v v' : View) :
    Prop where
  inRange : ∀ {i}, i < v.graph.size → m i < v'.graph.size
  injective : ∀ {i j}, i < v.graph.size → j < v.graph.size → m i = m j → i = j
  grown : start.graph.size ≤ v'.graph.size
  numbered : start.graph.size = 0 → v'.graph.size = v.graph.size ∧ ∀ i < v.graph.size, m i = i
  /-- What was not there at the start is a twin. -/
  made : ∀ {j}, start.graph.size ≤ j → j < v'.graph.size → ∃ i < v.graph.size, m i = j
  kin : ∀ {i}, i < v.graph.size →
    (v.graph.entry i).Kin parsing (start.graph.find (m i)) v.graph.size m (v'.graph.entry (m i))
  same : parsing = false → ∀ {i}, i < v.graph.size → own ≠ some i →
    (v'.graph.entry (m i)).format = (v.graph.entry i).format ∧
      (v'.graph.entry (m i)).module.exports = (v.graph.entry i).module.exports
  /-- What is no twin yet is as it was at the start. -/
  untouched : ∀ {j}, j < start.graph.size → (∀ i < v.graph.size, m i ≠ j) →
    v'.graph.entry j = start.graph.entry j
  held : ∀ ref, v'.held ref = ((v.held ref).map (Slot.renamed m)).or (start.held ref)
  finding : ∀ {ref s}, v.held ref = some s →
    ∃ i < v.graph.size, s = .loading i ∨ s = .ready i ∧ (v.graph.entry i).isLoaded = true
  /-- A name leads to the entry to which it led at the start, or to a new one. -/
  adopted : ∀ {ref s i}, v.held ref = some s → s.entry? = some i →
    match start.held ref with
    | some b => b.entry? = some (m i)
    | none => start.graph.size ≤ m i
  known : ∀ {i}, i < v.graph.size → ∃ ref s, v.held ref = some s ∧ s.entry? = some i

namespace Twins

variable {parsing : Bool} {start v v' : View} {own : Option EntryId} {m : EntryId → EntryId} {i j : EntryId}
  {ref : Ref} {s : Slot} {e e' : Entry}

/-- Before anything is asked for there are no twins. -/
theorem begin (hsize : v.graph.size = 0) (hheld : ∀ ref, v.held ref = none) : Twins parsing start own m v start where
  inRange hi := by omega
  injective hi := by omega
  grown := Nat.le_refl _
  numbered h := ⟨h.trans hsize.symm, fun i hi => by omega⟩
  made hj hlt := by omega
  kin hi := by omega
  same _ _ hi := by omega
  untouched _ _ := rfl
  held ref := by rw [hheld]; rfl
  finding h := by rw [hheld] at h; cases h
  adopted h := by rw [hheld] at h; cases h
  known hi := by omega

/-- While a module is being compiled its format and its exports may differ. -/
theorem weaken (h : Twins parsing start none m v v') : Twins parsing start own m v v' :=
  { h with same := fun hp _ hi _ => h.same hp hi nofun }

/-- In the end they do not. -/
theorem settle (h : Twins parsing start (some i) m v v')
    (hs : parsing = false → (v'.graph.entry (m i)).format = (v.graph.entry i).format ∧
      (v'.graph.entry (m i)).module.exports = (v.graph.entry i).module.exports) : Twins parsing start none m v v' :=
  { h with
    same := fun hp j hj _ => by
      by_cases hij : i = j
      · exact hij ▸ hs hp
      · exact h.same hp hj fun heq => hij (Option.some.inj heq) }

/-- Twins are written to. -/
theorem update (h : Twins parsing start own m v v') (hi : i < v.graph.size) {f g : Entry → Entry}
    (hkin : ∀ {before e e'}, e.Kin parsing before v.graph.size m e' → e = v.graph.entry i →
      (f e).Kin parsing before v.graph.size m (g e'))
    (hloaded : (v.graph.entry i).isLoaded = true → (f (v.graph.entry i)).isLoaded = true)
    (hsame : parsing = false → own ≠ some i →
      (g (v'.graph.entry (m i))).format = (f (v.graph.entry i)).format ∧
        (g (v'.graph.entry (m i))).module.exports = (f (v.graph.entry i)).module.exports) :
    Twins parsing start own m (v.update i f) (v'.update (m i) g) := by
  have hsize : (v.update i f).graph.size = v.graph.size := Graph.size_update _ _ _
  have hsize' : (v'.update (m i) g).graph.size = v'.graph.size := Graph.size_update _ _ _
  have hself : (v.update i f).graph.entry i = f (v.graph.entry i) := Graph.entry_update_self _ _ hi
  have hself' : (v'.update (m i) g).graph.entry (m i) = g (v'.graph.entry (m i)) :=
    Graph.entry_update_self _ _ (h.inRange hi)
  have hother : ∀ {j}, j < v.graph.size → j ≠ i → (v.update i f).graph.entry j = v.graph.entry j ∧
      (v'.update (m i) g).graph.entry (m j) = v'.graph.entry (m j) := fun hj hne =>
    ⟨Graph.entry_update_of_ne _ _ (Ne.symm hne),
      Graph.entry_update_of_ne _ _ fun heq => hne (h.injective hj hi heq.symm)⟩
  refine { h with
    inRange := ?inRange
    injective := ?injective
    grown := ?grown
    numbered := ?numbered
    made := ?made
    kin := ?kin
    same := ?same
    untouched := ?untouched
    finding := ?finding
    known := ?known }
  case inRange =>
    rw [hsize, hsize']
    exact h.inRange
  case injective =>
    rw [hsize]
    exact h.injective
  case grown =>
    rw [hsize']
    exact h.grown
  case numbered =>
    rw [hsize, hsize']
    exact h.numbered
  case made =>
    rw [hsize, hsize']
    exact h.made
  case kin =>
    intro j hj
    rw [hsize] at hj ⊢
    by_cases hji : j = i
    · subst hji
      rw [hself, hself']
      exact hkin (h.kin hi) rfl
    · rw [(hother hj hji).1, (hother hj hji).2]
      exact h.kin hj
  case same =>
    intro hp j hj hne
    rw [hsize] at hj
    by_cases hji : j = i
    · subst hji
      rw [hself, hself']
      exact hsame hp hne
    · rw [(hother hj hji).1, (hother hj hji).2]
      exact h.same hp hj hne
  case untouched =>
    intro j hj hno
    rw [hsize] at hno
    exact (Graph.entry_update_of_ne _ _ (hno i hi)).trans (h.untouched hj hno)
  case finding =>
    intro ref s hs
    obtain ⟨j, hj, hsj⟩ := h.finding hs
    refine ⟨j, hsize.symm ▸ hj, hsj.imp_right fun hr => ⟨hr.1, ?_⟩⟩
    by_cases hji : j = i
    · subst hji
      rw [hself]
      exact hloaded hr.2
    · rw [(hother hj hji).1]
      exact hr.2
  case known =>
    rw [hsize]
    exact h.known

/-- The request of an entry is linked on both sides. -/
theorem linked (h : Twins parsing start own m v v') {id : Option EntryId} (hid : ∀ i ∈ id, i < v.graph.size)
    (request : String) {c : EntryId} (hc : c < v.graph.size) :
    Twins parsing start own m (v.linked id request c) (v'.linked (id.map m) request (m c)) := by
  cases id with
  | none => exact h
  | some i =>
    exact h.update (hid i rfl) (fun hkin _ => hkin.addChild request hc) (fun hl => hl)
      fun hp hne => h.same hp (hid i rfl) hne

/-- A module that is loaded becomes ready. -/
theorem finish (h : Twins parsing start own m v v') (hs : v.held ref = some (.loading i))
    (hloaded : (v.graph.entry i).isLoaded = true) :
    Twins parsing start own m (v.put ref (.ready i)) (v'.put ref (.ready (m i))) := by
  have hi : i < v.graph.size := by
    obtain ⟨j, hj, hsj | ⟨hsj, -⟩⟩ := h.finding hs
    · cases hsj
      exact hj
    · cases hsj
  refine { h with held := fun other => ?_, finding := fun {other s} hs' => ?_, adopted := fun {other s j} hs' hj => ?_,
                  known := fun {j} hj => ?_ }
  · show (if ref = other then _ else _) = (Option.map _ (if ref = other then _ else _)).or _
    split
    · rfl
    · exact h.held other
  · rcases View.of_held_put hs' with ⟨-, rfl⟩ | hs'
    · exact ⟨i, hi, .inr ⟨rfl, hloaded⟩⟩
    · exact h.finding hs'
  · rcases View.of_held_put hs' with ⟨rfl, rfl⟩ | hs'
    · cases hj
      exact h.adopted hs rfl
    · exact h.adopted hs' hj
  · obtain ⟨other, s, hs', hentry⟩ := h.known hj
    by_cases heq : ref = other
    · subst heq
      rw [hs] at hs'
      cases hs'
      exact ⟨ref, .ready i, if_pos rfl, hentry⟩
    · exact ⟨other, s, (if_neg heq).trans hs', hentry⟩

/-- The numbers of twins with one more. -/
def extend (m : EntryId → EntryId) (i j : EntryId) : EntryId → EntryId := fun k => if k = i then j else m k

@[simp] theorem extend_self (m : EntryId → EntryId) (i j : EntryId) : extend m i j i = j := if_pos rfl

theorem extend_of_lt (m : EntryId → EntryId) (j : EntryId) {i k : EntryId} (hk : k < i) : extend m i j k = m k :=
  if_neg (Nat.ne_of_lt hk)

/-- The slot of a new entry's twin. -/
theorem renamed_extend (m : EntryId → EntryId) (i j : EntryId) :
    (Slot.loading i).renamed (extend m i j) = .loading j ∧ (Slot.ready i).renamed (extend m i j) = .ready j :=
  ⟨congrArg Slot.loading (extend_self m i j), congrArg Slot.ready (extend_self m i j)⟩

/-- A number that was not given before is given once. -/
theorem extend_injective {size : Nat} (hm : ∀ {i k}, i < size → k < size → m i = m k → i = k)
    (hfresh : ∀ i < size, m i ≠ j) {i k : EntryId} (hi : i < size + 1) (hk : k < size + 1)
    (heq : extend m size j i = extend m size j k) : i = k := by
  rcases Nat.lt_succ_iff_lt_or_eq.mp hi with hi | rfl <;> rcases Nat.lt_succ_iff_lt_or_eq.mp hk with hk | rfl
  · rw [extend_of_lt m j hi, extend_of_lt m j hk] at heq
    exact hm hi hk heq
  · rw [extend_of_lt m j hi, extend_self] at heq
    exact absurd heq (hfresh i hi)
  · rw [extend_self, extend_of_lt m j hk] at heq
    exact absurd heq.symm (hfresh k hk)
  · rfl

/-- The slots that there were lead to the twins that they led to. -/
theorem map_renamed_extend (h : Twins parsing start own m v v') (ref : Ref) :
    (v.held ref).map (Slot.renamed (extend m v.graph.size j)) = (v.held ref).map (Slot.renamed m) := by
  cases hheld : v.held ref with
  | none => rfl
  | some s =>
    refine congrArg some (Slot.renamed_congr fun i hi => extend_of_lt m j ?_)
    obtain ⟨k, hk, rfl | ⟨rfl, -⟩⟩ := h.finding hheld <;> cases hi <;> exact hk

/-- A new entry gets a twin. -/
theorem enter (h : Twins parsing start none m v v') (hnone : v.held ref = none) {g : Graph}
    (hj : j < g.size) (hsize : v'.graph.size ≤ g.size)
    (hold : ∀ {k}, k < v'.graph.size → g.entry k = v'.graph.entry k)
    (hnew : ∀ {k}, v'.graph.size ≤ k → k < g.size → k = j) (hfresh : ∀ i < v.graph.size, m i ≠ j)
    (hnumbered : start.graph.size = 0 → j = v.graph.size ∧ g.size = v.graph.size + 1)
    (hadopted : match start.held ref with
      | some b => b.entry? = some j
      | none => start.graph.size ≤ j)
    (hkin : e.Kin parsing (start.graph.find j) v.graph.size m (g.entry j))
    (hs : s = .loading v.graph.size ∨ s = .ready v.graph.size ∧ e.isLoaded = true) :
    Twins parsing start (some v.graph.size) (extend m v.graph.size j) ((v.add e).put ref s)
      (View.put ⟨g, v'.held⟩ ref (s.renamed (extend m v.graph.size j))) := by
  have hgrown : ((v.add e).put ref s).graph.size = v.graph.size + 1 := Graph.size_add _ _
  have hm : ∀ {k}, k < v.graph.size → extend m v.graph.size j k = m k := extend_of_lt m j
  have hentry : ((v.add e).put ref s).graph.entry v.graph.size = e := Graph.entry_add_self _ _
  have hentries : ∀ {k}, k < v.graph.size → ((v.add e).put ref s).graph.entry k = v.graph.entry k :=
    Graph.entry_add_of_lt _ _
  have hsentry : s.entry? = some v.graph.size := by rcases hs with rfl | ⟨rfl, -⟩ <;> rfl
  -- an entry is one of those that there were, or the new one
  have hlast : ∀ {k}, k < ((v.add e).put ref s).graph.size → k < v.graph.size ∨ k = v.graph.size := by
    rw [hgrown]
    exact Nat.lt_succ_iff_lt_or_eq.mp
  refine {
    inRange := ?inRange
    injective := fun hi hk => extend_injective h.injective hfresh (hgrown ▸ hi) (hgrown ▸ hk)
    grown := Nat.le_trans h.grown hsize
    numbered := ?numbered
    made := ?made
    kin := ?kin
    same := ?same
    untouched := ?untouched
    held := ?held
    finding := ?finding
    adopted := ?adopted
    known := ?known }
  case inRange =>
    intro i hi
    rcases hlast hi with hi | rfl
    · rw [hm hi]
      exact Nat.lt_of_lt_of_le (h.inRange hi) hsize
    · rw [extend_self]
      exact hj
  case numbered =>
    intro hzero
    obtain ⟨rfl, hg⟩ := hnumbered hzero
    refine ⟨hg.trans hgrown.symm, fun i hi => ?_⟩
    rcases hlast hi with hi | rfl
    · rw [hm hi]
      exact (h.numbered hzero).2 i hi
    · exact extend_self _ _ _
  case made =>
    intro k hk hlt
    rw [hgrown]
    by_cases hkv : k < v'.graph.size
    · obtain ⟨i, hi, rfl⟩ := h.made hk hkv
      exact ⟨i, Nat.lt_succ_of_lt hi, hm hi⟩
    · obtain rfl := hnew (Nat.le_of_not_lt hkv) hlt
      exact ⟨_, Nat.lt_succ_self _, extend_self _ _ _⟩
  case kin =>
    intro i hi
    rw [hgrown]
    rcases hlast hi with hi | rfl
    · rw [hm hi, hentries hi]
      show Entry.Kin _ _ _ _ _ (g.entry (m i))
      rw [hold (h.inRange hi)]
      exact (h.kin hi).extend (Nat.le_succ _) fun _ => hm
    · rw [extend_self, hentry]
      exact hkin.extend (Nat.le_succ _) fun _ => hm
  case same =>
    intro hp i hi hne
    rcases hlast hi with hi | rfl
    · rw [hm hi, hentries hi]
      show (g.entry (m i)).format = _ ∧ (g.entry (m i)).module.exports = _
      rw [hold (h.inRange hi)]
      exact h.same hp hi nofun
    · exact absurd rfl hne
  case untouched =>
    intro k hk hno
    rw [hgrown] at hno
    refine (hold (Nat.lt_of_lt_of_le hk h.grown)).trans (h.untouched hk fun i hi heq => ?_)
    exact hno i (Nat.lt_succ_of_lt hi) ((hm hi).trans heq)
  case held =>
    intro other
    show (if ref = other then _ else _) = (Option.map _ (if ref = other then _ else _)).or _
    split
    · rfl
    · exact (h.held other).trans (congrArg (Option.or · _) (h.map_renamed_extend other).symm)
  case finding =>
    intro other s' hs'
    rw [hgrown]
    rcases View.of_held_put hs' with ⟨-, rfl⟩ | hs'
    · exact ⟨_, Nat.lt_succ_self _, hs.imp_right fun hr => ⟨hr.1, hentry.symm ▸ hr.2⟩⟩
    · obtain ⟨i, hi, hsi⟩ := h.finding hs'
      exact ⟨i, Nat.lt_succ_of_lt hi, hsi.imp_right fun hr => ⟨hr.1, (hentries hi).symm ▸ hr.2⟩⟩
  case adopted =>
    intro other s' i hs' hi
    rcases View.of_held_put hs' with ⟨rfl, rfl⟩ | hs'
    · obtain rfl := Option.some.inj (hsentry.symm.trans hi)
      rw [extend_self]
      exact hadopted
    · obtain ⟨k, hk, hsk⟩ := h.finding hs'
      have hki : k = i := by rcases hsk with rfl | ⟨rfl, -⟩ <;> exact Option.some.inj hi
      rw [hm (hki ▸ hk)]
      exact h.adopted hs' hi
  case known =>
    intro i hi
    rcases hlast hi with hi | rfl
    · obtain ⟨other, s', hs', hentry'⟩ := h.known hi
      refine ⟨other, s', (if_neg ?_).trans hs', hentry'⟩
      rintro rfl
      rw [hnone] at hs'
      cases hs'
    · exact ⟨ref, s, if_pos rfl, hsentry⟩

/-- Where there was nothing at the start, a new entry has a new twin. -/
theorem make (h : Twins parsing start none m v v') (hnone : v.held ref = none) (hstart : start.held ref = none)
    (hkin : e.Kin parsing none v.graph.size m e')
    (hs : s = .loading v.graph.size ∨ s = .ready v.graph.size ∧ e.isLoaded = true) :
    let m' := extend m v.graph.size v'.graph.size
    Twins parsing start (some v.graph.size) m' ((v.add e).put ref s) ((v'.add e').put ref (s.renamed m')) := by
  refine h.enter hnone (g := (v'.graph.add e').1) (by simp) (by simp) (Graph.entry_add_of_lt _ _)
    (fun hk hlt => ?_) (fun i hi => Nat.ne_of_lt (h.inRange hi)) (fun hzero => ?_) ?_ ?_ hs
  · rw [Graph.size_add] at hlt
    omega
  · obtain ⟨hsize, -⟩ := h.numbered hzero
    exact ⟨hsize, by rw [Graph.size_add, hsize]⟩
  · rw [hstart]
    exact h.grown
  · rw [Graph.find, if_neg (Nat.not_lt.mpr h.grown)]
    exact (Graph.entry_add_self v'.graph e').symm ▸ hkin

/-- What was there at the start under a name is no twin before the name is asked for. -/
theorem ne_of_held (h : Twins parsing start own m v v') (hstart : start.Shelved) (hnone : v.held ref = none)
    (hj : start.held ref = some (.ready j)) (hi : i < v.graph.size) : m i ≠ j := by
  rintro rfl
  obtain ⟨other, s, hs, hentry⟩ := h.known hi
  have hadopted := h.adopted hs hentry
  cases hother : start.held other with
  | none =>
    rw [hother] at hadopted
    obtain ⟨k, hk, heq⟩ := hstart.ready hj
    cases heq
    exact absurd hk (Nat.not_lt.mpr hadopted)
  | some b =>
    rw [hother] at hadopted
    obtain ⟨k, -, rfl⟩ := hstart.ready hother
    obtain rfl : k = m i := Option.some.inj hadopted
    rw [hstart.distinct hother hj, hnone] at hs
    cases hs

/-- What was there at the start is still there, as it was, before its name is asked for. -/
theorem remains (h : Twins parsing start own m v v') (hstart : start.Shelved) (hnone : v.held ref = none)
    (hj : start.held ref = some (.ready j)) :
    v'.held ref = some (.ready j) ∧ v'.graph.entry j = start.graph.entry j := by
  obtain ⟨k, hk, heq⟩ := hstart.ready hj
  cases heq
  refine ⟨?_, h.untouched hk fun i hi => h.ne_of_held hstart hnone hj hi⟩
  rw [h.held, hnone, hj]
  rfl

/-- Where there was something at the start, that is the twin of a new entry. -/
theorem adopt (h : Twins parsing start none m v v') (hstart : start.Shelved) (hnone : v.held ref = none)
    (hj : start.held ref = some (.ready j))
    (hkin : e.Kin parsing (some (start.graph.entry j)) v.graph.size m (start.graph.entry j))
    (hs : s = .loading v.graph.size ∨ s = .ready v.graph.size ∧ e.isLoaded = true) :
    let m' := extend m v.graph.size j
    Twins parsing start (some v.graph.size) m' ((v.add e).put ref s) (v'.put ref (s.renamed m')) := by
  have hlt : j < start.graph.size := by
    obtain ⟨k, hk, heq⟩ := hstart.ready hj
    cases heq
    exact hk
  have hfresh : ∀ i < v.graph.size, m i ≠ j := fun i hi => h.ne_of_held hstart hnone hj hi
  refine h.enter hnone (g := v'.graph) (Nat.lt_of_lt_of_le hlt h.grown) (Nat.le_refl _) (fun _ => rfl)
    (fun hk hlt => absurd hlt (Nat.not_lt.mpr hk)) hfresh (fun hzero => absurd (hzero ▸ hlt) (Nat.not_lt_zero _))
    ?_ ?_ hs
  · rw [hj]
    rfl
  · rw [Graph.find, if_pos hlt, h.untouched hlt hfresh]
    exact hkin

/-- A new entry is like its twin if it needs no compiler. -/
theorem settle_extend {v₁ : View}
    (h : Twins parsing start (some v.graph.size) (extend m v.graph.size j) ((v.add e).put ref s) v₁)
    (hs : (v₁.graph.entry j).format = e.format ∧ (v₁.graph.entry j).module.exports = e.module.exports) :
    Twins parsing start none (extend m v.graph.size j) ((v.add e).put ref s) v₁ := by
  refine h.settle fun _ => ?_
  have hentry : ((v.add e).put ref s).graph.entry v.graph.size = e := Graph.entry_add_self _ _
  rw [hentry, extend_self]
  exact hs

end Twins

end ModGraph
