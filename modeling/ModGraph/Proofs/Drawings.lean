import ModGraph.Proofs.Reached
import ModGraph.Report

/-!
# How a graph is shown

The tree below an entry is shown line by line: a module whose key comes up for the first time with everything below
it, and any other one with a line only (`Report.Draws`). This ends for every graph, with and without circles, as each
level of the tree has a key that the levels above do not have. The limit in `Report.tree` is never reached
(`Report.tree_eq`).

Each edge of an entry that is shown with what lies below it has its line (`Report.Draws.perm`), and where no two
entries have the same key these are all entries that can be reached (`Report.Draws.mem_expanded`).
-/

namespace ModGraph

open Relation (ReflTransGen)

theorem Table.mem_entries_of_get? {κ α : Type} [DecidableEq κ] {t : Table κ α} {k : κ} {a : α} (h : t.get? k = some a) :
    (k, a) ∈ t.entries := by
  obtain ⟨entries⟩ := t
  change Table.find? k entries = some a at h
  induction entries with
  | nil => cases h
  | cons e rest ih =>
    obtain ⟨k', b⟩ := e
    unfold Table.find? at h
    split at h
    · next heq =>
      cases h
      exact heq ▸ List.mem_cons_self
    · exact List.mem_cons_of_mem _ (ih h)

theorem Table.get?_of_mem_entries {κ α : Type} [DecidableEq κ] {t : Table κ α} (hn : t.keys.Nodup) {k : κ} {a : α}
    (h : (k, a) ∈ t.entries) : t.get? k = some a := by
  obtain ⟨entries⟩ := t
  change Table.find? k entries = some a
  change (entries.map (·.1)).Nodup at hn
  change (k, a) ∈ entries at h
  induction entries with
  | nil => cases h
  | cons e rest ih =>
    obtain ⟨k', b⟩ := e
    obtain ⟨hnew, hrest⟩ := List.nodup_cons.mp hn
    unfold Table.find?
    rcases List.mem_cons.mp h with heq | hmem
    · cases heq
      exact if_pos rfl
    · have hne : k' ≠ k := by
        rintro rfl
        exact hnew (List.mem_map.mpr ⟨_, hmem, rfl⟩)
      rw [if_neg hne]
      exact ih hrest hmem

namespace Report

/-- An entry that is to be shown: how deep it stands, and who asked for it with which request. Nobody asked for the
root. -/
structure Stop where
  depth : Nat
  via : Option (EntryId × String)
  id : EntryId

/-- A line about an entry, and whether its key came up for the first time. -/
structure Visit extends Stop where
  isNew : Bool

/-- What is to be shown below an entry. -/
def Stop.below (g : Graph) (s : Stop) : List Stop :=
  (g.entry s.id).sortedChildren.map fun c => ⟨s.depth + 1, some (s.id, c.1), c.2⟩

/-- How entries are shown, one after the other, when some keys have come up already: the lines, and the keys that have
come up then. -/
inductive Draws (g : Graph) : List String → List Stop → List Visit → List String → Prop where
  | done (seen : List String) : Draws g seen [] [] seen
  | again {seen seen' : List String} {s : Stop} {rest : List Stop} {visits : List Visit}
      (hseen : (g.entry s.id).key ∈ seen) (hrest : Draws g seen rest visits seen') :
      Draws g seen (s :: rest) (⟨s, false⟩ :: visits) seen'
  | anew {seen seen₁ seen' : List String} {s : Stop} {rest : List Stop} {under visits : List Visit}
      (hnew : (g.entry s.id).key ∉ seen) (hunder : Draws g ((g.entry s.id).key :: seen) (s.below g) under seen₁)
      (hrest : Draws g seen₁ rest visits seen') : Draws g seen (s :: rest) (⟨s, true⟩ :: (under ++ visits)) seen'

/-- The entries that are shown with what lies below them. -/
def expanded (visits : List Visit) : List EntryId := (visits.filter (·.isNew)).map (·.id)

/-- The keys that come up for the first time. -/
def newKeys (g : Graph) (visits : List Visit) : List String := (expanded visits).map fun id => (g.entry id).key

/-- The edge that a line is about. -/
def Visit.edge (v : Visit) : Option (EntryId × String) × EntryId := (v.via, v.id)

/-- The edges of an entry. -/
def edges (g : Graph) (id : EntryId) : List (Option (EntryId × String) × EntryId) :=
  (g.entry id).children.entries.map fun c => (some (id, c.1), c.2)

theorem expanded_append (vs vs' : List Visit) : expanded (vs ++ vs') = expanded vs ++ expanded vs' := by
  simp [expanded]

theorem newKeys_append (g : Graph) (vs vs' : List Visit) : newKeys g (vs ++ vs') = newKeys g vs ++ newKeys g vs' := by
  simp [newKeys, expanded_append]

theorem mem_expanded {visits : List Visit} {id : EntryId} :
    id ∈ expanded visits ↔ ∃ v ∈ visits, v.isNew = true ∧ v.id = id := by
  simp [expanded, and_assoc]

namespace Draws

variable {g : Graph} {seen seen₁ seen' : List String} {s : Stop} {stops rest : List Stop} {visits visits' : List Visit}

/-- There is one way to show entries. -/
theorem unique (h : Draws g seen stops visits seen') {seen'' : List String} (h' : Draws g seen stops visits' seen'') :
    visits' = visits ∧ seen'' = seen' := by
  induction h generalizing visits' seen'' with
  | done seen =>
    cases h'
    exact ⟨rfl, rfl⟩
  | again hseen _ ih =>
    cases h' with
    | again _ hrest' =>
      obtain ⟨rfl, rfl⟩ := ih hrest'
      exact ⟨rfl, rfl⟩
    | anew hnew => exact absurd hseen hnew
  | anew hnew _ _ ihunder ihrest =>
    cases h' with
    | again hseen => exact absurd hseen hnew
    | anew _ hunder' hrest' =>
      obtain ⟨rfl, rfl⟩ := ihunder hunder'
      obtain ⟨rfl, rfl⟩ := ihrest hrest'
      exact ⟨rfl, rfl⟩

theorem cons (h : Draws g seen [s] visits seen₁) (hrest : Draws g seen₁ rest visits' seen') :
    Draws g seen (s :: rest) (visits ++ visits') seen' := by
  cases h with
  | again hseen hdone =>
    cases hdone
    exact .again hseen hrest
  | anew hnew hunder hdone =>
    cases hdone
    rw [List.cons_append, List.append_nil]
    exact .anew hnew hunder hrest

/-- The keys that have come up in the end are those of before and the new ones, which are different from each other. -/
theorem keys (h : Draws g seen stops visits seen') : (newKeys g visits).Nodup ∧
    (∀ key ∈ newKeys g visits, key ∉ seen) ∧ ∀ key, key ∈ seen' ↔ key ∈ seen ∨ key ∈ newKeys g visits := by
  induction h with
  | done seen => simp [newKeys, expanded]
  | again hseen _ ih => exact ih
  | @anew seen seen₁ seen' s rest under visits hnew _ _ ihunder ihrest =>
    obtain ⟨hdistinct, hfresh, hmem⟩ := ihunder
    obtain ⟨hdistinct', hfresh', hmem'⟩ := ihrest
    have hcons : newKeys g (⟨s, true⟩ :: (under ++ visits))
        = (g.entry s.id).key :: (newKeys g under ++ newKeys g visits) := by
      rw [← newKeys_append]
      rfl
    rw [hcons]
    refine ⟨List.nodup_cons.mpr ⟨?_, List.nodup_append.mpr ⟨hdistinct, hdistinct', ?_⟩⟩, ?_, fun key => ?_⟩
    · intro hk
      rcases List.mem_append.mp hk with hk | hk
      · exact hfresh _ hk List.mem_cons_self
      · exact hfresh' _ hk ((hmem _).mpr (.inl List.mem_cons_self))
    · rintro key hk _ hk' rfl
      exact hfresh' key hk' ((hmem key).mpr (.inr hk))
    · intro key hk hseen
      rcases List.mem_cons.mp hk with rfl | hk
      · exact hnew hseen
      · rcases List.mem_append.mp hk with hk | hk
        · exact hfresh key hk (List.mem_cons_of_mem _ hseen)
        · exact hfresh' key hk ((hmem key).mpr (.inl (List.mem_cons_of_mem _ hseen)))
    · rw [hmem', hmem, List.mem_cons, List.mem_cons, List.mem_append]
      tauto

/-- The key of each entry that has a line has come up in the end. -/
theorem key_mem (h : Draws g seen stops visits seen') : ∀ v ∈ visits, (g.entry v.id).key ∈ seen' := by
  induction h with
  | done => nofun
  | again hseen hrest ih =>
    intro v hv
    rcases List.mem_cons.mp hv with rfl | hv
    · exact (hrest.keys.2.2 _).mpr (.inl hseen)
    · exact ih v hv
  | anew hnew hunder hrest ihunder ihrest =>
    intro v hv
    rcases List.mem_cons.mp hv with rfl | hv
    · exact (hrest.keys.2.2 _).mpr (.inl ((hunder.keys.2.2 _).mpr (.inl List.mem_cons_self)))
    · rcases List.mem_append.mp hv with hv | hv
      · exact (hrest.keys.2.2 _).mpr (.inl (ihunder v hv))
      · exact ihrest v hv

theorem perm_below (g : Graph) (s : Stop) :
    ((s.below g).map fun s => (s.via, s.id)).Perm (edges g s.id) := by
  unfold Stop.below edges Entry.sortedChildren
  rw [List.map_map]
  exact (List.mergeSort_perm _ _).map _

/-- There is one line for each entry that is to be shown, and one for each edge of an entry that is shown with what lies
below it. -/
theorem perm (h : Draws g seen stops visits seen') : (visits.map Visit.edge).Perm
    ((stops.map fun s => (s.via, s.id)) ++ (expanded visits).flatMap (edges g)) := by
  induction h with
  | done => exact .nil
  | again _ _ ih => exact ih.cons _
  | @anew seen seen₁ seen' s rest under visits _ _ _ ihunder ihrest =>
    have hexpanded : expanded (⟨s, true⟩ :: (under ++ visits)) = s.id :: (expanded under ++ expanded visits) := by
      rw [← expanded_append]
      rfl
    have hunder := ihunder.trans ((perm_below g s).append_right _)
    rw [hexpanded, List.map_cons, List.map_append, List.map_cons, List.cons_append, List.flatMap_cons,
      List.flatMap_append]
    -- the edges come in another order: those of `s` stand before all that is below it
    refine List.Perm.cons _ (List.perm_iff_count.mpr fun edge => ?_)
    have hcount := hunder.count_eq edge
    have hcount' := ihrest.count_eq edge
    simp only [List.count_append] at hcount hcount' ⊢
    omega

/-- What holds of the entries that are to be shown, and is passed on along the edges, holds of each entry that has a
line. -/
theorem invariant {P : EntryId → Prop} (h : Draws g seen stops visits seen') (hg : g.Simple)
    (hP : ∀ {id child}, P id → g.Asks id child → P child) (hstops : ∀ s ∈ stops, P s.id) : ∀ v ∈ visits, P v.id := by
  induction h with
  | done => nofun
  | again _ _ ih =>
    intro v hv
    rcases List.mem_cons.mp hv with rfl | hv
    · exact hstops _ List.mem_cons_self
    · exact ih (fun s hs => hstops s (List.mem_cons_of_mem _ hs)) v hv
  | @anew seen seen₁ seen' s rest under visits _ _ _ ihunder ihrest =>
    have hs : P s.id := hstops s List.mem_cons_self
    intro v hv
    rcases List.mem_cons.mp hv with rfl | hv
    · exact hs
    · rcases List.mem_append.mp hv with hv | hv
      · refine ihunder (fun s' hs' => ?_) v hv
        obtain ⟨c, hc, rfl⟩ := List.mem_map.mp hs'
        have hmem : (c.1, c.2) ∈ (g.entry s.id).children.entries := (List.mergeSort_perm _ _).mem_iff.mp hc
        exact hP hs ⟨c.1, Table.get?_of_mem_entries (hg s.id) hmem⟩
      · exact ihrest (fun s hs => hstops s (List.mem_cons_of_mem _ hs)) v hv

/-- Where no two entries that can be reached have the same key, these are the entries that are shown with what lies
below them. -/
theorem mem_expanded {depth : Nat} {root id : EntryId} (h : Draws g [] [⟨depth, none, root⟩] visits seen')
    (hg : g.Simple)
    (hkeys : ∀ {a b}, g.Reaches root a → g.Reaches root b → (g.entry a).key = (g.entry b).key → a = b) :
    id ∈ expanded visits ↔ g.Reaches root id := by
  have hreached : ∀ v ∈ visits, g.Reaches root v.id :=
    h.invariant hg (fun hid hasks => hid.tail hasks) fun s hs => by
      obtain rfl := List.mem_singleton.mp hs
      exact .refl
  -- a line whose key came up before is about the same entry as the line with which it came up
  have hvisited : ∀ v ∈ visits, v.id ∈ expanded visits := by
    intro v hv
    have hkey := (h.keys.2.2 _).mp (h.key_mem v hv)
    obtain ⟨id', hid', hsame⟩ := List.mem_map.mp (hkey.resolve_left List.not_mem_nil)
    obtain ⟨v', hv', -, rfl⟩ := Report.mem_expanded.mp hid'
    exact hkeys (hreached v' hv') (hreached v hv) hsame ▸ hid'
  constructor
  · intro hid
    obtain ⟨v, hv, -, rfl⟩ := Report.mem_expanded.mp hid
    exact hreached v hv
  · intro hreach
    induction hreach with
    | refl =>
      obtain ⟨v, hv, hedge⟩ := List.mem_map.mp (h.perm.mem_iff.mpr (List.mem_append_left _ List.mem_cons_self))
      obtain rfl : v.id = root := congrArg Prod.snd hedge
      exact hvisited v hv
    | @tail b c _ hstep ih =>
      -- `b` is expanded, so its edge to `c` has a line
      obtain ⟨request, hc⟩ := hstep
      have hedge : (some (b, request), c) ∈ edges g b := List.mem_map_of_mem (Table.mem_entries_of_get? hc)
      obtain ⟨v, hv, hedge⟩ := List.mem_map.mp
        (h.perm.mem_iff.mpr (List.mem_append_right _ (List.mem_flatMap.mpr ⟨b, ih, hedge⟩)))
      obtain rfl : v.id = c := congrArg Prod.snd hedge
      exact hvisited v hv

end Draws

/-! ## Within the limit -/

/-- How many entries have a key that has not come up. -/
def unseen (g : Graph) (seen : List String) : Nat :=
  ((Finset.range g.size).filter fun id => (g.entry id).key ∉ seen).card

theorem unseen_le {g : Graph} {seen seen' : List String} (h : ∀ key ∈ seen, key ∈ seen') :
    unseen g seen' ≤ unseen g seen := by
  refine Finset.card_le_card fun id hid => ?_
  obtain ⟨hlt, hnew⟩ := Finset.mem_filter.mp hid
  exact Finset.mem_filter.mpr ⟨hlt, fun hseen => hnew (h _ hseen)⟩

theorem unseen_lt {g : Graph} {seen : List String} {id : EntryId} (hid : id < g.size)
    (hnew : (g.entry id).key ∉ seen) : unseen g ((g.entry id).key :: seen) < unseen g seen := by
  refine Finset.card_lt_card ⟨fun id' hid' => ?_, fun hsub => ?_⟩
  · obtain ⟨hlt, hnew'⟩ := Finset.mem_filter.mp hid'
    exact Finset.mem_filter.mpr ⟨hlt, fun hseen => hnew' (List.mem_cons_of_mem _ hseen)⟩
  · have hmem := hsub (Finset.mem_filter.mpr ⟨Finset.mem_range.mpr hid, hnew⟩)
    exact (Finset.mem_filter.mp hmem).2 List.mem_cons_self

/-- The text of a line, and of the exports below it. -/
def Visit.lines (l : Loader) (withExports : Bool) (v : Visit) : List String :=
  let e := l.graph.entry v.id
  entryLine l.cache e (v.via.map Prod.snd) v.depth v.isNew ::
    if v.isNew && withExports && e.isLoaded then [exportsLine e v.depth] else []

/-- A report with more lines. -/
def Progress.drawn (l : Loader) (withExports : Bool) (r : Progress) (visits : List Visit) (seen : List String) :
    Progress :=
  ⟨seen, (visits.flatMap (Visit.lines l withExports)).reverse ++ r.lines⟩

section Limit

variable {l : Loader} {withExports : Bool} {limit : Nat}

theorem drawn_drawn (r : Progress) (visits visits' : List Visit) (seen seen' : List String) :
    (r.drawn l withExports visits seen).drawn l withExports visits' seen'
      = r.drawn l withExports (visits ++ visits') seen' := by
  simp [Progress.drawn]

/-- An entry whose key came up before has a line only. -/
theorem showEntry_of_seen {s : Stop} {r : Progress} (h : (l.graph.entry s.id).key ∈ r.seen) :
    showEntry l withExports (limit + 1) s.depth (s.via.map Prod.snd) s.id r
      = r.drawn l withExports [⟨s, false⟩] r.seen := by
  unfold showEntry
  simp [h, Progress.line, Progress.drawn, Visit.lines]

/-- Any other one has its line, and then come the entries below it. -/
theorem showEntry_of_new {s : Stop} {r : Progress} (h : (l.graph.entry s.id).key ∉ r.seen) :
    showEntry l withExports (limit + 1) s.depth (s.via.map Prod.snd) s.id r
      = (l.graph.entry s.id).sortedChildren.foldl
          (fun r c => showEntry l withExports limit (s.depth + 1) (some c.1) c.2 r)
          (r.drawn l withExports [⟨s, true⟩] ((l.graph.entry s.id).key :: r.seen)) := by
  rw [showEntry]
  simp only [List.contains_iff_mem, h, if_false]
  congr 1
  by_cases hexports : (withExports && (l.graph.entry s.id).isLoaded) = true <;>
    simp [hexports, Progress.line, Progress.drawn, Visit.lines]

/-- The entries below an entry are shown one after the other. -/
theorem draws_foldl (ih : ∀ (s : Stop) (r : Progress), unseen l.graph r.seen < limit → ∃ visits seen',
      Draws l.graph r.seen [s] visits seen' ∧
        showEntry l withExports limit s.depth (s.via.map Prod.snd) s.id r = r.drawn l withExports visits seen')
    (depth : Nat) (id : EntryId) (children : List (String × EntryId)) (r : Progress)
    (hr : unseen l.graph r.seen < limit) : ∃ visits seen',
      Draws l.graph r.seen (children.map fun c => ⟨depth, some (id, c.1), c.2⟩) visits seen' ∧
        children.foldl (fun r c => showEntry l withExports limit depth (some c.1) c.2 r) r
          = r.drawn l withExports visits seen' := by
  induction children generalizing r with
  | nil => exact ⟨[], r.seen, .done _, rfl⟩
  | cons c rest ihrest =>
    obtain ⟨visits, seen₁, hdraws, hshown⟩ := ih ⟨depth, some (id, c.1), c.2⟩ r hr
    -- what the first child shows leaves no more to be seen
    have hseen : unseen l.graph seen₁ ≤ unseen l.graph r.seen :=
      unseen_le fun key hkey => (hdraws.keys.2.2 key).mpr (.inl hkey)
    obtain ⟨visits', seen', hdraws', hshown'⟩ :=
      ihrest (r.drawn l withExports visits seen₁) (Nat.lt_of_le_of_lt hseen hr)
    refine ⟨visits ++ visits', seen', hdraws.cons hdraws', ?_⟩
    rw [List.foldl_cons, ← drawn_drawn, ← hshown']
    exact congrArg (rest.foldl _) hshown

/-- While fewer entries are unseen than levels are left, the limit makes no difference. -/
theorem draws_showEntry (l : Loader) (withExports : Bool) (limit : Nat) (s : Stop) (r : Progress)
    (hr : unseen l.graph r.seen < limit) : ∃ visits seen', Draws l.graph r.seen [s] visits seen' ∧
      showEntry l withExports limit s.depth (s.via.map Prod.snd) s.id r = r.drawn l withExports visits seen' := by
  induction limit generalizing s r with
  | zero => cases hr
  | succ limit ih =>
    by_cases hseen : (l.graph.entry s.id).key ∈ r.seen
    · exact ⟨[⟨s, false⟩], r.seen, .again hseen (.done _), showEntry_of_seen hseen⟩
    · obtain ⟨under, seen', hunder, hshown⟩ : ∃ under seen',
          Draws l.graph ((l.graph.entry s.id).key :: r.seen) (s.below l.graph) under seen' ∧
            (l.graph.entry s.id).sortedChildren.foldl
              (fun r c => showEntry l withExports limit (s.depth + 1) (some c.1) c.2 r)
              (r.drawn l withExports [⟨s, true⟩] ((l.graph.entry s.id).key :: r.seen))
              = (r.drawn l withExports [⟨s, true⟩] ((l.graph.entry s.id).key :: r.seen)).drawn l withExports under
                seen' := by
        by_cases hid : s.id < l.graph.size
        · have hfewer : unseen l.graph ((l.graph.entry s.id).key :: r.seen) < limit :=
            Nat.lt_of_lt_of_le (unseen_lt hid hseen) (Nat.le_of_lt_succ hr)
          exact draws_foldl ih (s.depth + 1) s.id _
            (r.drawn l withExports [⟨s, true⟩] ((l.graph.entry s.id).key :: r.seen)) hfewer
        · -- there is no such entry, and so there is nothing below it
          have hnone : l.graph.entry s.id = default := by
            simp only [Graph.size] at hid
            simp [Graph.entry, hid]
          have hchildren : (l.graph.entry s.id).sortedChildren = [] := by
            rw [hnone]
            exact List.mergeSort_nil
          unfold Stop.below
          rw [hchildren]
          exact ⟨[], _, .done _, rfl⟩
      refine ⟨⟨s, true⟩ :: (under ++ []), seen', .anew hseen hunder (.done _), ?_⟩
      rw [List.append_nil, ← List.singleton_append, ← drawn_drawn, ← hshown]
      exact showEntry_of_new hseen

end Limit

/-- The tree below an entry is shown to its end, and there is one way to show it. -/
theorem tree_eq (l : Loader) (withExports : Bool) (root : EntryId) : ∃ visits seen,
    Draws l.graph [] [⟨0, none, root⟩] visits seen ∧
      tree l withExports root = visits.flatMap (Visit.lines l withExports) := by
  have hall : unseen l.graph [] < l.graph.size + 1 := by
    simp [unseen]
  obtain ⟨visits, seen, hdraws, hshown⟩ := draws_showEntry l withExports _ ⟨0, none, root⟩ ⟨[], []⟩ hall
  refine ⟨visits, seen, hdraws, ?_⟩
  unfold tree
  rw [show showEntry l withExports (l.graph.size + 1) 0 none root ⟨[], []⟩ = _ from hshown]
  simp [Progress.drawn]

end Report
end ModGraph
