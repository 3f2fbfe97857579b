import ModGraph.Proofs.Lasting

/-!
# One entry for each file and query

A call that finds a file leaves the entry that it returns in the slot of the file and the query of the
request (`Loader.Obtains.slot`). As slots last, a later call for the same file and query comes to the
same entry; and as each entry has one key, a call for another file or query comes to another.
-/

namespace ModGraph
namespace Loader

variable {l l' : Loader} {op op' : Operation} {file file' : Path} {query query' : Option String} {id id' : EntryId}
  {request : String} {parent : Option EntryId} {isMain : Bool}

/-- A call gives an entry for a file and the query of its request. -/
inductive Obtains (l : Loader) : Operation → Path → Option String → EntryId → Prop where
  | load {request : String} {parent : Option EntryId} {isMain : Bool} {file : Path} {id : EntryId}
      (hfile : l.resolved request parent isMain = .ok (.file file))
      (hid : (l.run (load request parent isMain)).1 = .ok id) :
      Obtains l (.load request parent isMain) file (splitQuery request).2 id
  | discover {request : String} {parent : Option EntryId} {file : Path} {id : EntryId}
      (hfile : l.resolved request parent false = .ok (.file file))
      (hid : (l.run (discover request parent)).1 = .ok id) :
      Obtains l (.discover request parent) file (splitQuery request).2 id

/-! ## Keys -/

theorem unmarked_of_resolved (hu : l.Unmarked) (h : l.resolved request parent isMain = .ok (.file file)) :
    ModGraph.Unmarked file.text := by
  obtain ⟨q, hq⟩ := resolve_of_resolution h
  exact Resolver.unmarked_of_resolve hq hu.names

theorem Obtains.unmarked (h : l.Obtains op file query id) (hu : l.Unmarked) : ModGraph.Unmarked file.text := by
  cases h with
  | load hfile => exact unmarked_of_resolved hu hfile
  | discover hfile => exact unmarked_of_resolved hu hfile

/-- What is found for a file is ready in the slot of its key, where no module is in progress. -/
theorem slot_of_found (ho : l.Orderly) (hidle : ∀ key p id, ¬ l.InProgress key p id)
    (hfile : l.resolved request parent isMain = .ok (.file file))
    (h : l.run (seek request parent isMain) = (.ok (.found id), l')) :
    ∃ p, l'.cache.slot? (cacheKey file (splitQuery request).2) = some (p, .ready id) := by
  obtain ⟨name, hname, -⟩ | ⟨file', l₁, hfile', hhit, rfl⟩ := found_of_seek ho h
  · rw [hfile] at hname
    cases hname
  · obtain rfl : file = file' := by
      rw [hfile] at hfile'
      cases hfile'
      rfl
    have hslots := slot?_classified (l := l.classifying request parent isMain file) ho.exclusive
      (l.target request file).key (l.target request file).fixed (l.target request file).package.isUnexposed
      (l.target request file).key
    rw [hhit] at hslots
    obtain ⟨p, s, hslot, rfl | ⟨rfl, -⟩⟩ := slot_of_hit (congrArg Prod.fst hhit)
    · exact absurd hslot (hidle _ _ _)
    · rw [hslot] at hslots
      obtain ⟨⟨q, s⟩, hq, heq⟩ := Option.map_eq_some_iff.mp hslots
      obtain rfl : s = .ready id := heq
      rw [cache_linked]
      exact ⟨q, hq⟩

/-- A load leaves what it returns in the slot of its file and query. -/
theorem slot_of_load (hc : l.Consistent) (hidle : ∀ key p id, ¬ l.InProgress key p id)
    (hfile : l.resolved request parent isMain = .ok (.file file))
    (hid : (l.run (load request parent isMain)).1 = .ok id) :
    ∃ p, (l.run (load request parent isMain)).2.cache.slot? (cacheKey file (splitQuery request).2)
      = some (p, .ready id) := by
  have hnoted := hc.noted [.enters request .resolving]
  have hanswer : ∀ l', (l.noted [.enters request .resolving]).run
      (answer (loadNested (l.nestingBound request)) request parent isMain) = (.ok id, l') →
      ∃ p, l'.cache.slot? (cacheKey file (splitQuery request).2) = some (p, .ready id) := by
    intro l' hrun
    unfold answer at hrun
    obtain ⟨found, l₁, hseek, hnext⟩ := run_bind_eq_ok.mp hrun
    cases found with
    | found id' =>
      cases hnext
      exact slot_of_found hnoted.toOrderly hidle hfile hseek
    | needs job =>
      have hc₁ : l₁.Consistent := by
        have hsought := hnoted.sought request parent isMain
        rwa [hseek] at hsought
      have hr := ready_of_seek hnoted hseek
      obtain ⟨file', hfile', htarget, -⟩ := needs_of_seek hnoted.toOrderly hseek
      obtain rfl : file = file' := by
        have := hfile.symm.trans hfile'
        cases this
        rfl
      have hkey : job.target.key = cacheKey file (splitQuery request).2 := by rw [htarget]; rfl
      dsimp only at hnext
      rw [Spares.run_perform (Spares.loadNested _) hc₁ hr] at hnext
      generalize hprepare : (l₁.occupied job).run _ = r at hnext
      obtain ⟨e | c, l₂⟩ := r
      · cases hnext
      · cases hnext
        obtain ⟨hc₂, hin⟩ := hr.inProgress_of_prepare hc₁ hprepare
        have ho₂ : (l₂.marked job.id job.target.filename c).Orderly :=
          ⟨hc₂.exclusive, hc₂.unmarked.of_eq rfl rfl⟩
        rw [← hkey, (slot?_concluded ho₂ hin).2, if_pos rfl]
        exact ⟨_, rfl⟩
  unfold load at hid ⊢
  rw [run_bind, run_get, andThen_ok, run_reported] at hid ⊢
  generalize (l.noted [.enters request .resolving]).run _ = r at hid hanswer ⊢
  obtain ⟨e | id', l'⟩ := r
  · cases hid
  · cases hid
    exact hanswer l' rfl

theorem Obtains.slot (h : l.Obtains op file query id) (hl : l.Resting) :
    ∃ p, (l.after op).cache.slot? (cacheKey file query) = some (p, .ready id) := by
  cases h with
  | load hfile hid => exact slot_of_load hl.toConsistent hl.inProgress hfile hid
  | @discover request parent _ _ hfile hid =>
    have hc := hl.toConsistent.withParsing true
    have hidle : ∀ key p id, ¬ (l.withParsing true).InProgress key p id := hl.inProgress
    rw [run_discover] at hid
    obtain ⟨p, hp⟩ := slot_of_load hc hidle hfile hid
    rw [Loader.after, run_discover]
    exact ⟨p, hp⟩

/-! ## Identity -/

/-- Entries keep their keys, whatever happens. -/
theorem develops_after (l : Loader) (op : Operation) : l.graph.Develops (l.after op).graph := by
  cases op with
  | load request parent isMain => exact (Evolves.respects.load request parent isMain l).graph
  | discover request parent =>
    rw [Loader.after, run_discover]
    exact (Evolves.respects.load request parent false (l.withParsing true)).graph
  | resolve request parent =>
    rw [Loader.after, run_resolve]
    exact .refl _
  | registerBuiltin name exports =>
    obtain ⟨hsize, hretains⟩ := l.retains_registerBuiltin name exports
    exact ⟨Nat.le_of_eq hsize.symm, fun _ => .of_retains (hretains _)⟩
  | _ => exact .refl _

/-- After calls that take no slots away, what there was in the cache is still there. -/
theorem Resting.kept (h : l.Resting) (hr : Reachable (· = l) Keeping l') :
    l'.Resting ∧ Kept l l' ∧ l.graph.Develops l'.graph := by
  induction hr with
  | start heq =>
    subst heq
    exact ⟨h, .refl h.toOrderly h.provisional, .refl _⟩
  | @after l₁ op _ hop ih =>
    obtain ⟨hl₁, hkept, hdev⟩ := ih
    exact ⟨hl₁.after hop.regular, hkept.trans (.after hl₁.toConsistent hl₁.provisional hop),
      hdev.trans (develops_after l₁ op)⟩

end Loader
end ModGraph
