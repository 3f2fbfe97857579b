import ModGraph.Proofs.Lasting

/-!
# Parse-only passes

A parse-only pass loads nothing: what it finds in the cache or leaves there is not evaluated, apart from
builtin modules, whose entries stay as they were made (`Loader.Drafted`). Nor does it cut a module off from
the one that first asked for it (`Drafts.load`).
-/

namespace ModGraph

/-- An entry that stays as it is if it is loaded, apart from its children, and that keeps its parent. -/
structure Entry.Idles (e e' : Entry) : Prop where
  isLoaded : e'.isLoaded = e.isLoaded
  parent : e'.parent = e.parent
  rest : e.isLoaded = true → ∃ children, e' = { e with children := children }

namespace Entry.Idles

theorem refl (e : Entry) : e.Idles e := ⟨rfl, rfl, fun _ => ⟨e.children, rfl⟩⟩

theorem trans {e e' e'' : Entry} (h : e.Idles e') (h' : e'.Idles e'') : e.Idles e'' := by
  refine ⟨h'.isLoaded.trans h.isLoaded, h'.parent.trans h.parent, fun hl => ?_⟩
  obtain ⟨children, rfl⟩ := h.rest hl
  obtain ⟨children', heq⟩ := h'.rest hl
  exact ⟨children', heq⟩

theorem update (g : Graph) (id : EntryId) {f : Entry → Entry} (hf : (g.entry id).Idles (f (g.entry id)))
    (id' : EntryId) : (g.entry id').Idles ((g.update id f).entry id') := by
  rw [Graph.entry_update]
  split
  · next h => exact h.1 ▸ hf
  · exact refl _

/-- Of an entry that is not loaded only the parent matters. -/
theorem of_unloaded {e e' : Entry} (h : e.isLoaded = false) (h' : e'.isLoaded = e.isLoaded)
    (hp : e'.parent = e.parent) : e.Idles e' :=
  ⟨h', hp, fun hl => by rw [h] at hl; cases hl⟩

theorem addChild (e : Entry) (request : String) (child : EntryId) : e.Idles (e.addChild request child) :=
  ⟨rfl, rfl, fun _ => ⟨_, rfl⟩⟩

end Entry.Idles

namespace Loader

variable {l l' l₂ : Loader} {job : Job} {limit : Nat}

/-- A loader in a parse-only pass that has not loaded any module, apart from builtin ones. -/
structure Drafted (l : Loader) : Prop where
  parsing : l.cache.parsing = true
  unloaded : ∀ {key p s id}, l.cache.slot? key = some (p, s) → s.entry? = some id →
    id < l.graph.size ∧ (l.graph.entry id).isLoaded = false
  builtin : ∀ {name id}, l.cache.builtins.get? name = some id →
    id < l.graph.size ∧ ∃ children, l.graph.entry id = { l.builtinEntry name with children := children }

/-- A pass that has loaded no module does not do so later. -/
def Drafts (l l' : Loader) : Prop :=
  l.Drafted → l'.Drafted ∧ l.graph.size ≤ l'.graph.size ∧
    ∀ {id}, id < l.graph.size → (l'.graph.entry id).parent = (l.graph.entry id).parent

/-- Where a module goes and whether its parent is severed is all there is to the graph when it takes its
place. -/
theorem graph_concluded (l : Loader) (job : Job) : (l.concluded job).graph =
    let g := (l.linked job.referrer job.request job.id).graph
    if l.cache.parsing = false ∧ severs job.referrer (l.graph.entry job.id).format = true then
      g.update job.id fun e => { e with parent := none }
    else g := by
  have hsettled : (l.settled job).cache.parsing = l.cache.parsing := by
    unfold settled
    dsimp only
    rw [Cache.parsing_set]
    split
    · unfold Cache.commit
      split
      · rfl
      · dsimp only
        split <;> simp
    · rfl
  have hlinked : ((l.settled job).noted [.enters job.target.key .linking]).linked job.referrer job.request job.id
      = { (l.settled job).noted [.enters job.target.key .linking] with
        graph := (l.linked job.referrer job.request job.id).graph } := by
    cases job.referrer <;> rfl
  unfold concluded concealed
  dsimp only
  rw [hlinked]
  show (if (l.settled job).cache.parsing = true then _ else _ : Loader).graph = _
  rw [hsettled]
  cases l.cache.parsing with
  | true => simp
  | false =>
    simp only [Bool.false_eq_true, if_false, true_and]
    split <;> split <;> rfl

theorem Drafted.refl (h : l.Drafted) : l.Drafted ∧ l.graph.size ≤ l.graph.size ∧
    ∀ {id}, id < l.graph.size → (l.graph.entry id).parent = (l.graph.entry id).parent :=
  ⟨h, Nat.le_refl _, fun _ => rfl⟩

namespace Drafts

instance : IsPreorder Loader Drafts where
  refl _ h := h.refl
  trans _ _ _ h h' hd := by
    obtain ⟨hd', hsize, hparent⟩ := h hd
    obtain ⟨hd'', hsize', hparent'⟩ := h' hd'
    exact ⟨hd'', Nat.le_trans hsize hsize', fun hid =>
      (hparent' (Nat.lt_of_lt_of_le hid hsize)).trans (hparent hid)⟩

/-- It is enough to look at the entries of the slots, and at the other entries that there were. -/
theorem of_entries (hs : l.Drafted → ∀ {key p s id}, l'.cache.slot? key = some (p, s) → s.entry? = some id →
      id < l.graph.size ∧ (l.graph.entry id).isLoaded = false)
    (hb : l'.cache.builtins = l.cache.builtins) (hp : l'.cache.parsing = l.cache.parsing)
    (hmade : ∀ name, l'.builtinEntry name = l.builtinEntry name) (hsize : l.graph.size ≤ l'.graph.size)
    (hentry : l.Drafted → ∀ {id}, id < l.graph.size → (l.graph.entry id).Idles (l'.graph.entry id)) :
    Drafts l l' := by
  refine fun h => ⟨⟨hp.trans h.parsing, fun hk hid => ?_, fun {name id} hget => ?_⟩, hsize,
    fun hid => (hentry h hid).parent⟩
  · obtain ⟨hlt, hl⟩ := hs h hk hid
    exact ⟨Nat.lt_of_lt_of_le hlt hsize, (hentry h hlt).isLoaded.trans hl⟩
  · rw [hb] at hget
    obtain ⟨hlt, children, heq⟩ := h.builtin hget
    refine ⟨Nat.lt_of_lt_of_le hlt hsize, ?_⟩
    obtain ⟨children', heq'⟩ := (hentry h hlt).rest (by rw [heq]; rfl)
    exact ⟨children', by rw [heq', heq, hmade]⟩

theorem of_slots (hs : ∀ key, l'.cache.slot? key = l.cache.slot? key)
    (hb : l'.cache.builtins = l.cache.builtins) (hp : l'.cache.parsing = l.cache.parsing)
    (hmade : ∀ name, l'.builtinEntry name = l.builtinEntry name) (hsize : l.graph.size ≤ l'.graph.size)
    (hentry : l.Drafted → ∀ {id}, id < l.graph.size → (l.graph.entry id).Idles (l'.graph.entry id)) :
    Drafts l l' :=
  of_entries (fun h {key _ _ _} hk => h.unloaded ((hs key).symm.trans hk)) hb hp hmade hsize hentry

theorem of_graph (hc : l'.cache = l.cache) (hmade : ∀ name, l'.builtinEntry name = l.builtinEntry name)
    (hg : l'.graph = l.graph) : Drafts l l' :=
  of_slots (fun _ => by rw [hc]) (by rw [hc]) (by rw [hc]) hmade (by rw [hg]) fun _ _ _ => by
    rw [hg]
    exact .refl _

theorem linked (l : Loader) (referrer : Option Referrer) (request : String) (child : EntryId) :
    Drafts l (l.linked referrer request child) := by
  cases referrer with
  | none => exact refl l
  | some r =>
    exact of_slots (fun _ => rfl) rfl rfl (fun _ => rfl) (by simp [Loader.linked]) fun _ {id} _ =>
      .update l.graph r.id (f := fun e => e.addChild request child) (.addChild _ _ _) id

theorem builtinOf (l : Loader) (name : String) : Drafts l (l.builtinOf name).2 := by
  unfold Loader.builtinOf
  cases hb : l.cache.builtins.get? name with
  | some id => exact refl l
  | none =>
    intro h
    have hold : ∀ {id}, id < l.graph.size →
        (l.graph.add (l.builtinEntry name)).1.entry id = l.graph.entry id := Graph.entry_add_of_lt _ _
    refine ⟨⟨h.parsing, fun {key p s id} hk hid => ?_, fun {name' id} hget => ?_⟩, by simp, fun hid => ?_⟩
    · have hk' : l.cache.slot? key = some (p, s) :=
        (Cache.slot?_congr fun q => by cases q <;> rfl).symm.trans hk
      obtain ⟨hlt, hl⟩ := h.unloaded hk' hid
      exact ⟨Nat.lt_of_lt_of_le hlt (by simp), by rw [hold hlt]; exact hl⟩
    · change (l.cache.builtins.insert name l.graph.size).get? name' = some id at hget
      rw [Table.get?_insert] at hget
      split at hget
      · next hname =>
        cases hget
        refine ⟨by simp, (l.builtinEntry name).children, ?_⟩
        exact (Graph.entry_add_self _ _).trans (hname ▸ rfl)
      · obtain ⟨hlt, children, heq⟩ := h.builtin hget
        exact ⟨Nat.lt_of_lt_of_le hlt (by simp), children, (hold hlt).trans heq⟩
    · rw [hold hid]

theorem seeks : Seeks Drafts where
  toIsPreorder := inferInstance
  noted _ _ _ := of_graph rfl (fun _ => rfl) rfl
  packaged {l _ _ _ file} _ := by
    refine of_graph rfl (fun name => ?_) rfl
    have hdefaults := defaults_contextForFile l.packages (l.manifests l.files) file
    simp only [builtinEntry, packaged, PackageContexts.defaultContext, hdefaults]
  linked := linked
  builtinOf := builtinOf
  classified l key := by
    intro h
    obtain ⟨events, -, heq⟩ | ⟨id, -, hparsing, -⟩ := l.loader_classified key (Format.ofPath? (keyFile key))
      (l.packageOf (keyFile key)).isUnexposed
    · rw [heq]
      exact of_graph rfl (fun _ => rfl) rfl h
    · rw [h.parsing] at hparsing
      cases hparsing
  added l e := of_slots (fun _ => rfl) rfl rfl (fun _ => rfl) (by simp) fun _ _ hid => by
    rw [Graph.entry_add_of_lt _ _ hid]
    exact .refl _

theorem of_reading {α : Type} {action : LoadM α} (hq : Follows Quiet action) (he : Follows Evolves action)
    (l : Loader) : Drafts l (l.run action).2 :=
  of_graph (hq l).cache (fun name => by
    simp only [builtinEntry, PackageContexts.defaultContext, (he l).defaults, (he l).builtinExports]) (hq l).graph

theorem occupied (hd : l.Due job) : Drafts l (l.occupied job) := by
  have hsame : (l.occupied job).cache.builtins = l.cache.builtins ∧
      (l.occupied job).cache.parsing = l.cache.parsing ∧
      ∀ name, (l.occupied job).builtinEntry name = l.builtinEntry name := by
    unfold Loader.occupied
    split <;> simp [builtinEntry]
  have hready := hd.ready
  refine of_entries (fun h {key p s id} hk hid => ?_) hsame.1 hsame.2.1 hsame.2.2
    (Nat.le_of_eq (size_occupied l job).symm) fun h {id} hid => ?_
  · rw [hready.slot?_occupied] at hk
    split at hk
    · cases hk
      cases hid
      exact ⟨hready.inRange, hready.unloaded⟩
    · exact h.unloaded hk hid
  · by_cases hne : id = job.id
    · subst hne
      obtain ⟨name, hname⟩ := named_occupied l job job.id
      rw [hname]
      exact .of_unloaded hready.unloaded rfl rfl
    · rw [(entry_occupied l job id).2.2 hne]
      exact .refl _

/-- A module that was parsed is not loaded when it takes its place. -/
theorem concluded (hc : l.Consistent) (hd : l.Due job) {c : Compilation}
    (hrun : (l.occupied job).run (prepare (loadNested limit) job.id job.target.filename) = (.ok c, l₂)) :
    Drafts l₂ ((l₂.marked job.id job.target.filename c).concluded job) := by
  obtain ⟨hc₂, hin⟩ := hd.ready.inProgress_of_prepare hc hrun
  obtain ⟨hparsing, hparsing₂⟩ := parsing_of_prepare hrun
  have hevolves := (evolves_marked l₂ job.id job.target.filename c).trans (evolves_concluded hin)
  have ho : (l₂.marked job.id job.target.filename c).Orderly := ⟨hc₂.exclusive, hc₂.unmarked.of_eq rfl rfl⟩
  refine of_entries (fun h {key p s id} hk hid => ?_) (builtins_concluded _ _) hevolves.cache.parsing
    (fun name => ?_) hevolves.graph.size fun h {id} hlt => ?_
  · rw [(slot?_concluded ho hin).2] at hk
    split at hk
    · cases hk
      cases hid
      exact h.unloaded hin rfl
    · exact h.unloaded hk hid
  · simp only [builtinEntry, PackageContexts.defaultContext, hevolves.defaults, hevolves.builtinExports]
  · have hpass : c.parsing = true := hparsing.trans (hparsing₂.symm.trans h.parsing)
    have hunloaded := (h.unloaded hin rfl).2
    have hmarked : (l₂.graph.entry id).Idles ((l₂.marked job.id job.target.filename c).graph.entry id) := by
      have hpaths : ∀ id, (l₂.graph.entry id).Idles
          ((if (l₂.graph.entry job.id).format ≠ c.format then l₂.graph.update job.id fun e =>
            e.setPaths (searchPaths l₂.resolver e.package e.format job.target.filename) else l₂.graph).entry id) := by
        intro id
        split
        · exact .update _ _ (.of_unloaded hunloaded rfl rfl) _
        · exact .refl _
      refine (hpaths id).trans ?_
      unfold marked
      dsimp only
      rw [hpass]
      refine .update _ _ (.of_unloaded ?_ rfl rfl) _
      rw [(hpaths job.id).isLoaded]
      exact hunloaded
    refine hmarked.trans ?_
    have hgraph := graph_concluded (l₂.marked job.id job.target.filename c) job
    rw [show (l₂.marked job.id job.target.filename c).cache.parsing = true from h.parsing] at hgraph
    simp only [Bool.true_eq_false, false_and, if_false] at hgraph
    rw [hgraph]
    cases job.referrer with
    | none => exact .refl _
    | some r => exact .update _ _ (.addChild _ _ _) _

theorem loads : Loads Drafts (fun _ _ => True) where
  toIsPreorder := inferInstance
  weaken _ := trivial
  absorb _ _ := trivial
  trail _ _ := trivial
  report _ := fun _ => of_graph rfl (fun _ => rfl) rfl
  source {l key _ _} _ _ := of_reading (Quiet.reading.source _) (Evolves.reading.source _) l
  program {l key _ _} _ _ := of_reading (Quiet.reading.program _) (Evolves.reading.program _) l
  seek hc request parent isMain := seeks.seek hc.toOrderly request parent isMain
  write {l key p id} hc hin f hf :=
    of_slots (fun _ => rfl) rfl rfl (fun _ => rfl) (by simp) fun h {id'} _ =>
      .update l.graph id (.of_unloaded (h.unloaded hin rfl).2 (hf _).loaded (hf _).parent) id'
  fails _ _ _ _ := trivial
  succeeds hc hd hrun h := IsTrans.trans _ _ _ (IsTrans.trans _ _ _ (occupied hd) h) (concluded hc hd hrun)

end Drafts
end Loader
end ModGraph
