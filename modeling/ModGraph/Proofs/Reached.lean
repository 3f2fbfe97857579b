import ModGraph.Proofs.Completeness
import ModGraph.Proofs.Permanence

/-!
# What is reached from a loaded module

Everything that a load puts into the cache can be reached from the entry that it returns, by the edges of the graph
(`Loader.covers_of_load`). A module that is compiled gets an edge to whatever is loaded for it, so what was loaded for
that can be reached from it as well; and no edge that leads somewhere leads elsewhere later on
(`Loader.reaches_of_grows`). No entry ever has two edges for one request. A load that succeeds poisons nothing.
-/

namespace ModGraph

open Loader (Job)
open Relation (ReflTransGen)

namespace Graph

/-- An entry has an edge to another one. -/
def Asks (g : Graph) (id child : EntryId) : Prop := ∃ request, (g.entry id).children.get? request = some child

/-- There is a way along the edges from an entry to another one. -/
def Reaches (g : Graph) : EntryId → EntryId → Prop := ReflTransGen g.Asks

/-- No entry has two edges for one request. -/
def Simple (g : Graph) : Prop := ∀ id, (g.entry id).children.keys.Nodup

end Graph

/-- What the cache leads to, and did not before, can be reached from an entry, and there still is one edge for each
request. -/
structure View.Covers (v v' : View) (root : EntryId) : Prop where
  leads : ∀ {ref id}, v'.Leads ref id → v.Leads ref id ∨ v'.graph.Reaches root id
  simple : v.graph.Simple → v'.graph.Simple

theorem Table.nodup_insert {κ α : Type} [DecidableEq κ] {t : Table κ α} (h : t.keys.Nodup) (k : κ) (a : α) :
    (t.insert k a).keys.Nodup := by
  obtain ⟨entries⟩ := t
  change (entries.map (·.1)).Nodup at h
  change ((Table.put k a entries).map (·.1)).Nodup
  induction entries with
  | nil => simp [Table.put]
  | cons e rest ih =>
    obtain ⟨k', b⟩ := e
    obtain ⟨hnew, hrest⟩ := List.nodup_cons.mp h
    unfold Table.put
    split
    · next heq => exact heq ▸ h
    · next hne =>
      refine List.nodup_cons.mpr ⟨fun hmem => ?_, ih hrest⟩
      have hfound := (Table.find?_isSome_iff k' (Table.put k a rest)).mpr hmem
      rw [Table.find?_put, if_neg (Ne.symm hne)] at hfound
      exact hnew ((Table.find?_isSome_iff k' rest).mp hfound)

namespace Graph.Simple

variable {g g' : Graph}

theorem of_children (h : g.Simple) (hc : ∀ id, (g'.entry id).children = (g.entry id).children) : g'.Simple := by
  intro id
  rw [hc]
  exact h id

theorem update (h : g.Simple) (id : EntryId) {f : Entry → Entry}
    (hf : ∀ e : Entry, e.children.keys.Nodup → (f e).children.keys.Nodup) : (g.update id f).Simple := by
  intro id'
  rw [Graph.entry_update]
  split
  · exact hf _ (h id')
  · exact h id'

/-- The edges of a new entry are still to come. -/
theorem add (h : g.Simple) {e : Entry} (he : e.children = .empty) : (g.add e).1.Simple := by
  intro id
  rcases Nat.lt_trichotomy id g.size with hlt | rfl | hgt
  · rw [Graph.entry_add_of_lt _ _ hlt]
    exact h id
  · rw [show (g.add e).1.entry g.size = e from Graph.entry_add_self g e, he]
    exact List.nodup_nil
  · have hnone : (g.add e).1.entry id = default := by
      have hsize : ¬ id < (g.entries.push e).size := by
        rw [Array.size_push]
        exact Nat.not_lt.mpr hgt
      simp [Graph.add, Graph.entry, Array.getElem?_eq_none (Nat.not_lt.mp hsize)]
    rw [hnone]
    exact List.nodup_nil

theorem linked {v : View} (h : v.graph.Simple) (parent : Option EntryId) (request : String) (child : EntryId) :
    (v.linked parent request child).graph.Simple := by
  cases parent with
  | none => exact h
  | some id => exact h.update id fun e he => Table.nodup_insert he request child

end Graph.Simple

namespace View

variable {v v' v'' : View} {ref ref' : Ref} {root id : EntryId} {s : Slot}

theorem leads_of_held (h : v'.held = v.held) : v'.Leads ref id ↔ v.Leads ref id := by
  unfold Leads
  rw [h]

theorem Covers.of_held (h : v'.held = v.held) (hs : v.graph.Simple → v'.graph.Simple) (root : EntryId) :
    Covers v v' root := ⟨fun hl => .inl ((leads_of_held h).mp hl), hs⟩

/-- A slot is put. -/
theorem leads_put (h : (v.put ref s).Leads ref' id) : v.Leads ref' id ∨ ref = ref' ∧ s.entry? = some id := by
  obtain ⟨s', hs', hid⟩ := h
  rcases of_held_put hs' with ⟨heq, rfl⟩ | hs'
  · exact .inr ⟨heq, hid⟩
  · exact .inl ⟨s', hs', hid⟩

end View

namespace Loader

variable {w : World} {parsing isMain : Bool} {l l' l₁ l₂ : Loader} {job : Job} {limit : Nat} {request : String}
  {parent : Option EntryId} {id child root : EntryId} {v : View} {ref : Ref}

/-! ## Edges that stay -/

/-- Edges lead on to what the cache leads to, and where they lead once they lead later on. -/
theorem asks_of_grows (hw : l.view.Woven w parsing) (hw' : v.Woven w parsing) (hg : l.view.Grows v)
    (hid : ∃ ref, l.view.Leads ref id) (h : l.graph.Asks id child) :
    v.graph.Asks id child ∧ ∃ ref, l.view.Leads ref child := by
  obtain ⟨ref, hleads⟩ := hid
  obtain ⟨request, hc⟩ := h
  have hled := hleads
  obtain ⟨s, hs, hentry⟩ := hled
  cases ref with
  | builtin name =>
    obtain ⟨made, -, rfl⟩ := held_builtin.mp hs
    cases hentry
    -- builtin modules have no edges
    cases ((hw.leaf hs).2 request).symm.trans hc
  | module key =>
    have hedge := hw.edge hs hentry hc
    obtain ⟨child', hc'⟩ :=
      Option.isSome_iff_exists.mp (hg.edge (hw.inRange hs hentry) (Option.isSome_iff_exists.mpr ⟨child, hc⟩))
    obtain ⟨s', hs', hentry'⟩ := hg.leads hleads
    -- the request has one answer only, whether it is given before or after
    obtain rfl := (hedge.mono hg.leads).unique (hw'.edge hs' hentry' hc')
    obtain ⟨_, _, found, -, -, -, hled⟩ := hedge
    exact ⟨⟨request, hc'⟩, _, hled⟩

theorem reaches_of_grows (hw : l.view.Woven w parsing) (hw' : v.Woven w parsing) (hg : l.view.Grows v)
    (hroot : ∃ ref, l.view.Leads ref root) (h : l.graph.Reaches root id) :
    v.graph.Reaches root id ∧ ∃ ref, l.view.Leads ref id := by
  induction h with
  | refl => exact ⟨.refl, hroot⟩
  | tail _ hstep ih =>
    obtain ⟨hreach, hled⟩ := ih
    obtain ⟨hasks, hled'⟩ := asks_of_grows hw hw' hg hled hstep
    exact ⟨hreach.tail hasks, hled'⟩

/-- What can be reached in the middle can be reached in the end. -/
theorem covers_trans (hw : l₁.view.Woven w parsing) (hw' : v.Woven w parsing) (hg : l₁.view.Grows v)
    (hroot : ∃ ref, l₁.view.Leads ref root) (h : l.view.Covers l₁.view root) (h' : l₁.view.Covers v root) :
    l.view.Covers v root := by
  refine ⟨fun hl => ?_, fun hs => h'.simple (h.simple hs)⟩
  rcases h'.leads hl with hl₁ | hreach
  · exact (h.leads hl₁).imp_right fun hreach => (reaches_of_grows hw hw' hg hroot hreach).1
  · exact .inr hreach

/-! ## One request -/

/-- What is found was there before, or it is the builtin module that is asked for. -/
theorem covers_of_found (he : l.Engaged w parsing)
    (hseek : l.run (seek request parent isMain) = (.ok (.found child), l')) : l.view.Covers l'.view child := by
  obtain ⟨name, -, rfl, rfl⟩ | ⟨file, l₁, -, hhit, rfl⟩ := found_of_seek he.toConsistent.toOrderly hseek
  · rw [view_linked]
    have hnoted : (l.retried request parent isMain).view = l.view := rfl
    cases hb : (l.retried request parent isMain).cache.builtins.get? name with
    | some made =>
      have hsame : (l.retried request parent isMain).builtinOf name = (made, l.retried request parent isMain) := by
        unfold builtinOf
        rw [hb]
      rw [hsame]
      exact .of_held (View.held_linked _ _ _ _) (fun hs => hs.linked _ _ _) _
    | none =>
      -- a new entry is made, and it is the one that is returned
      have hid : ((l.retried request parent isMain).builtinOf name).1 = l.graph.size := by
        unfold builtinOf
        rw [hb]
        rfl
      rw [view_builtinOf hb, hid, hnoted]
      have hadded : l.graph.Simple → (l.graph.add (l.builtinEntry name)).1.Simple := fun hs => hs.add rfl
      refine ⟨fun hl => ?_, fun hs => Graph.Simple.linked (hadded hs) _ _ _⟩
      rcases View.leads_put ((View.leads_of_held (View.held_linked _ _ _ _)).mp hl) with hl | ⟨-, hid⟩
      · exact .inl hl
      · exact .inr (Option.some.inj hid ▸ .refl)
  · have hview := view_classified (he.toConsistent.classifying request parent isMain file).exclusive
      (l.target request file).key (l.target request file).fixed (l.target request file).package.isUnexposed
    rw [hhit] at hview
    have hheld : ((l₁.noted [.enters (l.target request file).key .cacheHit]).linked (l.referrer? parent)
        request child).view.held = l.view.held := by
      rw [view_linked, View.held_linked]
      exact congrArg View.held hview
    refine .of_held hheld (fun hs => ?_) child
    rw [view_linked]
    exact Graph.Simple.linked (hview ▸ hs) _ _ _

/-- A module that is to be compiled has no slot yet, or it was parsed before. -/
theorem held_of_needs (he : l.Engaged w parsing)
    (hseek : l.run (seek request parent isMain) = (.ok (.needs job), l')) :
    l'.view.held = l.view.held ∧ (l.graph.Simple → l'.graph.Simple) := by
  obtain ⟨file, -, -, -, -, -, hclass⟩ := needs_of_seek he.toConsistent.toOrderly hseek
  dsimp only at hclass
  have hview := view_classified (he.toConsistent.classifying request parent isMain file).exclusive
    job.target.key job.target.fixed job.target.package.isUnexposed
  have hheld : ((l.classifying request parent isMain file).classified job.target.key job.target.fixed
      job.target.package.isUnexposed).2.view.held = l.view.held := congrArg View.held hview
  have hgraph : ((l.classifying request parent isMain file).classified job.target.key job.target.fixed
      job.target.package.isUnexposed).2.graph = l.graph := congrArg View.graph hview
  rcases hclass with ⟨-, rfl⟩ | ⟨-, -, rfl⟩
  · exact ⟨hheld, fun hs => hgraph ▸ hs⟩
  · refine ⟨hheld, fun hs => ?_⟩
    show (Graph.add _ _).1.Simple
    exact Graph.Simple.add (hgraph ▸ hs) rfl

/-! ## Compiling -/

/-- What nested loads put into the cache can be reached from what they return. -/
def Spreads (w : World) (parsing : Bool) (nested : NestedLoad) : Prop :=
  ∀ {l l' : Loader} {request : String} {id child : EntryId}, l.Engaged w parsing → l.Surveyed w →
    l.view.Woven w parsing → l.Rightful w request (some id) false → l.run (nested request id) = (.ok child, l') →
      l.view.Covers l'.view child

namespace Weaving

variable {before format : Format} {asked : List String} {t t' : Task}

theorem leads (h : l.Weaving w parsing job before format asked t) : ∃ ref, l.view.Leads ref job.id :=
  ⟨_, _, held_of_slot? h.running, rfl⟩

/-- What is loaded for a module can be reached from it. -/
theorem covers (hn : Spreads w parsing (loadNested limit)) (h : l.Weaving w parsing job before format asked t)
    (hs : l.run (stepTask (loadNested limit) job.id job.target.filename t) = (.ok (some t'), l')) :
    l.view.Covers l'.view job.id := by
  by_cases hrequire : ∃ request next, t = .require request next
  · obtain ⟨request, next, rfl⟩ := hrequire
    obtain ⟨child, l₁, hnested, hrest⟩ := run_bind_eq_ok.mp hs
    cases hrest
    have hweaves := weaver_loadNested w parsing limit h.toEngaged h.surveyed h.woven h.rightful hnested
    -- the module has an edge to what it required, and the rest hangs on that
    have hasks : l'.graph.Asks job.id child := ⟨request, hweaves.edge _ rfl⟩
    have hcovers := hn h.toEngaged h.surveyed h.woven h.rightful hnested
    exact ⟨fun hl => (hcovers.leads hl).imp_right (.head hasks), hcovers.simple⟩
  · have hnone : t.request? = none := by
      cases t with
      | require request next => exact absurd ⟨_, _, rfl⟩ hrequire
      | _ => rfl
    have hstill : Still l l' := (Still.stepTask hnone).run_ok hs
    exact .of_held hstill.held (fun h => h.of_children hstill.children) _

theorem covers_steps (hn : Spreads w parsing (loadNested limit)) {a b : Task × Loader}
    (h : a.2.Weaving w parsing job before format asked a.1)
    (hs : ReflTransGen (Moment.TaskStep (loadNested limit) job.id job.target.filename) a b) :
    ∃ format' asked', b.2.Weaving w parsing job before format' asked' b.1 ∧ a.2.view.Covers b.2.view job.id := by
  induction hs with
  | refl => exact ⟨_, _, h, .of_held rfl id _⟩
  | tail _ hstep ih =>
    obtain ⟨_, _, h', hcovers⟩ := ih
    obtain ⟨_, _, hgrows, h''⟩ := h'.step (weaver_loadNested w parsing limit) hstep
    exact ⟨_, _, h'', covers_trans h'.woven h''.woven hgrows h'.leads hcovers (h'.covers hn hstep)⟩

end Weaving

/-- At the end of a compilation nothing else is put into the cache. -/
theorem leads_of_concluded {c : Compilation} (ho : (l.marked job.id job.target.filename c).Orderly)
    (hin : l.InProgress job.target.key job.partition job.id)
    (h : ((l.marked job.id job.target.filename c).concluded job).view.Leads ref id) : l.view.Leads ref id := by
  have hmarked : (l.marked job.id job.target.filename c).view.held = l.view.held := by
    rw [view_marked]
    rfl
  have hrunning : (l.marked job.id job.target.filename c).InProgress job.target.key job.partition job.id := hin
  have hheld : ((l.marked job.id job.target.filename c).concluded job).view.held
      = (l.view.put (.module job.target.key) (.ready job.id)).held := by
    rw [view_concluded ho hrunning]
    dsimp only
    split <;> simp only [View.put, View.update, View.held_linked, hmarked]
  rcases View.leads_put ((View.leads_of_held hheld).mp h) with hl | ⟨rfl, hid⟩
  · exact hl
  · exact ⟨_, held_of_slot? hin, hid⟩

/-- At the end of a compilation the module is linked, and no entry gets another edge. -/
theorem simple_concluded {c : Compilation} (h : l.graph.Simple) :
    ((l.marked job.id job.target.filename c).concluded job).graph.Simple := by
  have hmarked : (l.marked job.id job.target.filename c).view.graph.Simple := by
    rw [view_marked]
    refine Graph.Simple.update h job.id fun e he => ?_
    obtain ⟨_, -, heq⟩ := e.marked_eq l.resolver job.target.filename c
    rw [heq]
    exact he
  have hlinked :
      ((l.marked job.id job.target.filename c).linked job.referrer job.request job.id).view.graph.Simple := by
    rw [view_linked]
    exact hmarked.linked _ _ _
  rw [graph_concluded]
  dsimp only
  split
  · exact hlinked.update job.id fun e he => he
  · exact hlinked

/-- At the end of a compilation no edge is lost. -/
theorem Weaving.grows_concluded {before format : Format} {asked : List String} {c : Compilation}
    (h : l.Weaving w parsing job before format asked .done) (hparsing : c.parsing = parsing) :
    l.view.Grows ((l.marked job.id job.target.filename c).concluded job).view := by
  have hrunning : (l.marked job.id job.target.filename c).InProgress job.target.key job.partition job.id := h.running
  obtain ⟨hgrows, -⟩ := h.finished hparsing
  have hview := view_concluded (l := l.marked job.id job.target.filename c)
    ⟨h.exclusive, h.unmarked.of_eq rfl rfl⟩ hrunning
  rw [View.put_linked] at hview
  generalize (l.marked job.id job.target.filename c).view.put _ _ = v at hgrows hview
  have hlinked := hgrows.trans (View.Grows.linked v (job.referrer.map Referrer.id) job.request job.id)
  rw [hview]
  dsimp only
  split
  · refine hlinked.trans (.of_held rfl (Nat.le_of_eq (Graph.size_update _ _ _).symm) fun _ => ?_)
    exact (View.entry_update _ job.id (f := fun e => { e with parent := none }) (fun _ => ⟨rfl, rfl⟩) _).1
  · exact hlinked

/-- A module that is compiled reaches what was loaded for it. -/
theorem covers_of_perform (hn : Spreads w parsing (loadNested limit)) (he : l.Engaged w parsing) (hs : l.Surveyed w)
    (hw : l.view.Woven w parsing) (hr : l.Rightful w request parent isMain)
    (hseek : l.run (seek request parent isMain) = (.ok (.needs job), l₁))
    (hrun : l₁.run (perform (loadNested limit) job) = (.ok child, l')) : l.view.Covers l'.view child := by
  have hc := he.toConsistent
  have hd : l₁.Due job := ⟨l, request, parent, isMain, hc, hseek⟩
  obtain ⟨-, hwoven⟩ := woven_of_needs he hw hseek
  have he₁ : l₁.Engaged w parsing := by
    have h₁ := he.seek request parent isMain
    rwa [hseek] at h₁
  have hs₁ : l₁.Surveyed w := by
    have h₁ := Surveyed.loads.seek hc request parent isMain hs
    rwa [hseek] at h₁
  have hweaves := weaves_of_perform (weaver_loadNested w parsing limit) he hs hw hr hseek hrun
  rw [Spares.run_perform (Spares.loadNested limit) he₁.toConsistent hd.ready] at hrun
  generalize hprepare : (l₁.occupied job).run (prepare (loadNested limit) job.id job.target.filename) = r at hrun
  obtain ⟨e | c, l₂⟩ := r
  · cases hrun
  cases hrun
  have hparsing : c.parsing = parsing := (parsing_of_prepare hprepare).1.trans he₁.parsing
  obtain ⟨rfl, htask⟩ := compiled_of_prepare hprepare
  obtain ⟨-, hbegun⟩ := Weaving.begun he₁ hs₁ hd hwoven
  obtain ⟨_, _, hdone, hcovers⟩ := hbegun.covers_steps hn (Moment.taskSteps_of_run htask)
  have hgrows := hdone.grows_concluded hparsing
  obtain ⟨hsought, hsimple⟩ := held_of_needs he hseek
  refine ⟨fun {ref id} hl => ?_, fun hs => simple_concluded (hcovers.simple ?_)⟩
  · have hled := leads_of_concluded ⟨hdone.exclusive, hdone.unmarked.of_eq rfl rfl⟩ hdone.running hl
    rcases hcovers.leads hled with hbefore | hreach
    · -- when its compilation began, only the module itself was new
      have hoccupied : (l₁.occupied job).view.Leads ref id := by
        refine (View.leads_of_held ?_).mp hbefore
        rw [view_begun]
        rfl
      have hheld : (l₁.occupied job).view.held = (l₁.view.put (.module job.target.key) (.loading job.id)).held :=
        held_view hd.ready.slot?_occupied (builtins_occupied l₁ job)
      rcases View.leads_put ((View.leads_of_held hheld).mp hoccupied) with hl₁ | ⟨-, hid⟩
      · exact .inl ((View.leads_of_held hsought).mp hl₁)
      · exact .inr (Option.some.inj hid ▸ .refl)
    · exact .inr (reaches_of_grows hdone.woven hweaves.woven hgrows hdone.leads hreach).1
  · have hoccupied : (l₁.occupied job).view.graph.Simple := (hsimple hs).of_children fun id => by
      obtain ⟨name, hname⟩ := named_occupied l₁ job id
      show ((l₁.occupied job).graph.entry id).children = _
      rw [hname]
    rw [view_begun]
    exact hoccupied.update job.id fun e he => he

theorem covers_of_answer (hn : Spreads w parsing (loadNested limit)) (he : l.Engaged w parsing) (hs : l.Surveyed w)
    (hw : l.view.Woven w parsing) (hr : l.Rightful w request parent isMain)
    (hrun : l.run (answer (loadNested limit) request parent isMain) = (.ok child, l')) :
    l.view.Covers l'.view child := by
  obtain ⟨finding, l₁, hseek, hnext⟩ := run_bind_eq_ok.mp hrun
  cases finding with
  | found id =>
    cases hnext
    exact covers_of_found he hseek
  | needs job => exact covers_of_perform hn he hs hw hr hseek hnext

theorem covers_of_reported (hn : Spreads w parsing (loadNested limit)) (he : l.Engaged w parsing) (hs : l.Surveyed w)
    (hw : l.view.Woven w parsing) (hr : l.Rightful w request parent isMain)
    (hrun : l.run (reported request (answer (loadNested limit) request parent isMain)) = (.ok child, l')) :
    l.view.Covers l'.view child := by
  rw [run_reported] at hrun
  generalize hanswer : (l.noted [.enters request .resolving]).run _ = r at hrun
  obtain ⟨e | id, l₁⟩ := r
  · cases hrun
  · cases hrun
    have hcovers := covers_of_answer hn (he.noted (.enters request .resolving)) (Surveyed.seeks.noted l rfl hs) hw hr
      hanswer
    exact hcovers

/-- However deep requests nest, what is loaded for a module can be reached from it. -/
theorem spreads_loadNested (w : World) (parsing : Bool) (limit : Nat) : Spreads w parsing (loadNested limit) := by
  induction limit with
  | zero =>
    -- a load beyond the limit fails
    intro l l' request id child _ _ _ _ hrun
    cases hrun
  | succ limit ih =>
    intro l l' request id child he hs hw hr hrun
    exact covers_of_reported ih he hs hw hr hrun

/-! ## From the root of the graph -/

/-- What a load puts into the cache can be reached from what it returns. -/
theorem Meshed.covers_of_load (h : l.Meshed w) (hrun : l.run (Loader.load request none isMain) = (.ok root, l')) :
    l.view.Covers l'.view root := by
  rw [run_load] at hrun
  exact covers_of_reported (spreads_loadNested w false _) h.toEngaged h.surveyed h.woven
    (rightful_none w l request isMain) hrun

/-- So can what a discovery puts into the cache, which what it returns is a part of. -/
theorem Meshed.covers_of_discover (h : l.Meshed w) (hrun : l.run (Loader.discover request none) = (.ok root, l')) :
    l.view.Covers l'.view root ∧ ∃ ref, l'.view.Leads ref root := by
  rw [run_discover] at hrun
  generalize hload : (l.withParsing true).run (Loader.load request none false) = r at hrun
  obtain ⟨result, l₂⟩ := r
  cases hrun
  rw [run_load] at hload
  have hengaged := h.toEngaged.withParsing true
  have hsurveyed := h.surveyed.withParsing true
  have hwoven : (l.withParsing true).view.Woven w true :=
    view_withParsing l true ▸ woven_of_resting h.toResting h.woven true
  have hright := rightful_none w (l.withParsing true) request false
  have hcovers := covers_of_reported (spreads_loadNested w true _) hengaged hsurveyed hwoven hright hload
  have hweaves := weaves_of_reported (weaver_loadNested w true _) hengaged hsurveyed hwoven hright hload
  rw [view_withParsing] at hcovers ⊢
  exact ⟨hcovers, hweaves.leads⟩

/-- A load that succeeds poisons no slot. -/
theorem Meshed.spotless_of_load (h : l.Meshed w) (hrun : l.run (Loader.load request none isMain) = (.ok root, l')) :
    Spotless l l' := by
  have hends := Intact.loads.load request none isMain l
  rw [hrun] at hends
  exact (hends.rel h.toConsistent h.toOrderly h.provisional).2

theorem Meshed.spotless_of_discover (h : l.Meshed w) (hrun : l.run (Loader.discover request none) = (.ok root, l')) :
    Spotless l l' := by
  have hends := Intact.loads.discover Intact.withParsing request none l
  rw [hrun] at hends
  exact (hends.rel h.toConsistent h.toOrderly h.provisional).2

end Loader
end ModGraph
