import ModGraph.Proofs.Edges
import ModGraph.Proofs.Failures

/-!
# Complete graphs

After loads and discoveries that all succeeded, everything that can be reached from what a load returned is loaded,
and has exactly the edges that its file asks for (`Loader.complete_of_reachable`). The edges of a module are made
by its requests, and when its compiler is done it made all those of its file (`Loader.Weaving`). Between calls
nothing is in progress, and so the edges of loaded modules lead to loaded modules.
-/

namespace ModGraph

open Loader (Job)
open Relation (ReflTransGen)
open Source (Program)

namespace Loader

variable {w : World} {parsing isMain : Bool} {l l' l₁ l₂ : Loader} {job : Job} {limit : Nat} {request : String}
  {parent : Option EntryId} {child : EntryId}

/-! ## Compiling -/

/-- The slot of a module that is due is marked. -/
theorem woven_occupied (hd : l.Due job) (hw : l.view.Woven w parsing) :
    l.view.Grows (l.occupied job).view ∧ (l.occupied job).view.Woven w parsing := by
  have hslot : l.view.held (.module job.target.key) = some (.ready job.id) ∨
      l.view.held (.module job.target.key) = none ∧
        ∀ request, (l.graph.entry job.id).children.get? request = none := by
    rcases hd.parsed_or_new with hslot | ⟨hslot, -, hnew⟩
    · exact .inl (held_of_slot? hslot)
    · refine .inr ⟨congrArg (Option.map Prod.snd) hslot, fun request => ?_⟩
      rw [hnew]
      rfl
  obtain ⟨hgrows, hmarked⟩ := hw.mark hd.ready.inRange hslot
  have hbuiltins : (l.occupied job).cache.builtins = l.cache.builtins := by
    unfold occupied
    split <;> simp
  have hheld := held_view hd.ready.slot?_occupied hbuiltins
  have hentry : ∀ id, ((l.occupied job).graph.entry id).children = (l.graph.entry id).children ∧
      ((l.occupied job).graph.entry id).isLoaded = (l.graph.entry id).isLoaded := fun id => by
    obtain ⟨name, hname⟩ := named_occupied l job id
    rw [hname]
    exact ⟨rfl, rfl⟩
  have hsize : l.graph.size ≤ (l.occupied job).graph.size := Nat.le_of_eq (size_occupied l job).symm
  exact ⟨hgrows.trans (.of_held hheld hsize fun _ => (hentry _).1), hmarked.of_held hheld hsize
    (fun _ => (hentry _).1) (fun hl => (hentry _).2.trans hl) fun _ hl => (hentry _).2.symm.trans hl⟩

theorem woven_begun (hw : l.view.Woven w parsing) (id : EntryId) (filename : Path) :
    l.view.Grows (l.begun id filename).view ∧ (l.begun id filename).view.Woven w parsing := by
  rw [view_begun]
  exact hw.update id fun e => ⟨rfl, rfl⟩

/-- Neither the cache changes, nor the edges of an entry, nor whether it is loaded. -/
structure Still (l l' : Loader) : Prop where
  cache : l'.cache = l.cache
  size : l'.graph.size = l.graph.size
  children : ∀ id, (l'.graph.entry id).children = (l.graph.entry id).children
  isLoaded : ∀ id, (l'.graph.entry id).isLoaded = (l.graph.entry id).isLoaded

namespace Still

instance : IsPreorder Loader Still where
  refl _ := ⟨rfl, rfl, fun _ => rfl, fun _ => rfl⟩
  trans _ _ _ h h' := ⟨h'.cache.trans h.cache, h'.size.trans h.size, fun id => (h'.children id).trans (h.children id),
    fun id => (h'.isLoaded id).trans (h.isLoaded id)⟩

theorem of_quiet {α : Type} {action : LoadM α} (h : Follows Quiet action) : Follows Still action := fun l =>
  ⟨(h l).cache, by rw [(h l).graph], fun _ => by rw [(h l).graph], fun _ => by rw [(h l).graph]⟩

theorem report (event : Event) : Follows Still (Loader.report event) :=
  fun _ => ⟨rfl, rfl, fun _ => rfl, fun _ => rfl⟩

theorem compiles (id : EntryId) : Compiles id Still where
  toIsPreorder := inferInstance
  report event _ := report event
  updateEntry {f} hf l := by
    have hentry : ∀ id', (l.graph.entry id').Retains ((l.graph.update id f).entry id') := fun id' => by
      rw [Graph.entry_update]
      split
      · exact hf _
      · exact ⟨rfl, rfl, rfl, rfl, rfl, rfl⟩
    exact ⟨rfl, Graph.size_update _ _ _, fun id' => (hentry id').children, fun id' => (hentry id').loaded⟩
  source file := of_quiet (Quiet.reading.source file)
  program file := of_quiet (Quiet.reading.program file)

/-- An instruction that asks for nothing leaves all edges as they are. -/
theorem stepTask {id : EntryId} {filename : Path} {t : Task} (ht : t.request? = none) :
    Follows Still (Loader.stepTask (loadNested limit) id filename t) := by
  rw [stepTask_own fun request next hrequire => by rw [hrequire] at ht; cases ht]
  exact ends_self.mp ((compiles id).stepTask .self (fun _ => ends_self.mpr (.throw _)) filename
    (Task.within_of_all report (fun _ => trivial) (fun _ => trivial) t))

theorem held (h : Still l l') : l'.view.held = l.view.held := by
  unfold view
  rw [h.cache]

theorem woven (h : Still l l') (hw : l.view.Woven w parsing) :
    l.view.Grows l'.view ∧ l'.view.Woven w parsing := by
  have hheld := h.held
  have hsize : l.view.graph.size ≤ l'.view.graph.size := Nat.le_of_eq h.size.symm
  exact ⟨.of_held hheld hsize fun _ => h.children _, hw.of_held hheld hsize (fun _ => h.children _)
    (fun hl => (h.isLoaded _).trans hl) fun _ hl => (h.isLoaded _).symm.trans hl⟩

end Still

/-- A module that is compiled has an edge for each request that it made, and outside of a parse-only pass these lead
to modules that are loaded or in progress. -/
structure Weaving (w : World) (pass : Bool) (job : Job) (before format : Format) (asked : List String) (t : Task)
    (l : Loader) : Prop extends Demanding w pass job before format asked t l where
  surveyed : l.Surveyed w
  woven : l.view.Woven w pass
  made : ∀ request ∈ asked, ∃ child, (l.graph.entry job.id).children.get? request = some child ∧
    (pass = false → l.view.Backed child)

theorem backed_of_spared (h : Spared (fun _ => False) l l') {id : EntryId} (hb : l.view.Backed id) :
    l'.view.Backed id := by
  rcases hb with hl | ⟨key, hk⟩
  · exact .inl ((h.entry ⟨lt_size_of_isLoaded hl, .inl hl⟩ not_false).isLoaded.trans hl)
  · obtain ⟨p, hin⟩ := slot?_of_held hk
    exact .inr ⟨key, held_of_slot? ((h.progress _ _ _).mpr hin)⟩

/-- A run that succeeds goes along. -/
theorem Follows.run_ok {α : Type} {R : Loader → Loader → Prop} {action : LoadM α} (h : Follows R action) {a : α}
    (hrun : l.run action = (.ok a, l')) : R l l' := by
  have hl := h l
  rwa [hrun] at hl

/-- Nested loads weave. -/
def Weaver (w : World) (parsing : Bool) (nested : NestedLoad) : Prop :=
  ∀ {l l' : Loader} {request : String} {id child : EntryId}, l.Engaged w parsing → l.Surveyed w →
    l.view.Woven w parsing → l.Rightful w request (some id) false → l.run (nested request id) = (.ok child, l') →
      View.Weaves w parsing l.view request (some id) child l'.view

namespace Weaving

variable {before format : Format} {asked : List String} {t t' : Task}

theorem begun (h : l.Engaged w parsing) (hs : l.Surveyed w) (hd : l.Due job) (hw : l.view.Woven w parsing) :
    l.view.Grows ((l.occupied job).begun job.id job.target.filename).view ∧
    ((l.occupied job).begun job.id job.target.filename).Weaving w parsing job (l.graph.entry job.id).format
      (l.graph.entry job.id).format [] ((l.occupied job).compilation job.id job.target.filename).task := by
  obtain ⟨hgrows, hoccupied⟩ := woven_occupied hd hw
  obtain ⟨hgrows', hbegun⟩ := woven_begun hoccupied job.id job.target.filename
  have hsafe := ((@Surveyed.loads w).compiles hd.keyFile_key).beginCompile (l.occupied job)
  rw [run_beginCompile] at hsafe
  have hsurveyed := (hsafe (hd.ready.consistent_occupied h.toConsistent) hd.ready.own_occupied).2 (hs.occupied hd)
  exact ⟨hgrows.trans hgrows', { Demanding.begun h hs hd with
    surveyed := hsurveyed
    woven := hbegun
    made := nofun }⟩

/-- What a module asks for it may ask for. -/
theorem rightful {next : Dependency → Task}
    (h : l.Weaving w parsing job before format asked (.require request next)) :
    l.Rightful w request (some job.id) false := by
  rintro _ ⟨⟩
  refine ⟨⟨_, _, h.running⟩, fun key p hin => ?_⟩
  obtain rfl : key = job.target.key := (h.keyed hin rfl).2.symm.trans (h.keyed h.running rfl).2
  obtain ⟨⟨prog, hbody, hmem⟩, -⟩ := h.task
  rw [h.file]
  exact ⟨format, prog, hbody, hmem, fun found hfound => h.resolve hfound⟩

/-- What a request was made for stays made while others are. -/
theorem made_of_weaves (h : l.Weaving w parsing job before format asked t) (hspared : Spared (fun _ => False) l l')
    (hweaves : View.Weaves w parsing l.view request (some job.id) child l'.view) {r : String}
    (hmem : r ∈ request :: asked) :
    ∃ c, (l'.graph.entry job.id).children.get? r = some c ∧ (parsing = false → l'.view.Backed c) := by
  rcases List.mem_cons.mp hmem with rfl | hmem
  · exact ⟨child, hweaves.edge _ rfl, hweaves.backed⟩
  · obtain ⟨c, hc, hbacked⟩ := h.made r hmem
    obtain ⟨c', hc'⟩ :=
      Option.isSome_iff_exists.mp (hweaves.grows.edge h.inRange (Option.isSome_iff_exists.mpr ⟨c, hc⟩))
    -- the edge leads to the same entry, as the request still stands for the same
    have hslot : l.view.held (.module job.target.key) = some (.loading job.id) :=
      held_of_slot? h.running
    have hslot' : l'.view.held (.module job.target.key) = some (.loading job.id) :=
      held_of_slot? ((hspared.progress _ _ _).mpr h.running)
    have hedge := (h.woven.edge hslot rfl hc).mono hweaves.grows.leads
    obtain rfl := hedge.unique (hweaves.woven.edge hslot' rfl hc')
    exact ⟨c, hc', fun hp => backed_of_spared hspared (hbacked hp)⟩

/-- An instruction that succeeds. -/
theorem step (hn : Weaver w parsing (loadNested limit)) (h : l.Weaving w parsing job before format asked t)
    (hs : l.run (stepTask (loadNested limit) job.id job.target.filename t) = (.ok (some t'), l')) :
    ∃ format' asked', l.view.Grows l'.view ∧ l'.Weaving w parsing job before format' asked' t' := by
  obtain ⟨format', hdemanding⟩ := h.toDemanding.step hs
  have hsafe : Safely (some job) (Surveyed.Lasts w) l l' := (Surveyed.loads.stepTask h.file limit t).run_ok hs
  have hsurveyed := (hsafe h.toConsistent (by rintro _ ⟨⟩; exact h.running)).2 h.surveyed
  by_cases hrequire : ∃ request next, t = .require request next
  · obtain ⟨request, next, rfl⟩ := hrequire
    obtain ⟨child, l₁, hnested, hrest⟩ := run_bind_eq_ok.mp hs
    cases hrest
    have hspared := ((Spares.loadNested limit request job.id).run_ok hnested) h.toConsistent
    have hweaves := hn h.toEngaged h.surveyed h.woven h.rightful hnested
    exact ⟨format', _, hweaves.grows, { hdemanding with
      surveyed := hsurveyed
      woven := hweaves.woven
      made := fun r hmem => h.made_of_weaves hspared hweaves hmem }⟩
  · have hnone : t.request? = none := by
      cases t with
      | require request next => exact absurd ⟨_, _, rfl⟩ hrequire
      | _ => rfl
    have hstill : Still l l' := (Still.stepTask hnone).run_ok hs
    obtain ⟨hgrows, hwoven⟩ := hstill.woven h.woven
    rw [hnone] at hdemanding
    refine ⟨format', asked, hgrows, { hdemanding with
      surveyed := hsurveyed
      woven := hwoven
      made := fun r hmem => ?_ }⟩
    obtain ⟨c, hc, hbacked⟩ := h.made r hmem
    exact ⟨c, by rw [hstill.children]; exact hc, fun hp => (hbacked hp).imp (fun hl => (hstill.isLoaded c).trans hl)
      fun ⟨k, hk⟩ => ⟨k, by rw [hstill.held]; exact hk⟩⟩

theorem steps (hn : Weaver w parsing (loadNested limit)) {a b : Task × Loader}
    (h : a.2.Weaving w parsing job before format asked a.1)
    (hs : ReflTransGen (Moment.TaskStep (loadNested limit) job.id job.target.filename) a b) :
    ∃ format' asked', a.2.view.Grows b.2.view ∧ b.2.Weaving w parsing job before format' asked' b.1 := by
  induction hs with
  | refl => exact ⟨_, _, .refl _, h⟩
  | tail _ hstep ih =>
    obtain ⟨_, _, hgrows, h'⟩ := ih
    obtain ⟨_, _, hgrows', h''⟩ := h'.step hn hstep
    exact ⟨_, _, hgrows.trans hgrows', h''⟩

/-- The marks at the end of a compilation change one entry, and not its edges. -/
theorem marked_entries (filename : Path) (c : Compilation) {id : EntryId} (hid : id < l.graph.size)
    (hunloaded : (l.graph.entry id).isLoaded = false) :
    let v := (l.marked id filename c).view
    v.held = l.view.held ∧ l.view.graph.size ≤ v.graph.size ∧
      (∀ id', id' ≠ id → v.graph.entry id' = l.graph.entry id') ∧
      (v.graph.entry id).children = (l.graph.entry id).children ∧ (v.graph.entry id).isLoaded = !c.parsing := by
  dsimp only
  rw [view_marked]
  refine ⟨rfl, Nat.le_of_eq (Graph.size_update _ _ _).symm, fun id' hne => Graph.entry_update_of_ne _ _ hne.symm, ?_⟩
  have hentry : (l.view.update id (Entry.marked · l.resolver filename c)).graph.entry id
      = (l.graph.entry id).marked l.resolver filename c := Graph.entry_update_self _ _ hid
  obtain ⟨paths, -, heq⟩ := (l.graph.entry id).marked_eq l.resolver filename c
  rw [hentry, heq]
  exact ⟨rfl, by rw [Entry.isLoaded] at hunloaded ⊢; simp [hunloaded]⟩

/-- A module that made all requests of its file takes its place. -/
theorem finished {c : Compilation} (h : l.Weaving w parsing job before format asked .done)
    (hparsing : c.parsing = parsing) :
    let v := (l.marked job.id job.target.filename c).view
    let v' := v.put (.module job.target.key) (.ready job.id)
    l.view.Grows v' ∧ v'.Woven w parsing ∧ ((v'.graph.entry job.id).isLoaded = !parsing) ∧
      ∀ id, id ≠ job.id → v'.graph.entry id = l.graph.entry id := by
  have hunloaded : (l.graph.entry job.id).isLoaded = false := h.unfinished h.running
  have hslot : l.view.held (.module job.target.key) = some (.loading job.id) := held_of_slot? h.running
  obtain ⟨hheld, hsize, hother, hself⟩ := marked_entries job.target.filename c h.inRange hunloaded
  generalize (l.marked job.id job.target.filename c).view = v at hheld hsize hother hself ⊢
  rw [hparsing] at hself
  have hchildren : ∀ {id}, (v.graph.entry id).children = (l.graph.entry id).children := fun {id} => by
    by_cases hid : id = job.id
    · rw [hid, hself.1]
    · rw [hother id hid]
  have hloaded : ∀ {id}, (l.graph.entry id).isLoaded = true → (v.graph.entry id).isLoaded = true := by
    intro id hl
    rwa [hother id]
    rintro rfl
    cases hunloaded.symm.trans hl
  have hgrows : l.view.Grows v := .of_held hheld hsize fun _ => hchildren
  have hwoven : v.Woven w parsing := by
    refine h.woven.of_held hheld hsize (fun _ => hchildren) hloaded fun {ref id} hs hl => ?_
    -- the module itself is loaded now, but its slot is not ready before it is put
    rwa [hother id] at hl
    rintro rfl
    cases ref with
    | module key =>
      obtain ⟨p, hk⟩ := slot?_of_held hs
      exact h.ne_of_ready h.running (Cache.get?_of_slot? hk) rfl
    | builtin name => cases hunloaded.symm.trans (h.woven.leaf hs).1
  -- all requests of the file were made
  obtain ⟨body, hbody, hall⟩ := h.task
  have hfull : ∀ request ∈ body.requests, ((v.graph.entry job.id).children.get? request).isSome = true := by
    intro request hmem
    obtain ⟨child, hchild, -⟩ := h.made request (hall request hmem)
    rw [hself.1, hchild]
    rfl
  have hfirm : parsing = false → ∀ {request child}, (v.graph.entry job.id).children.get? request = some child →
      v.Backed child := by
    -- an edge is there for a request of the file only, and that request was made in this compilation
    intro hp request child he
    rw [hself.1] at he
    obtain ⟨format, prog, -, hprog, hmem, -⟩ := h.woven.edge hslot rfl he
    rw [h.file, hbody] at hprog
    cases hprog
    obtain ⟨child', hchild', hbacked⟩ := h.made request (hall request hmem)
    cases he.symm.trans hchild'
    exact (hbacked hp).imp hloaded (Exists.imp fun k hk => hheld ▸ hk)
  obtain ⟨hgrows', hready⟩ := hwoven.finish (hheld ▸ hslot) (h.file ▸ hbody) hfull hself.2 hfirm
  exact ⟨hgrows.trans hgrows', hready, hself.2, hother⟩

/-- A module that was compiled made all requests of its file. -/
theorem of_prepare (hn : Weaver w parsing (loadNested limit)) (h : l.Engaged w parsing) (hs : l.Surveyed w)
    (hd : l.Due job) (hw : l.view.Woven w parsing) {c : Compilation}
    (hrun : (l.occupied job).run (prepare (loadNested limit) job.id job.target.filename) = (.ok c, l₂)) :
    ∃ before format asked, l.view.Grows l₂.view ∧ l₂.Weaving w parsing job before format asked .done := by
  obtain ⟨hgrows, hbegun⟩ := begun h hs hd hw
  obtain ⟨rfl, htask⟩ := compiled_of_prepare hrun
  obtain ⟨format, asked, hgrows', hdone⟩ := steps hn hbegun (Moment.taskSteps_of_run htask)
  exact ⟨_, format, asked, hgrows.trans hgrows', hdone⟩

end Weaving

/-! ## Requests -/

/-- What was compiled is linked. -/
theorem weaves_of_perform (hn : Weaver w parsing (loadNested limit)) (he : l.Engaged w parsing) (hs : l.Surveyed w)
    (hw : l.view.Woven w parsing) (hr : l.Rightful w request parent isMain)
    (hseek : l.run (seek request parent isMain) = (.ok (.needs job), l₁))
    (hrun : l₁.run (perform (loadNested limit) job) = (.ok child, l')) :
    View.Weaves w parsing l.view request parent child l'.view := by
  have hc := he.toConsistent
  have hd : l₁.Due job := ⟨l, request, parent, isMain, hc, hseek⟩
  obtain ⟨file, hfound, htarget, hrequest, hreferrer, -, -⟩ := needs_of_seek hc.toOrderly hseek
  obtain ⟨hgrows, hwoven⟩ := woven_of_needs he hw hseek
  have hsought : Spared (fun _ => False) l l₁ := ((Spares.seek request parent isMain).run_ok hseek) hc
  have he₁ : l₁.Engaged w parsing := by
    have h₁ := he.seek request parent isMain
    rwa [hseek] at h₁
  have hs₁ : l₁.Surveyed w := by
    have h₁ := Surveyed.loads.seek hc request parent isMain hs
    rwa [hseek] at h₁
  -- the compilation is prepared, its marks are set, and at last the request is linked
  have hperformed := Spares.perform (Tidy.loadNested limit) (Spares.loadNested limit) he₁.toConsistent hd.ready
  rw [hrun] at hperformed
  rw [Spares.run_perform (Spares.loadNested limit) he₁.toConsistent hd.ready] at hrun
  generalize hprepare : (l₁.occupied job).run (prepare (loadNested limit) job.id job.target.filename) = r at hrun
  obtain ⟨e | c, l₂⟩ := r
  · cases hrun
  cases hrun
  obtain ⟨before, format, asked, hgrows₂, hdone⟩ := Weaving.of_prepare hn he₁ hs₁ hd hwoven hprepare
  obtain ⟨hgrows₃, hready, hloaded, -⟩ := hdone.finished ((parsing_of_prepare hprepare).1.trans he₁.parsing)
  have hview := view_concluded (l := l₂.marked job.id job.target.filename c)
    ⟨hdone.exclusive, hdone.unmarked.of_eq rfl rfl⟩ hdone.running
  rw [View.put_linked, hreferrer, map_id_referrer?, hrequest] at hview
  generalize hv : (l₂.marked job.id job.target.filename c).view.put _ _ = v at hgrows₃ hready hloaded hview
  have hgrown : l.view.Grows v := (hgrows.trans hgrows₂).trans hgrows₃
  -- who asks was in progress all the time
  have hprogress := fun key p id => (hperformed.progress key p id).trans (hsought.progress key p id)
  have hapart : l.Apart parent v := by
    refine (hperformed.consistent.apart hprogress hr).congr ?_ fun id => ?_
    · rw [hview]
      split <;> exact (v.held_linked parent request job.id).symm
    · rw [hview, ← View.isLoaded_linked v parent request job.id id]
      split
      · exact (View.entry_update _ job.id (f := fun e => { e with parent := none }) (fun _ => ⟨rfl, rfl⟩) id).2.symm
      · rfl
  have hlinked : View.Weaves w parsing l.view request parent job.id (v.linked parent request job.id) := by
    refine weaves_of_linked hready hgrown hapart hr (fun x hx => ?_) hfound ⟨.ready job.id, ?_, rfl⟩ fun hp => ?_
    · obtain ⟨⟨key, p, hin⟩, -⟩ := hr x hx
      exact Nat.lt_of_lt_of_le (hc.keyed hin rfl).1 hgrown.size
    · rw [← hv, htarget]
      exact View.held_put_self _ _ _
    · exact .inl (hloaded.trans (by rw [hp]; rfl))
  rw [hview]
  split
  · exact hlinked.update job.id fun e => ⟨rfl, rfl⟩
  · exact hlinked

theorem weaves_of_answer (hn : Weaver w parsing (loadNested limit)) (he : l.Engaged w parsing) (hs : l.Surveyed w)
    (hw : l.view.Woven w parsing) (hr : l.Rightful w request parent isMain)
    (hrun : l.run (answer (loadNested limit) request parent isMain) = (.ok child, l')) :
    View.Weaves w parsing l.view request parent child l'.view := by
  unfold answer at hrun
  obtain ⟨finding, l₁, hseek, hnext⟩ := run_bind_eq_ok.mp hrun
  cases finding with
  | found id =>
    cases hnext
    exact weaves_of_found he hw hr hseek
  | needs job => exact weaves_of_perform hn he hs hw hr hseek hnext

theorem weaves_of_reported (hn : Weaver w parsing (loadNested limit)) (he : l.Engaged w parsing) (hs : l.Surveyed w)
    (hw : l.view.Woven w parsing) (hr : l.Rightful w request parent isMain)
    (hrun : l.run (reported request (answer (loadNested limit) request parent isMain)) = (.ok child, l')) :
    View.Weaves w parsing l.view request parent child l'.view := by
  rw [run_reported] at hrun
  generalize hanswer : (l.noted [.enters request .resolving]).run _ = r at hrun
  obtain ⟨e | id, l₁⟩ := r
  · cases hrun
  · cases hrun
    have hweaves := weaves_of_answer hn (he.noted (.enters request .resolving)) (Surveyed.seeks.noted l rfl hs) hw hr
      hanswer
    exact hweaves

/-- Nested loads weave, however deep they go. -/
theorem weaver_loadNested (w : World) (parsing : Bool) (limit : Nat) : Weaver w parsing (loadNested limit) := by
  induction limit with
  | zero =>
    -- a load beyond the limit fails
    intro l l' request id child _ _ _ _ hrun
    cases hrun
  | succ limit ih =>
    intro l l' request id child he hs hw hr hrun
    exact weaves_of_reported ih he hs hw hr hrun

/-! ## Between calls -/

/-- Where nothing is in progress it does not matter whether that is in a parse-only pass. -/
theorem woven_of_resting (hr : l.Resting) (hw : l.view.Woven w parsing) (parsing' : Bool) :
    l.view.Woven w parsing' :=
  { hw with
    firm := fun hs hl he => .inl ((hw.firm hs hl he).resolve_right fun ⟨_, key, hk⟩ => by
      obtain ⟨p, hin⟩ := slot?_of_held hk
      exact hr.inProgress key p _ hin) }

theorem view_withParsing (l : Loader) (parsing : Bool) : (l.withParsing parsing).view = l.view :=
  view_congr rfl (fun _ => by rw [slot?_withParsing]) rfl

theorem Surveyed.withParsing (h : l.Surveyed w) (parsing : Bool) : (l.withParsing parsing).Surveyed w :=
  h.of_graph (h.toWatching.elsewhere (h.toWatching.toRereadable.withParsing parsing) ⟨rfl, rfl, rfl, rfl, rfl⟩)
    (h.toSorted.withParsing parsing) (fun p => by cases p <;> rfl) rfl

/-- A loader between calls that all succeeded. -/
structure Meshed (w : World) (l : Loader) : Prop extends Resting l, Engaged w false l where
  surveyed : l.Surveyed w
  woven : l.view.Woven w false

/-- The root of the graph may ask for anything. -/
theorem rightful_none (w : World) (l : Loader) (request : String) (isMain : Bool) :
    l.Rightful w request none isMain := by
  intro x hx
  cases hx

/-- What is loaded or discovered from the root of the graph, and well. -/
def Succeeds (l : Loader) : Operation → Prop
  | .load request none isMain => ∃ id, (l.run (load request none isMain)).1 = .ok id
  | .discover request none => ∃ id, (l.run (discover request none)).1 = .ok id
  | _ => False

namespace Meshed

theorem load (h : l.Meshed w) (hrun : l.run (load request none isMain) = (.ok child, l')) :
    l'.Meshed w ∧ View.Weaves w false l.view request none child l'.view := by
  have hrest : (l.after (.load request none isMain)).Resting := h.toResting.after trivial
  have hengaged := h.toEngaged.load request none isMain
  have hsurveyed := (@Surveyed.loads w).follows_load h.toConsistent request none isMain h.surveyed
  have hload := hrun
  rw [run_load] at hload
  have hweaves := weaves_of_reported (weaver_loadNested w false _) h.toEngaged h.surveyed h.woven
    (rightful_none w l request isMain) hload
  rw [after, hrun] at hrest
  rw [hrun] at hengaged hsurveyed
  exact ⟨{ hrest, hengaged with surveyed := hsurveyed, woven := hweaves.woven }, hweaves⟩

theorem discover (h : l.Meshed w) (hrun : l.run (discover request none) = (.ok child, l')) :
    l'.Meshed w ∧ l.view.Grows l'.view := by
  have hrest : (l.after (.discover request none)).Resting := h.toResting.after trivial
  have hengaged := h.toEngaged.discover request none
  have hsurveyed := (@Surveyed.loads w).follows_discover h.toConsistent (fun l p hs => hs.withParsing p) request none
    h.surveyed
  rw [after, hrun] at hrest
  rw [hrun] at hengaged hsurveyed
  rw [run_discover] at hrun
  generalize hload : (l.withParsing true).run (Loader.load request none false) = r at hrun
  obtain ⟨result, l₂⟩ := r
  cases hrun
  rw [run_load] at hload
  have hweaves := weaves_of_reported (weaver_loadNested w true _) (h.toEngaged.withParsing true)
    (h.surveyed.withParsing true) (view_withParsing l true ▸ woven_of_resting h.toResting h.woven true)
    (rightful_none w (l.withParsing true) request false) hload
  rw [view_withParsing] at hweaves
  have hview := view_withParsing l₂ l.cache.parsing
  exact ⟨{ hrest, hengaged with
    surveyed := hsurveyed
    woven := woven_of_resting hrest (hview ▸ hweaves.woven) false }, hview ▸ hweaves.grows⟩

end Meshed

theorem Pristine.meshed (h : l.Pristine) : l.Meshed l.world :=
  { h.toStarts.resting, h.engaged with
    surveyed := { h.engaged.toWatching, h.sorted with
      paths := fun {_ p _} hk => by
        rw [h.fresh.cache] at hk
        cases p <;> cases hk }
    woven := by
      have hnone : ∀ {ref s}, l.view.held ref ≠ some s := fun {ref s} hs => by
        rw [h.fresh.held ref] at hs
        cases hs
      exact ⟨fun hs => absurd hs hnone, fun hs => absurd hs hnone, fun hs => absurd hs hnone,
        fun hs => absurd hs hnone, fun hs => absurd hs hnone⟩ }

theorem Meshed.after {op : Operation} (h : l.Meshed w) (hop : l.Succeeds op) :
    (l.after op).Meshed w ∧ l.view.Grows (l.after op).view := by
  unfold Succeeds at hop
  split at hop
  · obtain ⟨id, hid⟩ := hop
    obtain ⟨hmeshed, hweaves⟩ := h.load (Prod.ext hid rfl)
    exact ⟨hmeshed, hweaves.grows⟩
  · obtain ⟨id, hid⟩ := hop
    exact h.discover (Prod.ext hid rfl)
  · cases hop

/-! ## Complete graphs -/

/-- The cache holds an entry for what a request was resolved to. -/
def Supplies (l : Loader) (request : String) : Resolution → EntryId → Prop
  | .builtin name, id => l.cache.builtins.get? name = some id
  | .file path, id => ∃ p, l.cache.get? p (cacheKey path (splitQuery request).2) = some (.ready id)

/-- A builtin module, which asks for nothing. -/
structure Primitive (l : Loader) (id : EntryId) : Prop where
  builtin : ∃ name, l.cache.builtins.get? name = some id
  childless : ∀ request, (l.graph.entry id).children.get? request = none

/-- A module in the slot of its key, which has the edges that its file asks for. -/
structure Linked (w : World) (l : Loader) (id : EntryId) : Prop where
  cached : ∃ p, l.cache.get? p (l.graph.entry id).key = some (.ready id)
  requests : ∃ body, w.body (l.graph.entry id).module.filename = .ok body ∧
    ∀ request, ((l.graph.entry id).children.get? request).isSome = true ↔ request ∈ body.requests
  child : ∀ {request c}, (l.graph.entry id).children.get? request = some c → ∃ format p found,
    w.body (l.graph.entry id).module.filename = .ok (.program format p) ∧
      w.resolve (l.graph.entry id).module.filename format request = .ok found ∧ l.Supplies request found c

/-- An entry is loaded, and its edges are all there. -/
def Complete (w : World) (l : Loader) (id : EntryId) : Prop :=
  (l.graph.entry id).isLoaded = true ∧ (l.Primitive id ∨ l.Linked w id)

namespace Meshed

variable {ref : Ref} {id : EntryId}

/-- Between calls everything in the cache is ready. -/
theorem held_of_leads (h : l.Meshed w) (hl : l.view.Leads ref id) : l.view.held ref = some (.ready id) := by
  obtain ⟨s, hs, hid⟩ := hl
  cases s with
  | ready i =>
    cases hid
    exact hs
  | poisoned e => cases hid
  | loading i =>
    cases ref with
    | module key =>
      obtain ⟨p, hin⟩ := slot?_of_held hs
      exact absurd hin (h.inProgress key p i)
    | builtin name =>
      obtain ⟨_, -, heq⟩ := held_builtin.mp hs
      cases heq

theorem supplies (h : l.Meshed w) {found : Resolution} (hl : l.view.Leads (found.ref request) id) :
    l.Supplies request found id := by
  have hheld := h.held_of_leads hl
  cases found with
  | builtin name => exact builtins_of_held hheld
  | file path =>
    obtain ⟨p, hslot⟩ := slot?_of_held hheld
    exact ⟨p, Cache.get?_of_slot? hslot⟩

theorem complete (h : l.Meshed w) (hl : (l.graph.entry id).isLoaded = true) (hleads : l.view.Leads ref id) :
    l.Complete w id := by
  have hheld := h.held_of_leads hleads
  refine ⟨hl, ?_⟩
  cases ref with
  | builtin name =>
    exact .inl ⟨⟨name, builtins_of_held hheld⟩, (h.woven.leaf hheld).2⟩
  | module key =>
    obtain ⟨p, hslot⟩ := slot?_of_held hheld
    have hfile := (h.surveyed.filed (Cache.get?_of_slot? hslot)).filename
    have hkey := (h.keyed hslot rfl).2
    obtain ⟨body, hbody, hfull⟩ := h.woven.full hheld
    refine .inr ⟨⟨p, hkey ▸ Cache.get?_of_slot? hslot⟩,
      ⟨body, hfile ▸ hbody, fun request => ⟨fun hsome => ?_, hfull request⟩⟩, fun {request c} hc => ?_⟩
    · obtain ⟨c, hc⟩ := Option.isSome_iff_exists.mp hsome
      obtain ⟨format, prog, -, hprog, hmem, -⟩ := h.woven.edge hheld rfl hc
      cases hbody.symm.trans hprog
      exact hmem
    · obtain ⟨format, prog, found, hprog, -, hresolve, hchild⟩ := h.woven.edge hheld rfl hc
      exact ⟨format, prog, found, hfile ▸ hprog, hfile ▸ hresolve, h.supplies hchild⟩

/-- The edges of a loaded module lead to loaded modules. -/
theorem firm (h : l.Meshed w) (hl : (l.graph.entry id).isLoaded = true) (hleads : ∃ ref, l.view.Leads ref id)
    (hc : (l.graph.entry id).children.get? request = some child) :
    (l.graph.entry child).isLoaded = true ∧ ∃ ref, l.view.Leads ref child := by
  obtain ⟨ref, hleads⟩ := hleads
  have hheld := h.held_of_leads hleads
  cases ref with
  | builtin name =>
    cases ((h.woven.leaf hheld).2 request).symm.trans hc
  | module key =>
    obtain ⟨-, -, found, -, -, -, hchild⟩ := h.woven.edge hheld rfl hc
    refine ⟨(h.woven.firm hheld hl hc).resolve_right ?_, _, hchild⟩
    rintro ⟨-, k, hk⟩
    obtain ⟨p, hin⟩ := slot?_of_held hk
    exact h.inProgress k p child hin

end Meshed

/-- After loads and discoveries that all succeeded, everything that can be reached from what a load returned is
loaded, and has exactly the edges that its file asks for. -/
theorem complete_of_reachable {start : Loader} {root id : EntryId} (hs : start.Pristine)
    (h : Reachable (· = start) Succeeds l) (hload : (l.run (load request none isMain)).1 = .ok root)
    (h' : Reachable (· = l.after (.load request none isMain)) Succeeds l')
    (hreach : ReflTransGen (fun id c => ∃ r, (l'.graph.entry id).children.get? r = some c) root id) :
    l'.Complete start.world id := by
  have hl : l.Meshed start.world := h.invariant (by rintro _ rfl; exact hs.meshed) fun _ _ hl hop => (hl.after hop).1
  obtain ⟨hmeshed, hweaves⟩ := hl.load (Prod.ext hload rfl)
  -- what was returned is still there
  obtain ⟨hl', hroot, hleads⟩ : l'.Meshed start.world ∧ (l'.graph.entry root).isLoaded = true ∧
      ∃ ref, l'.view.Leads ref root := by
    refine h'.invariant (P := fun l' => l'.Meshed start.world ∧ (l'.graph.entry root).isLoaded = true ∧
      ∃ ref, l'.view.Leads ref root) ?_ fun l₁ op ⟨hl₁, hloaded, hleads⟩ hop => ?_
    · rintro _ rfl
      exact ⟨hmeshed, hl.idle.isLoaded_of_load hload, hweaves.leads⟩
    · obtain ⟨hl₂, hgrows⟩ := hl₁.after hop
      exact ⟨hl₂, ((develops_after l₁ op).entry (lt_size_of_isLoaded hloaded)).loaded hloaded,
        hleads.imp fun _ => hgrows.leads⟩
  have hall : (l'.graph.entry id).isLoaded = true ∧ ∃ ref, l'.view.Leads ref id := by
    induction hreach with
    | refl => exact ⟨hroot, hleads⟩
    | tail _ hstep ih =>
      obtain ⟨r, hc⟩ := hstep
      exact hl'.firm ih.1 ih.2 hc
  obtain ⟨hloaded, ref, hheld⟩ := hall
  exact hl'.complete hloaded hheld

/-- A circle that is entered from one side, and before that was parsed from the other. -/
theorem complete_circular :
    let l := (bare circularFiles).after (.discover "./b.js" none)
    (l.run (load "./a.js" none true)).1 = .ok 1 ∧
      (l.after (.load "./a.js" none true)).Complete (bare circularFiles).world 0 := by
  have hpass : (bare circularFiles).Succeeds (.discover "./b.js" none) := ⟨0, by decide +kernel⟩
  have hload : (((bare circularFiles).after (.discover "./b.js" none)).run (load "./a.js" none true)).1 = .ok 1 := by
    decide +kernel
  have hedge : ∃ r, ((((bare circularFiles).after (.discover "./b.js" none)).after
      (.load "./a.js" none true)).graph.entry 1).children.get? r = some 0 := ⟨"./b.js", by decide +kernel⟩
  exact ⟨hload, complete_of_reachable pristine_bare_circular (.after (.start rfl) hpass) hload (.start rfl)
    (.single hedge)⟩

end Loader
end ModGraph
