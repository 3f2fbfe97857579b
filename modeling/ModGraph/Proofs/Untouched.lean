import ModGraph.Proofs.CallStack

/-!
# What a discovery leaves alone

A discovery without a parent evaluates nothing and changes nothing that was there before it
(`Loader.untouched_of_discover`), whatever loader it starts from. What it adds it adds beside: the modules
that it compiles are new ones, for in a parse-only pass a slot that there is is used as it is, and the
slots that it takes are such as did not exist before. The proof carries the loader from before the call
through all of it (`Loader.Passing`).
-/

namespace ModGraph
namespace Loader

variable {l₀ l l' : Loader} {job : Job} {request : String} {id : EntryId}

/-- How far a parse-only pass may have changed a loader: what there was is as it was, and of the modules
that are new only builtin ones are loaded. -/
structure Passing (l₀ l : Loader) : Prop where
  parsing : l.cache.parsing = true
  main : l.cache.main? = l₀.cache.main?
  legacyMain : l.cache.legacyMain? = l₀.cache.legacyMain?
  size : l₀.graph.size ≤ l.graph.size
  entry : ∀ {id}, id < l₀.graph.size → l.graph.entry id = l₀.graph.entry id
  slot : ∀ {p key s}, l₀.cache.get? p key = some s → l.cache.get? p key = some s
  builtin : ∀ {name id}, l₀.cache.builtins.get? name = some id → l.cache.builtins.get? name = some id
  unloaded : ∀ {id}, l₀.graph.size ≤ id → (l.graph.entry id).isLoaded = true →
    ∃ name, l.cache.builtins.get? name = some id

/-- A module that a parse-only pass may compile: a new one, for a slot that did not exist before. -/
structure Newcomer (l₀ : Loader) (job : Job) : Prop where
  new : l₀.graph.size ≤ job.id
  notMain : job.isMain = false
  free : l₀.cache.get? job.partition job.target.key = none
  asked : ∀ r ∈ job.referrer, l₀.graph.size ≤ r.id

namespace Passing

theorem of_frame (h : Passing l₀ l) (hg : l'.graph = l.graph) (hc : l'.cache = l.cache) : Passing l₀ l' where
  parsing := hc ▸ h.parsing
  main := hc ▸ h.main
  legacyMain := hc ▸ h.legacyMain
  size := hg ▸ h.size
  entry := hg ▸ h.entry
  slot := hc ▸ h.slot
  builtin := hc ▸ h.builtin
  unloaded := hg ▸ hc ▸ h.unloaded

theorem noted (h : Passing l₀ l) (events : List Event) : Passing l₀ (l.noted events) := h.of_frame rfl rfl

/-- A slot that is not there was not there before. -/
theorem free (h : Passing l₀ l) {p : Partition} {key : String} (hs : l.cache.get? p key = none) :
    l₀.cache.get? p key = none := by
  cases hs₀ : l₀.cache.get? p key with
  | none => rfl
  | some s => exact absurd ((h.slot hs₀).symm.trans hs) (by simp)

/-- New modules may change as long as that does not make them loaded. -/
theorem update (h : Passing l₀ l) (hid : l₀.graph.size ≤ id) {f : Entry → Entry}
    (hf : ∀ e : Entry, (f e).isLoaded = e.isLoaded) :
    Passing l₀ { l with graph := l.graph.update id f } where
  parsing := h.parsing
  main := h.main
  legacyMain := h.legacyMain
  size := by simpa using h.size
  entry {other} hother := by
    show (l.graph.update id f).entry other = _
    rw [Graph.entry_update_of_ne _ _ (Nat.ne_of_gt (Nat.lt_of_lt_of_le hother hid))]
    exact h.entry hother
  slot := h.slot
  builtin := h.builtin
  unloaded {other} hother hloaded := by
    refine h.unloaded hother ?_
    change ((l.graph.update id f).entry other).isLoaded = true at hloaded
    rw [Graph.entry_update] at hloaded
    split at hloaded
    · exact (hf _).symm.trans hloaded
    · exact hloaded

/-- Slots may come and go that did not exist before. -/
theorem withCache (h : Passing l₀ l) {c : Cache} (hp : c.parsing = l.cache.parsing)
    (hm : c.main? = l.cache.main?) (hlm : c.legacyMain? = l.cache.legacyMain?)
    (hb : c.builtins = l.cache.builtins)
    (hs : ∀ p key, (l₀.cache.get? p key).isSome → c.get? p key = l.cache.get? p key) :
    Passing l₀ { l with cache := c } where
  parsing := hp.trans h.parsing
  main := hm.trans h.main
  legacyMain := hlm.trans h.legacyMain
  size := h.size
  entry := h.entry
  slot {p key s} hs₀ := (hs p key (by rw [hs₀]; rfl)).trans (h.slot hs₀)
  builtin hb₀ := by
    rw [hb]
    exact h.builtin hb₀
  unloaded hid hloaded := by
    rw [hb]
    exact h.unloaded hid hloaded

theorem set (h : Passing l₀ l) {p : Partition} {key : String} (hs : l₀.cache.get? p key = none) (s : Slot) :
    Passing l₀ { l with cache := l.cache.set p key s } := by
  refine h.withCache ?_ ?_ ?_ (Cache.builtins_set _ _ _ _) fun q k hq => ?_
  · cases p <;> rfl
  · cases p <;> rfl
  · cases p <;> rfl
  · rw [Cache.get?_set, if_neg]
    rintro ⟨rfl, rfl⟩
    rw [hs] at hq
    cases hq

theorem delete (h : Passing l₀ l) {p : Partition} {key : String} (hs : l₀.cache.get? p key = none) :
    Passing l₀ { l with cache := l.cache.delete p key } := by
  refine h.withCache ?_ ?_ ?_ (Cache.builtins_delete _ _ _) fun q k hq => ?_
  · cases p <;> rfl
  · cases p <;> rfl
  · cases p <;> rfl
  · rw [Cache.get?_delete, if_neg]
    rintro ⟨rfl, rfl⟩
    rw [hs] at hq
    cases hq

/-! ## Steps of a pass -/

/-- A step that keeps a pass going, however it ends. -/
abbrev Steps (l₀ l l' : Loader) : Prop := Passing l₀ l → Passing l₀ l'

instance (l₀ : Loader) : IsPreorder Loader (Steps l₀) where
  refl _ h := h
  trans _ _ _ h h' hl := h' (h hl)

theorem of_quiet {α : Type} {action : LoadM α} (h : Follows Quiet action) : Follows (Steps l₀) action :=
  fun l hl => hl.of_frame (h l).graph (h l).cache

theorem report (event : Event) : Follows (Steps l₀) (Loader.report event) := fun _ h => h.of_frame rfl rfl

theorem compiles (hid : l₀.graph.size ≤ id) : Compiles id (Steps l₀) where
  toIsPreorder := inferInstance
  report event _ := report event
  updateEntry hf := fun _ h => h.update hid fun e => (hf e).loaded
  source file := of_quiet (Quiet.reading.source file)
  program file := of_quiet (Quiet.reading.program file)

theorem added (h : Passing l₀ l) {e : Entry} (he : e.isLoaded = false) :
    Passing l₀ { l with graph := (l.graph.add e).1 } where
  parsing := h.parsing
  main := h.main
  legacyMain := h.legacyMain
  size := Nat.le_trans h.size (Nat.le_of_lt (by simp))
  entry hid := (Graph.entry_add_of_lt _ _ (Nat.lt_of_lt_of_le hid h.size)).trans (h.entry hid)
  slot := h.slot
  builtin := h.builtin
  unloaded {id} hid hloaded := by
    change ((l.graph.add e).1.entry id).isLoaded = true at hloaded
    rw [Graph.entry_add] at hloaded
    split at hloaded
    · exact absurd (he.symm.trans hloaded) Bool.false_ne_true
    · exact h.unloaded hid hloaded

theorem linked (h : Passing l₀ l) {referrer : Option Referrer} (hr : ∀ r ∈ referrer, l₀.graph.size ≤ r.id)
    (request : String) (child : EntryId) : Passing l₀ (l.linked referrer request child) := by
  cases referrer with
  | none => exact h
  | some r => exact h.update (hr r rfl) fun _ => rfl

/-- A builtin module that was not asked for before is new, and loaded at once. -/
theorem builtinOf (h : Passing l₀ l) (name : String) : Passing l₀ (l.builtinOf name).2 := by
  unfold Loader.builtinOf
  cases hb : l.cache.builtins.get? name with
  | some id => exact h
  | none =>
    have hget : ∀ k, (l.cache.setBuiltin name l.graph.size).builtins.get? k =
        if name = k then some l.graph.size else l.cache.builtins.get? k := fun k => Table.get?_insert _ _ k _
    have hkept : ∀ {k id}, l.cache.builtins.get? k = some id →
        (l.cache.setBuiltin name l.graph.size).builtins.get? k = some id := by
      intro k id hk
      rw [hget, if_neg]
      · exact hk
      · rintro rfl
        cases hb.symm.trans hk
    refine ⟨h.parsing, h.main, h.legacyMain, ?_, fun {id} hid => ?_, fun {p key s} hs => ?_,
      fun {k id} hk => hkept (h.builtin hk), fun {id} hid hloaded => ?_⟩
    · exact Nat.le_trans h.size (Nat.le_of_lt (by simp))
    · exact (Graph.entry_add_of_lt _ _ (Nat.lt_of_lt_of_le hid h.size)).trans (h.entry hid)
    · cases p <;> exact h.slot hs
    · rw [Graph.entry_add] at hloaded
      split at hloaded
      · next hnew => exact ⟨name, (hget name).trans (by rw [if_pos rfl, hnew])⟩
      · obtain ⟨k, hk⟩ := h.unloaded hid hloaded
        exact ⟨k, hkept hk⟩

/-! ## Seeking -/

/-- Where the classification of a key leads in a parse-only pass: to a slot as it is, or to one that did
not exist before. -/
def Leads (l₀ : Loader) (key : String) : CacheLookup → Prop
  | .hit _ => True
  | .evaluate _ _ => False
  | .miss p => l₀.cache.get? p key = none

theorem lookup (p : Partition) (key : String) :
    Keeps (Passing l₀) (Leads l₀ key) (fun _ => True) (Loader.lookup p key) := by
  intro l h
  cases hs : l.cache.get? p key with
  | none =>
    rw [run_lookup_of_none hs]
    exact ⟨h, h.free hs⟩
  | some s =>
    cases s with
    | poisoned e =>
      rw [run_lookup_of_poisoned hs]
      exact ⟨h, trivial⟩
    | loading id =>
      rw [run_lookup_of_loading hs]
      exact ⟨h.noted [.circular key], trivial⟩
    | ready id =>
      rw [run_lookup_of_ready hs, h.parsing, Bool.or_true, if_pos rfl]
      exact ⟨h, trivial⟩

theorem classify (key : String) (fixed : Option Format) (unexposed : Bool) :
    Keeps (Passing l₀) (Leads l₀ key) (fun _ => True) (Loader.classify key fixed unexposed) := by
  intro l h
  obtain hdeclarative | ⟨hfixed, hd, hl | hl⟩ := classify_cases l.cache key fixed
  · rw [run_classify_declarative hdeclarative]
    exact lookup .declarative key l h
  · rw [run_classify_legacy hfixed hd hl]
    exact lookup .legacy key l h
  rw [run_classify_discovery hfixed hd hl]
  cases hs : l.cache.get? .discovery key with
  | none =>
    refine ⟨h, ?_⟩
    rcases fixed with - | - | -
    · exact h.free hs
    · exact h.free hl
    · exact absurd rfl hfixed
  | some s =>
    cases s with
    | poisoned e => exact ⟨h, trivial⟩
    | loading id => exact ⟨h, trivial⟩
    | ready id =>
      dsimp only
      rw [if_pos h.parsing]
      exact ⟨h, trivial⟩

/-- Whom a parse-only pass may be asked to compile. -/
def Finds (l₀ : Loader) : Finding → Prop
  | .found _ => True
  | .needs job => Newcomer l₀ job

theorem seekTarget {referrer : Option Referrer} (hr : ∀ r ∈ referrer, l₀.graph.size ≤ r.id) (request : String)
    (target : Target) : Keeps (Passing l₀) (Finds l₀) (fun _ => True)
      (Loader.seekTarget request referrer false target) := by
  have hreport : Keeps (Passing l₀) (fun _ => True) (fun _ => True)
      (Loader.report (.enters target.key .classifying)) := fun l h => ⟨report _ l h, trivial⟩
  refine hreport.bind fun _ _ =>
    (classify target.key target.fixed target.package.isUnexposed).bind fun found hfound => ?_
  cases found with
  | hit id =>
    intro l h
    dsimp only
    rw [run_bind, run_report, andThen_ok, run_bind, run_link, andThen_ok]
    exact ⟨(h.noted [.enters target.key .cacheHit]).linked hr request id, trivial⟩
  | evaluate p id => exact hfound.elim
  | miss p =>
    intro l h
    exact ⟨h.added rfl, h.size, rfl, hfound, hr⟩

theorem seek (request : String) {parent : Option EntryId} (hp : ∀ id ∈ parent, l₀.graph.size ≤ id) :
    Keeps (Passing l₀) (Finds l₀) (fun _ => True) (Loader.seek request parent false) := by
  intro l h
  have hr : ∀ r ∈ l.referrer? parent, l₀.graph.size ≤ r.id := by
    intro r hr
    obtain ⟨id, hid, rfl⟩ := Option.map_eq_some_iff.mp hr
    exact hp id hid
  have hretried : Passing l₀ (l.retried request parent false) := h.noted _
  rw [run_seek_eq]
  dsimp only
  cases l.resolved request parent false with
  | error e => exact ⟨hretried, trivial⟩
  | ok found =>
    cases found with
    | builtin name => exact ⟨(hretried.builtinOf name).linked hr request _, trivial⟩
    | file file =>
      have hpackaged : Passing l₀ ((l.retried request parent false).packaged file) := hretried.of_frame rfl rfl
      exact seekTarget hr request (l.target request file) _ hpackaged

/-! ## Compiling -/

theorem occupied (h : Passing l₀ l) (hj : Newcomer l₀ job) : Passing l₀ (l.occupied job) := by
  unfold Loader.occupied
  rw [if_neg (by simp [hj.notMain])]
  exact (h.set hj.free _).of_frame rfl rfl

theorem vacate (hj : Newcomer l₀ job) (e : LoadError) : Follows (Steps l₀) (Loader.vacate job e) := by
  intro l h
  unfold Loader.vacate
  split
  · exact (h.set hj.free (.poisoned e)).of_frame rfl rfl
  · next hp =>
    have hd : job.partition = .discovery := by
      cases hq : job.partition <;> simp_all [Partition.isCommitted]
    unfold Loader.rollback
    rw [run_bind, run_get, andThen_ok, run_onlyIf]
    split
    · exact (h.delete (hd ▸ hj.free)).of_frame rfl rfl
    · exact h

/-- A module that was parsed is not loaded. -/
theorem endCompile (hid : l₀.graph.size ≤ id) (file : Path) {c : Compilation} (hc : c.parsing = true) :
    Follows (Steps l₀) (Loader.endCompile id file c) := by
  have hcompiles := compiles hid
  refine Follows.get.bind fun l => .bind (.onlyIf ?_) fun _ => ?_
  · exact hcompiles.updateEntry fun e => ⟨rfl, rfl, rfl, rfl, rfl, rfl⟩
  · rw [if_pos hc]
    exact hcompiles.updateEntry fun e => ⟨rfl, rfl, rfl, rfl, rfl, rfl⟩

/-- In a parse-only pass a module stays in its partition. -/
theorem settle (hj : Newcomer l₀ job) (unexposed : Bool) (format : Format) :
    Follows (Steps l₀) (Loader.settle job.partition job.target.key unexposed format) := by
  intro l h
  unfold Loader.settle
  rw [run_bind, run_get, andThen_ok, h.parsing, Bool.not_true, Bool.and_false, if_neg (by decide), run_updateCache]
  unfold Cache.finish
  split
  · exact h.set hj.free _
  · exact h

theorem conclude (hj : Newcomer l₀ job) : Follows (Steps l₀) (Loader.conclude job) := by
  refine Follows.bind (fun l => refl l) fun e => (settle hj _ e.format).bind fun _ => (report _).bind fun _ => ?_
  refine .bind (fun l h => ?_) fun _ l h => ?_
  · rw [run_link]
    exact h.linked hj.asked _ _
  · rw [run_conceal]
    unfold Loader.concealed
    rw [if_pos h.parsing]
    exact h

section Nested

variable {nested : NestedLoad} (hn : ∀ request id, l₀.graph.size ≤ id → Follows (Steps l₀) (nested request id))
include hn

theorem compile (hid : l₀.graph.size ≤ id) (file : Path) :
    Follows (Steps l₀) (Loader.compile nested id file) := by
  intro l h
  have hprepare : Follows (Steps l₀) (Loader.prepare nested id file) := by
    refine ((compiles hid).beginCompile _).bind fun c => Follows.bind ?_ fun _ => .pure c
    refine ends_self.mp ((compiles hid).runTask .self (fun request => ends_self.mpr (hn request id hid)) _ ?_)
    exact Task.within_of_all report (fun _ => trivial) (fun _ => trivial) c.task
  have hprepared := hprepare l h
  rw [compile_eq, run_bind]
  generalize hr : l.run (Loader.prepare nested id file) = r at hprepared ⊢
  obtain ⟨e | c, l₁⟩ := r
  · exact hprepared
  · exact endCompile hid file ((congrArg Compilation.parsing (compiled_of_prepare hr).1).trans h.parsing) l₁ hprepared

theorem perform (hj : Newcomer l₀ job) : Follows (Steps l₀) (Loader.perform nested job) := by
  refine .bind (fun l h => ?_) fun _ => .bind (.onError (compile hn hj.new _) (vacate hj)) fun _ => ?_
  · rw [run_occupy]
    exact h.occupied hj
  · exact (conclude hj).bind fun _ => .pure _

theorem answer (request : String) {parent : Option EntryId} (hp : ∀ id ∈ parent, l₀.graph.size ≤ id) :
    Follows (Steps l₀) (Loader.answer nested request parent false) := by
  suffices hanswer : Keeps (Passing l₀) (fun _ => True) (fun _ => True)
      (Loader.answer nested request parent false) from hanswer.follows
  refine (seek request hp).bind fun found hfound => ?_
  cases found with
  | found id => exact .pure trivial
  | needs job =>
    intro l h
    have hperformed := perform hn hfound l h
    generalize l.run (Loader.perform nested job) = r at hperformed ⊢
    obtain ⟨_ | _, l'⟩ := r
    · exact ⟨hperformed, trivial⟩
    · exact ⟨hperformed, trivial⟩

end Nested

/-- Modules that are new ask for others, and so on; the induction is on the limit on nesting. -/
theorem loadNested (limit : Nat) (request : String) (hid : l₀.graph.size ≤ id) :
    Follows (Steps l₀) (Loader.loadNested limit request id) := by
  induction limit generalizing request id with
  | zero => exact .throw _
  | succ limit ih =>
    refine .reported report (answer (fun request id hid => ih request hid) request fun other hother => ?_) request
    cases hother
    exact hid

theorem load (request : String) : Follows (Steps l₀) (Loader.load request none false) := by
  refine Follows.get.bind fun l => .reported report (answer (fun asked _ hid => ?_) request ?_) request
  · exact loadNested (l.nestingBound request) asked hid
  · intro id hid
    cases hid

theorem beginning (l : Loader) : Passing l (l.withParsing true) where
  parsing := rfl
  main := rfl
  legacyMain := rfl
  size := Nat.le_refl _
  entry _ := rfl
  slot {p _ _} h := by cases p <;> exact h
  builtin h := h
  unloaded {id} hid hloaded := by
    have hnone : l.graph.entry id = default := by
      rw [Graph.entry, Array.getElem?_eq_none hid]
      rfl
    change (l.graph.entry id).isLoaded = true at hloaded
    rw [hnone] at hloaded
    cases hloaded

end Passing

/-! ## Discovery -/

/-- A discovery without a parent, whether it succeeds or fails, leaves everything as it was: whether a
parse-only pass runs, the main module, every module and every slot. The modules that it makes are not
loaded, except for builtin ones. -/
theorem untouched_of_discover (l : Loader) (request : String) :
    let l' := (l.run (discover request none)).2
    l'.cache.parsing = l.cache.parsing ∧ l'.cache.main? = l.cache.main? ∧
    l'.cache.legacyMain? = l.cache.legacyMain? ∧
    (∀ id, id < l.graph.size → l'.graph.entry id = l.graph.entry id) ∧
    (∀ p key s, l.cache.get? p key = some s → l'.cache.get? p key = some s) ∧
    (∀ name id, l.cache.builtins.get? name = some id → l'.cache.builtins.get? name = some id) ∧
    ∀ id, l.graph.size ≤ id → (l'.graph.entry id).isLoaded = true →
      ∃ name, l'.cache.builtins.get? name = some id := by
  rw [run_discover]
  have hpass := Passing.load request (l.withParsing true) (.beginning l)
  refine ⟨rfl, hpass.main, hpass.legacyMain, fun _ => hpass.entry, fun p key s hs => ?_,
    fun _ _ => hpass.builtin, fun _ => hpass.unloaded⟩
  have hslot := hpass.slot hs
  cases p <;> exact hslot

end Loader
end ModGraph
