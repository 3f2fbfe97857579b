import ModGraph.Proofs.Lockstep
import ModGraph.Proofs.Termination

/-!
# The requests of twins

The same request, made by an entry and by its twin, leads to twins (`Loader.Engaged.mirrors_seek`): to a module that
is there on both sides, or to one that has to be compiled on both sides. With what a compilation does this answers
requests, and by induction on the limit on nesting nested loads are mirrored (`Loader.inStep`), and so is a load from
the root of the graph (`Loader.Engaged.mirrors_loadWithin`).
-/

namespace ModGraph

open Loader (Job Target)

/-! ## New twins -/

namespace Entry.Kin

variable {parsing : Bool} {size : Nat} {m : EntryId → EntryId} {r r' : Option Referrer} {target : Target}

/-- The entries that are made for the same request are akin. -/
theorem newEntry (hids : r'.map Referrer.id = (r.map Referrer.id).map m) (hlt : ∀ i ∈ r.map Referrer.id, i < size) :
    (Loader.newEntry r target).Kin parsing none size m (Loader.newEntry r' target) where
  key := rfl
  package := rfl
  filename := rfl
  isLoaded _ := rfl
  name := .inl rfl
  paths := .inl rfl
  child hc := by cases hc
  barren _ := rfl
  parent {q} hq := by
    refine ⟨hlt q hq, ?_⟩
    show r'.map Referrer.id = some (m q)
    rw [hids]
    exact congrArg (Option.map m) hq
  orphan _ hq := by
    show r'.map Referrer.id = none
    rw [hids]
    exact congrArg (Option.map m) hq

theorem same {e : Entry} (hchildren : e.children = .empty) (hparent : e.parent = none) :
    e.Kin parsing none size m e where
  key := rfl
  package := rfl
  filename := rfl
  isLoaded _ := rfl
  name := .inl rfl
  paths := .inl rfl
  child hc := by
    rw [hchildren] at hc
    cases hc
  barren h := h
  parent hq := by
    rw [hparent] at hq
    cases hq
  orphan _ h := h

/-- What stays as it was is akin to a new entry that it agrees with. -/
theorem adopted {e b : Entry} (hkey : b.key = e.key) (hpackage : b.package = e.package)
    (hfile : b.module.filename = e.module.filename) (hloaded : b.isLoaded = e.isLoaded)
    (hchildren : e.children = .empty) (hparent : ∀ q, e.parent = some q → q < size)
    (horphan : e.parent = none → b.parent = none) : e.Kin parsing (some b) size m b where
  key := hkey
  package := hpackage
  filename := hfile
  isLoaded _ := hloaded
  name := .inr ⟨b, rfl, rfl⟩
  paths := .inr ⟨b, rfl, rfl⟩
  child hc := by
    rw [hchildren] at hc
    cases hc
  barren _ := rfl
  parent hq := ⟨hparent _ hq, rfl⟩
  orphan _ := horphan

end Entry.Kin

namespace Loader

variable {w : World} {parsing : Bool} {start : View} {m : EntryId → EntryId} {l l' : Loader} {limit : Nat}
  {request : String} {parent : Option EntryId}

/-! ## Looking for a module -/

/-- What is found on both sides: twins, or modules that are to be compiled for the same request. -/
inductive Finds (parsing : Bool) (start : View) (m : EntryId → EntryId) (size : Nat) :
    Finding → Loader → Finding → Loader → Prop where
  | found {id id' : EntryId} {l₁ l₁' : Loader} (h : Answers parsing start m size id l₁ id' l₁') :
      Finds parsing start m size (.found id) l₁ (.found id') l₁'
  | needs {job job' : Job} {l₁ l₁' : Loader} (h : Matched parsing start m size job l₁ job' l₁') :
      Finds parsing start m size (.needs job) l₁ (.needs job') l₁'

/-- The request is linked on both sides. -/
theorem Answers.linked {size : Nat} {id id' : EntryId} (h : Answers parsing start m size id l id' l')
    (hsize : size ≤ l.graph.size) {r r' : Option Referrer} (hids : r'.map Referrer.id = (r.map Referrer.id).map m)
    (hlt : ∀ i ∈ r.map Referrer.id, i < size) (request : String) :
    Answers parsing start m size id (l.linked r request id) id' (l'.linked r' request id') := by
  obtain ⟨m', ht, hm, hid, rfl⟩ := h
  have hids' : r'.map Referrer.id = (r.map Referrer.id).map m' := by
    rw [hids]
    exact Option.map_congr fun i hi => (hm i (hlt i hi)).symm
  have hlinked := ht.linked (fun i hi => Nat.lt_of_lt_of_le (hlt i hi) hsize) request hid
  refine ⟨m', ?_, hm, ?_, rfl⟩
  · rw [view_linked, view_linked, hids']
    exact hlinked
  · show id < (l.linked r request id).view.graph.size
    rw [view_linked, View.size_linked]
    exact hid

namespace Engaged

theorem of_seeks (h : l.Engaged w parsing) (hs : Spares (fun _ => False) l l') (hw : Watching.Lasts w l l')
    (hc : l'.compilers = l.compilers) (hp : l'.cache.parsing = l.cache.parsing) : l'.Engaged w parsing :=
  { (hs h.toConsistent).consistent, hw h.toWatching with
    compilers := hc.trans h.compilers
    parsing := hp.trans h.parsing }

theorem retried (h : l.Engaged w parsing) (request : String) (parent : Option EntryId) (isMain : Bool) :
    (l.retried request parent isMain).Engaged w parsing :=
  h.of_seeks (Spares.seeks.retried l request parent isMain) (Watching.seeks.retried l request parent isMain) rfl rfl

/-- The package of a file is looked up, and it is the one that the file has in the world. -/
theorem packaged (h : l.Engaged w parsing) {file : Path} (hfile : l.resolved request parent false = .ok (.file file)) :
    (l.packaged file).Engaged w parsing ∧ l.packageOf file = w.package file :=
  ⟨h.of_seeks (Spares.seeks.packaged hfile) (Watching.seeks.packaged hfile) rfl rfl,
    (h.sees.packaged (h.canonical_of_resolved hfile)).1⟩

/-- A module without a slot is to be compiled, and so is its twin. -/
theorem finds_of_missing {target : Target} {r r' : Option Referrer}
    (hsight : r'.map Referrer.sight = r.map Referrer.sight) (hids : r'.map Referrer.id = (r.map Referrer.id).map m)
    (hlt : ∀ i ∈ r.map Referrer.id, i < l.graph.size) (hnarrow : target.package.options.cjs.paths = false)
    {p p' : Partition} {j : EntryId} {l₁ l₁' : Loader} (hview : l₁.view = l.view.add (newEntry r target))
    (hpackage : (l₁'.graph.entry j).package = target.package)
    (hblank : (l₁'.graph.entry j).module.exports = .object [] ∨ target.filename.extension = some "json")
    (htwins : Twins parsing start (some l.graph.size) (Twins.extend m l.graph.size j)
      (l₁.view.put (.module target.key) (.loading l.graph.size)) (l₁'.view.put (.module target.key) (.loading j))) :
    Finds parsing start m l.graph.size (.needs ⟨request, r, false, target, p, l.graph.size⟩) l₁
      (.needs ⟨request, r', false, target, p', j⟩) l₁' := by
  have hsize : l₁.graph.size = l.graph.size + 1 := (congrArg (·.graph.size) hview).trans (Graph.size_add _ _)
  exact .needs {
    paired := ⟨rfl, rfl, hsight, hids, hlt⟩
    main := rfl
    main' := rfl
    fresh := rfl
    inRange := hsize ▸ Nat.lt_succ_self _
    entry := (congrArg (·.graph.entry l.graph.size) hview).trans (Graph.entry_add_self _ _)
    narrow := hnarrow
    package := hpackage
    blank := hblank
    twins := htwins }

variable (hstart : start.Shelf w parsing) (hn : w.Narrow) (hl : l.Engaged w false) (hl' : l'.Engaged w parsing)
  (ht : Twins parsing start none m l.view l'.view)

include hl hl' ht in
/-- A module that has a slot is there on both sides. -/
theorem mirrors_met_of_held {target : Target} {s : Slot} (hheld : l.view.held (.module target.key) = some s)
    {r r' : Option Referrer} (hids : r'.map Referrer.id = (r.map Referrer.id).map m)
    (hlt : ∀ i ∈ r.map Referrer.id, i < l.graph.size) :
    Mirrors parsing (Finds parsing start m l.graph.size) (l.met request r false target)
      (l'.met request r' false target) := by
  obtain ⟨i, hi, hs⟩ := ht.finding hheld
  have hheld' : l'.view.held (.module target.key) = some (s.renamed m) := by
    rw [ht.held, hheld]
    rfl
  have hs' : s.renamed m = .loading (m i) ∨ s.renamed m = .ready (m i) ∧
      ((l'.graph.entry (m i)).isLoaded = true ∨ l'.cache.parsing = true) := by
    rcases hs with rfl | ⟨rfl, hloaded⟩
    · exact .inl rfl
    · refine .inr ⟨rfl, ?_⟩
      cases hp : parsing with
      | false => exact .inl (((ht.kin hi).isLoaded hp).trans hloaded)
      | true => exact .inr (hl'.parsing.trans hp)
  obtain ⟨l₁, hrun, hview⟩ := met_of_hit hl.exclusive hheld (hs.imp_right fun h => ⟨h.1, .inl h.2⟩) request r false
  obtain ⟨l₁', hrun', hview'⟩ := met_of_hit hl'.exclusive hheld' hs' request r' false
  rw [hrun, hrun']
  refine ⟨_, _, rfl, .found ⟨m, ?_, fun _ _ => rfl, ?_, rfl⟩⟩
  · rw [hview, hview', hids]
    exact ht.linked hlt request hi
  · show i < l₁.view.graph.size
    rw [hview, View.size_linked]
    exact hi

include hstart hl' ht in
/-- A module that is there since the start, and that is no twin yet, is to be compiled by a load. -/
theorem met_of_adopted {target : Target} (hkey : keyFile target.key = target.filename)
    (hpackage : target.package = w.package target.filename) (hheld : l.view.held (.module target.key) = none)
    {j : EntryId} (hparsed : start.held (.module target.key) = some (.ready j)) {r : Option Referrer}
    (hlt : ∀ i ∈ r.map Referrer.id, i < l.graph.size)
    (hroot : r = none → (start.graph.entry j).parent = none) (r' : Option Referrer) :
    ∃ p l₁', l'.met request r' false target = (.ok (.needs ⟨request, r', false, target, p, j⟩), l₁') ∧
      l₁'.graph.entry j = start.graph.entry j ∧
      Twins parsing start (some l.graph.size) (Twins.extend m l.graph.size j)
        ((l.view.add (newEntry r target)).put (.module target.key) (.loading l.graph.size))
        (l₁'.view.put (.module target.key) (.loading j)) := by
  have hp : parsing = false := by
    by_contra hp
    rw [hstart.empty (by simpa using hp)] at hparsed
    cases hparsed
  obtain ⟨hheld', huntouched⟩ := ht.remains hstart.toShelved hheld hparsed
  change l'.graph.entry j = _ at huntouched
  obtain ⟨p', l₁', hrun', hview'⟩ := met_of_ready hl'.exclusive hheld'
    (huntouched ▸ hstart.unloaded hparsed) (hl'.parsing.trans hp) request r' false
  have hadopted := ht.adopt hstart.toShelved hheld hparsed (e := newEntry r target)
    (.adopted (hstart.key hparsed) (by rw [hstart.package hparsed, hkey, ← hpackage]; rfl)
      ((hstart.filename hparsed).trans hkey) (hstart.unloaded hparsed) rfl (fun q hq => hlt q hq)
      fun hq => hroot (Option.map_eq_none_iff.mp hq)) (.inl rfl)
  dsimp only at hadopted
  rw [(Twins.renamed_extend m _ _).1, ← hview'] at hadopted
  exact ⟨p', l₁', hrun', (congrArg (·.graph.entry j) hview').trans huntouched, hadopted⟩

include ht in
/-- Who asks looks to a resolver as its twin does. -/
theorem sight_of_alike (ha : Alike m l l' parent) :
    (l'.referrer? (parent.map m)).map Referrer.sight = (l.referrer? parent).map Referrer.sight := by
  cases parent with
  | none => rfl
  | some i =>
    obtain ⟨hi, hformat, -⟩ := ha i rfl
    have hkin := ht.kin hi
    exact congrArg some (Prod.ext hkin.filename (Prod.ext hformat hkin.package))

include hl hl' ht in
/-- A request of an entry stands for what that of its twin does. -/
theorem resolved_of_alike (ha : Alike m l l' parent) (request : String) :
    l'.resolved request (parent.map m) false = l.resolved request parent false := by
  have hnarrow : ∀ r ∈ l.referrer? parent, r.package.options.cjs.paths = false := by
    cases parent with
    | none => nofun
    | some i =>
      rintro _ ⟨⟩
      exact (ha i rfl).2.2
  unfold resolved
  rw [hl.sees.resolver, hl.sees.files, hl'.sees.resolver, hl'.sees.files]
  exact resolution_of_sight (sight_of_alike ht ha) hnarrow _ _

include ht in
/-- A builtin module that was asked for before is there on both sides. -/
theorem answers_builtinOf_of_held {name : String} {id : EntryId} (hb : l.cache.builtins.get? name = some id) :
    Answers parsing start m l.graph.size (l.builtinOf name).1 (l.builtinOf name).2
      (l'.builtinOf name).1 (l'.builtinOf name).2 := by
  have hheld : l.view.held (.builtin name) = some (.ready id) := held_builtin.mpr ⟨id, hb, rfl⟩
  have hid : id < l.graph.size := by
    obtain ⟨i, hi, hs | ⟨hs, -⟩⟩ := ht.finding hheld
    · cases hs
    · cases hs
      exact hi
  have hheld' : l'.view.held (.builtin name) = some (.ready (m id)) := by
    rw [ht.held, hheld]
    rfl
  simp only [Loader.builtinOf, hb, builtins_of_held hheld']
  exact ⟨m, ht, fun _ _ => rfl, hid, rfl⟩

include hl hl' ht in
/-- The entry of a builtin module that no one asked for is made on both sides. -/
theorem answers_builtinOf_of_made {name : String} (hb : l.cache.builtins.get? name = none)
    (hknown : start.held (.builtin name) = none) :
    Answers parsing start m l.graph.size (l.builtinOf name).1 (l.builtinOf name).2
      (l'.builtinOf name).1 (l'.builtinOf name).2 := by
  have hheld : l.view.held (.builtin name) = none := congrArg (Option.map Slot.ready) hb
  have hheld' : l'.view.held (.builtin name) = none := by
    rw [ht.held, hheld, hknown]
    rfl
  have hb' : l'.cache.builtins.get? name = none := Option.map_eq_none_iff.mp hheld'
  have hview := view_builtinOf hb
  have hview' := view_builtinOf hb'
  rw [hl.builtinEntry] at hview
  rw [hl'.builtinEntry] at hview'
  have hmade := ht.make hheld hknown (e := w.builtinEntry name) (.same rfl rfl) (.inr ⟨rfl, rfl⟩)
  dsimp only at hmade
  rw [(Twins.renamed_extend m _ _).2] at hmade
  obtain ⟨hfst, hsize⟩ := builtinOf_of_none hb
  refine ⟨Twins.extend m l.graph.size l'.graph.size, ?_, fun i hi => Twins.extend_of_lt m _ hi, ?_, ?_⟩
  · rw [hview, hview']
    have hentry := Graph.entry_add_self l'.graph (w.builtinEntry name)
    exact hmade.settle_extend ⟨congrArg Entry.format hentry, congrArg (·.module.exports) hentry⟩
  · rw [hfst, hsize]
    exact Nat.lt_succ_self _
  · rw [hfst, (builtinOf_of_none hb').1]
    exact Twins.extend_self _ _ _

include hstart hl ht in
/-- A pass has made the entry of a builtin module, and the load behind it finds the entry. -/
theorem answers_builtinOf_of_known {name : String} {s : Slot} (hb : l.cache.builtins.get? name = none)
    (hknown : start.held (.builtin name) = some s) :
    Answers parsing start m l.graph.size (l.builtinOf name).1 (l.builtinOf name).2
      (l'.builtinOf name).1 (l'.builtinOf name).2 := by
  have hheld : l.view.held (.builtin name) = none := congrArg (Option.map Slot.ready) hb
  have hview := view_builtinOf hb
  rw [hl.builtinEntry] at hview
  obtain ⟨j, -, rfl⟩ := hstart.ready hknown
  obtain ⟨hheld', huntouched⟩ := ht.remains hstart.toShelved hheld hknown
  obtain ⟨children, hentry⟩ := hstart.builtin hknown
  have hadopted := ht.adopt hstart.toShelved hheld hknown (e := w.builtinEntry name) (by
    rw [hentry]
    exact .adopted rfl rfl rfl rfl rfl (by rintro _ ⟨⟩) fun _ => rfl) (.inr ⟨rfl, rfl⟩)
  dsimp only at hadopted
  rw [(Twins.renamed_extend m _ _).2, View.put_of_held hheld'] at hadopted
  have hrun' : l'.builtinOf name = (j, l') := by simp only [Loader.builtinOf, builtins_of_held hheld']
  obtain ⟨hfst, hsize⟩ := builtinOf_of_none hb
  rw [hrun', hfst]
  refine ⟨Twins.extend m l.graph.size j, ?_, fun i hi => Twins.extend_of_lt m _ hi, ?_, Twins.extend_self _ _ _⟩
  · rw [hview]
    refine hadopted.settle_extend ?_
    rw [huntouched, hentry]
    exact ⟨rfl, rfl⟩
  · rw [hsize]
    exact Nat.lt_succ_self _

include hstart hl hl' ht

include hn in
/-- A module is met on both sides: it is there, or it is to be compiled. -/
theorem mirrors_met {target : Target} (hkey : keyFile target.key = target.filename)
    (hpackage : target.package = w.package target.filename) {r r' : Option Referrer}
    (hsight : r'.map Referrer.sight = r.map Referrer.sight)
    (hids : r'.map Referrer.id = (r.map Referrer.id).map m)
    (hlt : ∀ i ∈ r.map Referrer.id, i < l.graph.size)
    (hroot : r = none → ∀ j, start.held (.module target.key) = some (.ready j) →
      (start.graph.entry j).parent = none) :
    Mirrors parsing (Finds parsing start m l.graph.size) (l.met request r false target)
      (l'.met request r' false target) := by
  cases hheld : l.view.held (.module target.key) with
  | some s => exact mirrors_met_of_held hl hl' ht hheld hids hlt
  | none =>
    obtain ⟨p, l₁, hrun, hview⟩ := met_of_missing hheld request r false
    have hnarrow : target.package.options.cjs.paths = false := hpackage ▸ hn _
    rw [hrun]
    cases hparsed : start.held (.module target.key) with
    | none =>
      have hheld' : l'.view.held (.module target.key) = none := by
        rw [ht.held, hheld, hparsed]
        rfl
      obtain ⟨p', l₁', hrun', hview'⟩ := met_of_missing hheld' request r' false
      have hentry' : l₁'.graph.entry l'.graph.size = newEntry r' target :=
        (congrArg (·.graph.entry l'.graph.size) hview').trans (Graph.entry_add_self _ _)
      have hmade := ht.make hheld hparsed (e := newEntry r target) (.newEntry hids hlt) (.inl rfl)
      dsimp only at hmade
      rw [(Twins.renamed_extend m _ _).1, ← hview, ← hview'] at hmade
      exact ⟨_, _, hrun', finds_of_missing hsight hids hlt hnarrow hview (congrArg Entry.package hentry')
        (.inl (congrArg (·.module.exports) hentry')) hmade⟩
    | some b =>
      -- what a pass has parsed is taken over by the load behind it
      obtain ⟨j, -, rfl⟩ := hstart.ready hparsed
      obtain ⟨p', l₁', hrun', hentry', hadopted⟩ := met_of_adopted hstart hl' ht hkey hpackage hheld hparsed hlt
        (fun hr => hroot hr j hparsed) r'
      rw [← hview] at hadopted
      refine ⟨_, _, hrun', finds_of_missing hsight hids hlt hnarrow hview ?_ ?_ hadopted⟩
      · rw [hentry', hstart.package hparsed, hkey, ← hpackage]
      · rw [hentry', ← hkey]
        exact hstart.blank hparsed

/-- A builtin module is there on both sides, or its entry is made. -/
theorem answers_builtinOf (name : String) :
    Answers parsing start m l.graph.size (l.builtinOf name).1 (l.builtinOf name).2
      (l'.builtinOf name).1 (l'.builtinOf name).2 := by
  cases hb : l.cache.builtins.get? name with
  | some id => exact answers_builtinOf_of_held ht hb
  | none =>
    cases hknown : start.held (.builtin name) with
    | none => exact answers_builtinOf_of_made hl hl' ht hb hknown
    | some s => exact answers_builtinOf_of_known hstart hl ht hb hknown

include hn in
/-- A request is the same for twins, and so is what it leads to. -/
theorem mirrors_seek (ha : Alike m l l' parent)
    (hroot : parent = none → ∀ file j, l.resolved request none false = .ok (.file file) →
      start.held (.module (cacheKey file (splitQuery request).2)) = some (.ready j) →
      (start.graph.entry j).parent = none) :
    Mirrors parsing (Finds parsing start m l.graph.size) (l.run (Loader.seek request parent false))
      (l'.run (Loader.seek request (parent.map m) false)) := by
  have hsight := sight_of_alike ht ha
  have hids : (l'.referrer? (parent.map m)).map Referrer.id = ((l.referrer? parent).map Referrer.id).map m := by
    cases parent <;> rfl
  have hlt : ∀ i ∈ (l.referrer? parent).map Referrer.id, i < l.graph.size := by
    cases parent with
    | none => nofun
    | some i =>
      rintro _ ⟨⟩
      exact (ha i rfl).1
  have hresolved := resolved_of_alike hl hl' ht ha request
  rw [hl.toOrderly.run_seek, hl'.toOrderly.run_seek, hresolved]
  have hretried := hl.retried request parent false
  have hretried' := hl'.retried request (parent.map m) false
  cases hfound : l.resolved request parent false with
  | error e => exact fun _ => rfl
  | ok found =>
    rw [hfound] at hresolved
    cases found with
    | builtin name =>
      have hanswers := answers_builtinOf hstart hretried hretried' ht name
      have hspares : Spares (fun _ => False) _ ((l.retried request parent false).builtinOf name).2 :=
        Spares.seeks.builtinOf _ name
      exact ⟨_, _, rfl, .found (hanswers.linked (hspares hretried.toConsistent).size hids hlt request)⟩
    | file file =>
      have hfound₁ : (l.retried request parent false).resolved request parent false = .ok (.file file) := hfound
      have hfound₂ : (l'.retried request (parent.map m) false).resolved request (parent.map m) false
          = .ok (.file file) := hresolved
      obtain ⟨hpackaged, hpackage⟩ := hretried.packaged hfound₁
      obtain ⟨hpackaged', hpackage'⟩ := hretried'.packaged hfound₂
      have htarget : l'.target request file = l.target request file := by
        unfold target
        rw [show l'.packageOf file = l.packageOf file from hpackage'.trans hpackage.symm]
      dsimp only
      rw [htarget]
      obtain ⟨q, hq⟩ := resolve_of_resolution hfound
      refine mirrors_met hstart hn hpackaged hpackaged' ht
        (keyFile_cacheKey (Resolver.unmarked_of_resolve hq hl.unmarked.names) request) hpackage hsight hids hlt
        fun hr j => ?_
      obtain rfl : parent = none := Option.map_eq_none_iff.mp hr
      exact hroot rfl file j hfound

end Engaged

/-! ## Answering requests -/

/-- What is found on both sides is an answer, or it is compiled on both sides. -/
theorem Mirrors.answer (hstep : InStep w parsing start limit) (hl : l.Engaged w false) (hl' : l'.Engaged w parsing)
    {request' : String} {parent' : Option EntryId} {size : Nat}
    (h : Mirrors parsing (Finds parsing start m size) (l.run (Loader.seek request parent false))
      (l'.run (Loader.seek request' parent' false))) :
    Mirrors parsing (Answers parsing start m size) (l.run (Loader.answer (loadNested limit) request parent false))
      (l'.run (Loader.answer (loadNested limit) request' parent' false)) := by
  have hengaged := hl.seek request parent false
  have hengaged' := hl'.seek request' parent' false
  unfold Loader.answer
  rw [run_bind, run_bind]
  refine h.andThen fun {found l₁ found' l₁'} hrun hrun' hfinds => ?_
  rw [hrun] at hengaged
  rw [hrun'] at hengaged'
  cases hfinds with
  | found hanswers => exact ⟨_, _, rfl, hanswers⟩
  | needs hmatched =>
    exact hmatched.perform hstep hengaged hengaged' ⟨l, request, parent, false, hl.toConsistent, hrun⟩
      ⟨l', request', parent', false, hl'.toConsistent, hrun'⟩

/-- Reporting does not matter. -/
theorem Mirrors.reported {action action' : LoadM EntryId} {size : Nat} (request : String)
    (h : Mirrors parsing (Answers parsing start m size) ((l.noted [.enters request .resolving]).run action)
      ((l'.noted [.enters request .resolving]).run action')) :
    Mirrors parsing (Answers parsing start m size) (l.run (Loader.reported request action))
      (l'.run (Loader.reported request action')) := by
  rw [run_reported, run_reported]
  generalize Loader.run _ action = r at h ⊢
  generalize Loader.run _ action' = r' at h ⊢
  obtain ⟨e | id, l₁⟩ := r
  · obtain ⟨result, l₁'⟩ := r'
    intro hp
    obtain rfl : result = .error e := h hp
    rfl
  · obtain ⟨id', l₁', rfl, h⟩ := h
    exact ⟨_, _, rfl, h⟩

namespace Engaged

/-- A load is mirrored if nested loads are. -/
theorem mirrors_loadWithin (hstart : start.Shelf w parsing) (hn : w.Narrow) (hstep : InStep w parsing start limit)
    (hl : l.Engaged w false) (hl' : l'.Engaged w parsing) (ht : Twins parsing start none m l.view l'.view)
    (ha : Alike m l l' parent)
    (hroot : parent = none → ∀ file j, l.resolved request none false = .ok (.file file) →
      start.held (.module (cacheKey file (splitQuery request).2)) = some (.ready j) →
      (start.graph.entry j).parent = none) :
    Mirrors parsing (Answers parsing start m l.graph.size) (l.run (loadWithin request parent false limit))
      (l'.run (loadWithin request (parent.map m) false limit)) :=
  .reported request (.answer hstep (hl.noted _) (hl'.noted _)
    ((hl.noted _).mirrors_seek hstart hn (hl'.noted _) ht ha hroot))

end Engaged

/-- Nested loads are mirrored, however deep they may go. -/
theorem inStep (hstart : start.Shelf w parsing) (hn : w.Narrow) (limit : Nat) : InStep w parsing start limit := by
  induction limit with
  | zero => exact fun _ _ _ _ _ _ _ => rfl
  | succ limit ih =>
    intro m l l' request id hl hl' ht ha
    exact hl.mirrors_loadWithin hstart hn ih hl' ht ha nofun

end Loader
end ModGraph
