import Mathlib.Data.Finset.Prod
import ModGraph.Proofs.Compilations
import ModGraph.Proofs.Limits
import ModGraph.Proofs.Reading
import ModGraph.Proofs.RequestLengths

/-!
# How deep requests nest

Every key is made of the canonical path of a file and of the query of a request. Spellings of paths and
texts of requests have a limited length while nothing is read but the files there are, so there are
finitely many keys that can come up (`mem_possibleKeys`). A module in progress occupies one of them and
no nested load gives one up, so that requests nest no deeper than there are keys left.
-/

namespace ModGraph

open Relation (ReflTransGen)

/-! ## Texts of a limited length -/

namespace Text

/-- All texts with at most so many characters, whose code points lie below some bound. -/
def upTo (points : Nat) : Nat → List (List Char)
  | 0 => [[]]
  | length + 1 =>
    [] :: (List.range points).flatMap fun c => (upTo points length).map (Char.ofNat c :: ·)

theorem length_upTo (points length : Nat) : (upTo points length).length ≤ (points + 1) ^ length := by
  induction length with
  | zero => exact Nat.le_refl _
  | succ length ih =>
    have hpos : 0 < (points + 1) ^ length := Nat.pow_pos (Nat.succ_pos _)
    have hmul : points * (upTo points length).length ≤ points * (points + 1) ^ length :=
      Nat.mul_le_mul_left _ ih
    have hflat : ((List.range points).flatMap fun c => (upTo points length).map (Char.ofNat c :: ·)).length
        = points * (upTo points length).length := by
      simp [List.length_flatMap, List.map_const']
    rw [upTo, List.length_cons, hflat, Nat.pow_succ, Nat.mul_add, Nat.mul_comm _ points]
    omega

theorem mem_upTo {points length : Nat} {cs : List Char} (hpoints : ∀ c : Char, c.toNat < points)
    (h : cs.length ≤ length) : cs ∈ upTo points length := by
  induction length generalizing cs with
  | zero =>
    obtain rfl := List.length_eq_zero_iff.mp (Nat.le_zero.mp h)
    exact List.mem_singleton_self _
  | succ length ih =>
    cases cs with
    | nil => exact List.mem_cons_self
    | cons c cs =>
      refine List.mem_cons_of_mem _ (List.mem_flatMap.mpr ⟨c.toNat, List.mem_range.mpr (hpoints c), ?_⟩)
      rw [Char.ofNat_toNat]
      exact List.mem_map.mpr ⟨cs, ih (Nat.le_of_succ_le_succ h), rfl⟩

/-- The number of code points. -/
def codePoints : Nat := 0x110000

theorem toNat_lt_codePoints (c : Char) : c.toNat < codePoints := by
  have h : c.toNat < 0x110000 := by
    rcases c.valid with h | h
    · exact Nat.lt_trans h (by decide)
    · exact h.2
  exact h

theorem length_upTo_codePoints (length : Nat) : (upTo codePoints length).length ≤ count length :=
  length_upTo codePoints length

end Text

namespace Loader

variable {l l' : Loader} {job : Job} {fs : FileSystem} {n m : Nat}

/-! ## The keys that can come up -/

/-- The keys that are made of a spelling and a query of limited lengths. -/
@[irreducible] def keysOf (fs : FileSystem) (spelling query : Nat) : Finset String :=
  let texts (length : Nat) : Finset (List Char) := (Text.upTo Text.codePoints length).toFinset
  ((texts spelling ×ˢ {true, false}) ×ˢ texts query).image fun ((spelling, preserve), query) =>
    (realize fs ⟨String.ofList spelling⟩ preserve).text ++ String.ofList query

theorem mem_keysOf (fs : FileSystem) {p : Path} {text : String} {spelling query : Nat} (preserve : Bool)
    (hp : p.text.length ≤ spelling) (hq : text.length ≤ query) :
    (realize fs p preserve).text ++ text ∈ keysOf fs spelling query := by
  rw [← String.length_toList] at hp hq
  unfold keysOf
  refine Finset.mem_image.mpr ⟨((p.text.toList, preserve), text.toList), ?_, ?_⟩
  · simp only [Finset.mem_product, List.mem_toFinset, Finset.mem_insert, Finset.mem_singleton]
    refine ⟨⟨Text.mem_upTo Text.toNat_lt_codePoints hp, ?_⟩, Text.mem_upTo Text.toNat_lt_codePoints hq⟩
    cases preserve
    · exact .inr rfl
    · exact .inl rfl
  · simp only [String.ofList_toList]

theorem card_keysOf (fs : FileSystem) (spelling query : Nat) :
    (keysOf fs spelling query).card ≤ 2 * Text.count spelling * Text.count query := by
  have htexts : ∀ length, (Text.upTo Text.codePoints length).toFinset.card ≤ Text.count length :=
    fun length => Nat.le_trans (List.toFinset_card_le _) (Text.length_upTo_codePoints length)
  unfold keysOf
  refine Nat.le_trans Finset.card_image_le ?_
  rw [Finset.card_product, Finset.card_product, Nat.mul_comm 2]
  exact Nat.mul_le_mul (Nat.mul_le_mul (htexts _) Finset.card_le_two) (htexts query)

/-- The keys for files of a file system and for requests of a limited length. -/
def possibleKeys (fs : FileSystem) (n : Nat) : Finset String :=
  keysOf fs FileSystem.maxPathBytes n

/-- The path of a file that is found makes a possible key with every text of a limited length. -/
theorem mem_possibleKeys_of_resolve {r : Resolver} {q : Resolver.Query} {file : Path} {text : String}
    (h : r.resolve fs q = .ok (.file file)) (hn : text.length ≤ n) : file.text ++ text ∈ possibleKeys fs n := by
  obtain ⟨p, hp, hreal⟩ := Resolver.realize_of_resolve h
  obtain ⟨loc, content, hfind⟩ := FileSystem.find_of_isFile hp
  have hspelling : p.text.length ≤ FileSystem.maxPathBytes :=
    Nat.le_trans (FileSystem.length_le_utf8ByteSize _) (FileSystem.knows_of_find hfind).2.1
  have hmem := mem_keysOf fs (r.preserves q) hspelling hn
  exact hreal ▸ hmem

/-- The key of every file that a request of a limited length leads to is a possible one. -/
theorem mem_possibleKeys {request : String} {parent : Option EntryId} {isMain : Bool} {file : Path}
    (hfile : l.resolved request parent isMain = .ok (.file file)) (hn : request.length ≤ n) :
    cacheKey file (splitQuery request).2 ∈ possibleKeys l.files n := by
  obtain ⟨q, hq⟩ := resolve_of_resolution hfile
  refine mem_possibleKeys_of_resolve hq ?_
  unfold splitQuery
  dsimp only
  split
  · exact Nat.zero_le _
  · refine Nat.le_trans ?_ hn
    rw [Option.getD_some, ← String.length_toList, ← String.length_toList, String.toList_ofList]
    exact (List.dropWhile_sublist _).length_le

/-- There are no more possible keys than the bound on nesting allows for. -/
theorem card_possibleKeys (fs : FileSystem) (n : Nat) :
    (possibleKeys fs n).card ≤ 2 * Text.count FileSystem.maxPathBytes * Text.count n :=
  card_keysOf fs FileSystem.maxPathBytes n

/-- The keys of some that no module in progress occupies. -/
def free (l : Loader) (keys : Finset String) : Finset String :=
  keys.filter fun key => (l.cache.slot? key).any (·.2.isLoading) = false

theorem mem_free {keys : Finset String} {key : String} :
    key ∈ l.free keys ↔ key ∈ keys ∧ ∀ p id, ¬ l.InProgress key p id := by
  refine Finset.mem_filter.trans (and_congr_right fun _ => ?_)
  unfold InProgress
  cases l.cache.slot? key with
  | none => simp
  | some found =>
    obtain ⟨p, s⟩ := found
    cases s <;> simp [Slot.isLoading]

theorem free_congr (keys : Finset String) (h : ∀ key p id, l'.InProgress key p id ↔ l.InProgress key p id) :
    l'.free keys = l.free keys := by
  ext key
  simp only [mem_free, h]

/-- A module that is begun takes a key. -/
theorem card_free_occupied {keys : Finset String} (hr : l.Ready job) (hkey : job.target.key ∈ keys) :
    ((l.occupied job).free keys).card < (l.free keys).card := by
  have hsub : (l.occupied job).free keys ⊆ l.free keys := by
    intro key hk
    obtain ⟨hmem, hfree⟩ := mem_free.mp hk
    refine mem_free.mpr ⟨hmem, fun p id hp => ?_⟩
    have hne : job.target.key ≠ key := fun heq => hr.idle p id (heq ▸ hp)
    exact hfree p id ((hr.slot?_occupied key).trans ((if_neg hne).trans hp))
  refine Finset.card_lt_card ((Finset.ssubset_iff_of_subset hsub).mpr
    ⟨job.target.key, mem_free.mpr ⟨hkey, hr.idle⟩, fun hk => ?_⟩)
  exact (mem_free.mp hk).2 _ _ ((hr.slot?_occupied _).trans (if_pos rfl))

/-! ## Texts that a loader knows -/

/-- A reader gives nothing but what the files hold. -/
def Faithful (l : Loader) : Prop :=
  ∀ fs file text, l.reader fs file = .ok text → fs.readText file = .ok text

/-- What a loader has read, or can read from the files, holds no longer requests than some length. -/
structure Bounded (fs : FileSystem) (n : Nat) (l : Loader) : Prop where
  codeCache : l.codeCache? = none
  faithful : l.Faithful
  files : l.files = fs
  file : ∀ {loc content}, fs.nodes.get? loc = some (.file content) → content.size ≤ n
  source : ∀ {file text}, l.sources.get? file = some text → text.length ≤ n
  program : ∀ {file p}, l.programs.get? file = some p → ∀ request ∈ p.requests, request.length ≤ n

theorem Bounded.of_eq (h : l.Bounded fs n) (hc : l'.codeCache? = l.codeCache?) (hr : l'.reader = l.reader)
    (hf : l'.files = l.files) (hs : l'.sources = l.sources) (hp : l'.programs = l.programs) :
    l'.Bounded fs n where
  codeCache := hc.trans h.codeCache
  faithful := by
    unfold Faithful
    rw [hr]
    exact h.faithful
  files := hf.trans h.files
  file := h.file
  source h' := h.source (hs ▸ h')
  program h' := h.program (hp ▸ h')

/-- What is read is no longer than the files. -/
theorem Bounded.keeps_source (file : Path) :
    Keeps (Bounded fs n) (·.length ≤ n) (·.isTooDeep = false) (sourceOf file) := by
  intro l hl
  cases hs : l.sources.get? file.components with
  | some text =>
    rw [run_sourceOf_of_get? hs]
    exact ⟨hl, hl.source hs⟩
  | none =>
    rw [run_sourceOf_of_none hs]
    cases hr : l.reader l.files file with
    | error fault => exact ⟨hl.of_eq rfl rfl rfl rfl rfl, rfl⟩
    | ok text =>
      obtain ⟨loc, content, hcontent, hlen⟩ := FileSystem.length_of_readText (hl.faithful _ _ _ hr)
      have htext : text.length ≤ n := Nat.le_trans hlen (hl.file (hl.files ▸ hcontent))
      refine ⟨{ hl with source := fun h => ?_ }, htext⟩
      rw [learning, Table.get?_insert] at h
      split at h
      · exact Option.some.inj h ▸ htext
      · exact hl.source h

/-- What a program asks for is no longer than the files. -/
theorem Bounded.keeps_program (file : Path) :
    Keeps (Bounded fs n) (fun p => ∀ request ∈ p.requests, request.length ≤ n) (·.isTooDeep = false)
      (programOf file) := by
  intro l hl
  unfold programOf
  rw [run_bind, run_get, andThen_ok]
  cases hp : l.programs.get? file.components with
  | some p => exact ⟨hl, hl.program hp⟩
  | none =>
    dsimp only
    refine Keeps.bind (keeps_source file) (fun source hsource => ?_) l hl
    have hscanned : Keeps (Bounded fs n) (fun p => ∀ request ∈ p.requests, request.length ≤ n)
        (·.isTooDeep = false) (scanSource file source) := by
      intro l hl
      rw [run_scanSource_bare hl.codeCache]
      cases hscan : scanOf file source with
      | error e =>
        obtain ⟨fault, rfl⟩ := error_of_scanOf hscan
        exact ⟨hl, rfl⟩
      | ok p =>
        have hlength := Source.length_of_scan (scanOf_eq_ok.mp hscan)
        exact ⟨hl, fun request hr => Nat.le_trans (hlength request hr) hsource⟩
    refine hscanned.bind fun p hp l hl => ?_
    refine ⟨{ hl with program := fun h => ?_ }, hp⟩
    rw [Table.get?_insert] at h
    split at h
    · exact Option.some.inj h ▸ hp
    · exact hl.program h

theorem Bounded.respects : Respects (fun l l' => l.Bounded fs n → l'.Bounded fs n) where
  refl _ := id
  trans _ _ _ h h' := h' ∘ h
  report _ _ h := h.of_eq rfl rfl rfl rfl rfl
  addEntry _ _ h := h.of_eq rfl rfl rfl rfl rfl
  updateEntry _ _ _ _ h := h.of_eq rfl rfl rfl rfl rfl
  updateCache _ _ h := h.of_eq rfl rfl rfl rfl rfl
  builtin name l h := by
    rw [run_builtin]
    unfold builtinOf
    split
    · exact h
    · exact h.of_eq rfl rfl rfl rfl rfl
  package _ _ h := h.of_eq rfl rfl rfl rfl rfl
  source file := (keeps_source file).follows
  program file := (keeps_program file).follows

/-! ## Loads that have room -/

/-- No slot holds the error that requests nest too deep. -/
def Calm (l : Loader) : Prop :=
  ∀ p key e, l.cache.get? p key = some (.poisoned e) → e.isTooDeep = false

/-- A loader with the compilers that come with it, in which less than some number of keys is left. -/
structure Roomy (fs : FileSystem) (n m : Nat) (l : Loader) : Prop extends Consistent l where
  shipped : l.compilers.Shipped
  bounded : l.Bounded fs n
  calm : l.Calm
  room : (l.free (possibleKeys fs n)).card < m

namespace Roomy

variable {α : Type} {id : EntryId} {own : EntryId → Prop}

/-- What keeps the slots of modules in progress keeps the room. -/
theorem of_spared (h : l.Roomy fs n m) (hs : Spared own l l') (hc : l'.compilers = l.compilers)
    (hb : l'.Bounded fs n) (hcalm : l'.Calm) : l'.Roomy fs n m :=
  { hs.consistent with
    shipped := hc ▸ h.shipped
    bounded := hb
    calm := hcalm
    room := by
      rw [free_congr _ hs.progress]
      exact h.room }

/-- What leaves the cache alone keeps the room. -/
theorem keeps_of {action : LoadM α} {good : α → Prop} {bad : LoadError → Prop}
    (hs : Follows (Spares own) action) (he : Follows Evolves action)
    (hc : ∀ l : Loader, (l.run action).2.cache = l.cache) (hb : Keeps (Bounded fs n) good bad action) :
    Keeps (Roomy fs n m) good bad action := by
  intro l hl
  have hspared := hs l hl.toConsistent
  have hevolves := he l
  have hcache := hc l
  have hbounded := hb l hl.bounded
  generalize l.run action = r at hspared hevolves hcache hbounded ⊢
  have hcalm : r.2.Calm := fun p key e h => hl.calm p key e (hcache ▸ h)
  obtain ⟨e | a, l'⟩ := r
  · exact ⟨hl.of_spared hspared hevolves.compilers hbounded.1 hcalm, hbounded.2⟩
  · exact ⟨hl.of_spared hspared hevolves.compilers hbounded.1 hcalm, hbounded.2⟩

theorem keeps_source (id : EntryId) (file : Path) :
    Keeps (Roomy fs n m) (·.length ≤ n) (·.isTooDeep = false) (sourceOf file) := by
  have hs : Compiles id (Spares (· = id)) := Spares.compiles rfl
  refine keeps_of (hs.source file) (Evolves.reading.source file) (fun l => ?_) (Bounded.keeps_source file)
  exact (Quiet.reading.source file l).cache

theorem keeps_program (id : EntryId) (file : Path) :
    Keeps (Roomy fs n m) (fun p => ∀ request ∈ p.requests, request.length ≤ n) (·.isTooDeep = false)
      (programOf file) := by
  have hs : Compiles id (Spares (· = id)) := Spares.compiles rfl
  refine keeps_of (hs.program file) (Evolves.reading.program file) (fun l => ?_) (Bounded.keeps_program file)
  exact (Quiet.reading.program file l).cache

theorem keeps_report (event : Event) :
    Keeps (Roomy fs n m) (fun _ => True) (·.isTooDeep = false) (report event) :=
  have hs : Follows (Spares fun _ => False) (report event) := Spares.report event
  keeps_of hs (Evolves.report event) (fun _ => rfl) fun _ hl => ⟨hl.of_eq rfl rfl rfl rfl rfl, trivial⟩

/-- What a task does to its own entry keeps the room. -/
theorem instructs (id : EntryId) (file : Path) :
    Instructs id file fun l l' => l.Roomy fs n m → l'.Roomy fs n m where
  refl _ h := h
  trans _ _ _ h h' := h' ∘ h
  report event _ := (keeps_report event).follows
  updateEntry {f} hf := by
    have hs : Compiles id (Spares (· = id)) := Spares.compiles rfl
    have hkept : Keeps (Roomy fs n m) (fun _ => True) (·.isTooDeep = false) (updateEntry id f) :=
      keeps_of (hs.updateEntry fun e => (hf e).retains)
        ((Evolves.respects.compiles id).updateEntry fun e => (hf e).retains) (fun _ => rfl)
        fun _ hl => ⟨hl.of_eq rfl rfl rfl rfl rfl, trivial⟩
    exact hkept.follows
  source := (keeps_source id file).follows
  program := (keeps_program id file).follows

/-- Preparing a compilation keeps the room, if the requests of the module do. -/
theorem keeps_prepare {nested : NestedLoad}
    (hn : ∀ request : String, request.length ≤ n →
      Keeps (Roomy fs n m) (fun _ => True) (·.isTooDeep = false) (nested request id))
    (filename : Path) : Keeps (Roomy fs n m) (fun _ => True) (·.isTooDeep = false) (prepare nested id filename) := by
  have hs : Compiles id (Spares (· = id)) := Spares.compiles rfl
  have hbegin : Keeps (Roomy fs n m) (fun c => c.task.Within
      (fun event => Follows (fun l l' => l.Roomy fs n m → l'.Roomy fs n m) (report event)) (·.length ≤ n)
      (·.isTooDeep = false)) (·.isTooDeep = false) (beginCompile id filename) := by
    intro l hl
    have hspared := hs.beginCompile filename l hl.toConsistent
    have hevolves := (Evolves.respects.compiles id).beginCompile filename l
    rw [run_beginCompile] at hspared hevolves ⊢
    refine ⟨hl.of_spared hspared hevolves.compilers (hl.bounded.of_eq rfl rfl rfl rfl rfl) hl.calm, ?_⟩
    exact Compiler.within_of_isShipped (fun _ => rfl) (hl.shipped.forPath filename)
      (fun _ _ => (keeps_report _).follows) fun _ => rfl
  exact hbegin.bind fun c hc => (Keeps.runTask (instructs id filename) (keeps_source id filename)
    (keeps_program id filename) hn hc).bind fun _ _ => .pure trivial

end Roomy

/-! ## Nested loads -/

/-- A slot that holds an error held it before. -/
theorem Calm.seeks : Seeks (fun l l' => l.Calm → l'.Calm) where
  refl _ := id
  trans _ _ _ h h' := h' ∘ h
  noted _ _ _ h := h
  packaged _ h := h
  linked l referrer request child h := by cases referrer <;> exact h
  builtinOf l name h := by
    unfold Loader.builtinOf
    split
    · exact h
    · intro p key e he
      have hget : (l.cache.setBuiltin name l.graph.size).get? p key = l.cache.get? p key := by
        cases p <;> rfl
      exact h p key e (hget.symm.trans he)
  classified l key h := by
    intro q k e he
    rcases get?_classified he with he | ⟨-, id, he, -⟩
    · exact h q k e he
    · cases he
  added _ _ h := h

theorem Roomy.keeps_seek (request : String) (parent : Option EntryId) (isMain : Bool) :
    Keeps (Roomy fs n m) (fun _ => True) (·.isTooDeep = false) (Loader.seek request parent isMain) := by
  refine .of_errors (fun l h => ?_) fun {l e} h he => ?_
  · have hspared : Spared (fun _ => False) l _ := Spares.seek request parent isMain l h.toConsistent
    have hevolves := Evolves.respects.seek request parent isMain l
    have hbounded : (l.run (Loader.seek request parent isMain)).2.Bounded fs n :=
      Bounded.respects.seek request parent isMain l h.bounded
    have hcalm : (l.run (Loader.seek request parent isMain)).2.Calm :=
      Calm.seeks.seek h.toOrderly request parent isMain h.calm
    exact h.of_spared hspared hevolves.compilers hbounded hcalm
  · rw [h.toOrderly.run_seek] at he
    dsimp only at he
    split at he
    · next e' hr =>
      cases he
      exact error_of_resolution hr ▸ rfl
    · cases he
    · next file hfile =>
      unfold met at he
      generalize hr : Loader.classified _ _ _ _ = r at he
      obtain ⟨e' | c, l'⟩ := r
      · cases he
        obtain ⟨p, hslot⟩ := poisoned_of_classified (congrArg Prod.fst hr)
        exact h.calm _ _ _ (Cache.get?_of_slot? hslot)
      · cases c <;> cases he

theorem Calm.occupied (h : l.Calm) (job : Job) : (l.occupied job).Calm := by
  have hget : ∀ p key, (l.occupied job).cache.get? p key
      = (l.cache.set job.partition job.target.key (.loading job.id)).get? p key := fun p key => by
    unfold Loader.occupied
    split
    · cases p <;> rfl
    · rfl
  intro p key e he
  rw [hget, Cache.get?_set] at he
  split at he
  · cases he
  · exact h p key e he

theorem Calm.vacated (h : l.Calm) (job : Job) {e : LoadError} (hdeep : e.isTooDeep = false) :
    (l.vacated job e).Calm := by
  intro p key e' he
  unfold Loader.vacated at he
  split at he
  · simp only [Cache.poison, Cache.get?_set] at he
    split at he
    · cases he
      exact hdeep
    · exact h _ _ _ he
  · simp only [Cache.rollback, Cache.get?_delete] at he
    split at he
    · cases he
    · exact h _ _ _ he

theorem Calm.concluded (h : l.Calm) (ho : l.Orderly)
    (hin : l.InProgress job.target.key job.partition job.id) : (l.concluded job).Calm := by
  obtain ⟨hc, hslot⟩ := slot?_concluded ho hin
  intro p key e he
  have hslot' := hslot key
  rw [hc.slot?_eq_some.mpr he] at hslot'
  split at hslot'
  · cases hslot'
  · exact h _ _ _ (Cache.get?_of_slot? hslot'.symm)

namespace Roomy

theorem occupied (h : l.Roomy fs n (m + 1)) (hr : l.Ready job)
    (hkey : job.target.key ∈ possibleKeys fs n) : (l.occupied job).Roomy fs n m := by
  have hcompilers : (l.occupied job).compilers = l.compilers := by
    unfold Loader.occupied
    split <;> rfl
  have hbounded : (l.occupied job).Bounded fs n := by
    unfold Loader.occupied
    split <;> exact h.bounded.of_eq rfl rfl rfl rfl rfl
  exact { hr.consistent_occupied h.toConsistent with
    shipped := hcompilers ▸ h.shipped
    bounded := hbounded
    calm := h.calm.occupied job
    room := Nat.lt_of_lt_of_le (card_free_occupied hr hkey) (Nat.le_of_lt_succ h.room) }

/-- A module whose key is a possible one is compiled with less room for the modules that it asks for. -/
theorem keeps_perform {limit : Nat}
    (hn : ∀ (request : String) (id : EntryId), request.length ≤ n →
      Keeps (Roomy fs n m) (fun _ => True) (·.isTooDeep = false) (loadNested limit request id))
    (h : l.Roomy fs n (m + 1)) (hr : l.Ready job) (hkey : job.target.key ∈ possibleKeys fs n) :
    match l.run (perform (loadNested limit) job) with
    | (.ok _, l') => l'.Roomy fs n (m + 1)
    | (.error e, l') => l'.Roomy fs n (m + 1) ∧ e.isTooDeep = false := by
  have hspared := Spares.perform (Tidy.loadNested limit) (Spares.loadNested limit) h.toConsistent hr
  have hevolves := Evolves.respects.perform (Evolves.respects.loadNested limit) job l
  have hbounded := Bounded.respects.perform (Bounded.respects.loadNested limit) job l h.bounded
  have hprepare := keeps_prepare (fun request => hn request job.id) job.target.filename
    (l.occupied job) (h.occupied hr hkey)
  have hprogress := Spares.prepare (Spares.loadNested limit) job.id job.target.filename (l.occupied job)
    (hr.consistent_occupied h.toConsistent)
  unfold perform at hspared hevolves hbounded ⊢
  rw [run_bind, run_occupy, andThen_ok, run_bind, run_onError, compile_eq, run_bind]
    at hspared hevolves hbounded ⊢
  generalize (l.occupied job).run (prepare (loadNested limit) job.id job.target.filename) = r
    at hprepare hprogress hspared hevolves hbounded ⊢
  obtain ⟨result, l₂⟩ := r
  have hin : l₂.InProgress job.target.key job.partition job.id :=
    (hprogress.progress _ _ _).mpr ((hr.slot?_occupied _).trans (if_pos rfl))
  cases result with
  | error e =>
    dsimp only [andThen_error] at hspared hevolves hbounded ⊢
    rw [run_vacate hin] at hspared hevolves hbounded ⊢
    obtain ⟨h₂, hdeep⟩ := hprepare
    exact ⟨h.of_spared hspared hevolves.compilers hbounded (h₂.calm.vacated job hdeep), hdeep⟩
  | ok c =>
    obtain ⟨h₂, -⟩ := hprepare
    dsimp only [andThen_ok] at hspared hevolves hbounded ⊢
    rw [run_endCompile] at hspared hevolves hbounded ⊢
    dsimp only [andThen_ok] at hspared hevolves hbounded ⊢
    have ho : (l₂.marked job.id job.target.filename c).Orderly :=
      ⟨h₂.exclusive, h₂.unmarked.of_eq rfl rfl⟩
    rw [run_bind, run_conclude (l := l₂.marked job.id job.target.filename c) hin] at hspared hevolves hbounded ⊢
    have hcalm : (l₂.marked job.id job.target.filename c).Calm := h₂.calm
    exact h.of_spared hspared hevolves.compilers hbounded (hcalm.concluded ho hin)

theorem keeps_answer {limit : Nat}
    (hn : ∀ (request : String) (id : EntryId), request.length ≤ n →
      Keeps (Roomy fs n m) (fun _ => True) (·.isTooDeep = false) (loadNested limit request id))
    {request : String} (hrequest : request.length ≤ n) (parent : Option EntryId) (isMain : Bool) :
    Keeps (Roomy fs n (m + 1)) (fun _ => True) (·.isTooDeep = false)
      (answer (loadNested limit) request parent isMain) := by
  refine (keeps_seek request parent isMain).answer fun h hseek h' => ?_
  obtain ⟨file, hfile, htarget, -⟩ := needs_of_seek h.toOrderly hseek
  refine keeps_perform hn h' (ready_of_seek h.toConsistent hseek) ?_
  rw [htarget, ← h.bounded.files]
  exact mem_possibleKeys hfile hrequest

/-- While there is more room than modules in progress, no request nests too deep. -/
theorem keeps_loadNested (limit : Nat) {request : String} (hrequest : request.length ≤ n) (id : EntryId) :
    Keeps (Roomy fs n limit) (fun _ => True) (·.isTooDeep = false) (loadNested limit request id) := by
  induction limit generalizing request id with
  | zero => exact fun l hl => absurd hl.room (Nat.not_lt_zero _)
  | succ limit ih =>
    exact (keeps_answer (fun _ id h => ih h id) hrequest _ _).reported (fun e => (keeps_report e).follows) request

end Roomy

end Loader
end ModGraph
