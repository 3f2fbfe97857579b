import ModGraph.Proofs.CanonicalPaths
import ModGraph.Proofs.Evolution
import ModGraph.Proofs.Operations
import ModGraph.Proofs.Reading

/-!
# What stays the same

While the files, the configuration and the builtin modules stay as they are, the package of a file, its
source and its program are functions of its path (`World`). A loader remembers what it has looked up,
and as long as it asks about canonical paths only, what it remembers is what it would find
(`Loader.Sees`).
-/

namespace ModGraph

open Json (Value)
open Source (Program)

/-- What loaders look at and never change. -/
structure World where
  resolver : Resolver
  reader : SourceReader
  manifests : ManifestReader
  builtinExports : Table String Value
  files : FileSystem
  defaults : PackageOptions

namespace World

variable (w : World)

/-- The package of the files in the first of some directories, each of which lies in the next. -/
def packageIn : List Path → PackageContext
  | [] => ⟨none, w.defaults⟩
  | dir :: above =>
    match (w.manifests w.files dir).options? with
    | some options => ⟨some dir, options⟩
    | none => packageIn above

/-- The package that a file belongs to. -/
def package (file : Path) : PackageContext :=
  match file.parent with
  | some dir => w.packageIn dir.ancestors
  | none => ⟨none, w.defaults⟩

/-- The text of a file. -/
def source (file : Path) : Except LoadError String := (w.reader w.files file).mapError (.io file)

/-- The program of a file. -/
def program (file : Path) : Except LoadError Program := do
  let source ← w.source file
  (Program.scan source).mapError fun e => .compile file (.badProgram e)

/-- What a builtin module exports. -/
def builtin (name : String) : Value := (w.builtinExports.get? name).getD (.object [])

/-- What is remembered about directories is what is found in them. -/
structure Recalls (cs : PackageContexts) : Prop where
  defaults : cs.defaults = w.defaults
  made : ∀ {dir n}, cs.byDirectory.get? dir = some (some n) → n < cs.made.length
  context : ∀ {dir id}, dir.Canonical → cs.remembered? dir = some id →
    cs.context id = w.packageIn dir.ancestors

end World

namespace Loader

/-- What a loader looks at. -/
def world (l : Loader) : World where
  resolver := l.resolver
  reader := l.reader
  manifests := l.manifests
  builtinExports := l.builtinExports
  files := l.files
  defaults := l.packages.defaults

/-- Neither what a loader looks at changes nor what it remembers of that. -/
structure Elsewhere (l l' : Loader) : Prop where
  world : l'.world = l.world
  codeCache : l'.codeCache? = l.codeCache?
  packages : l'.packages = l.packages
  sources : l'.sources = l.sources
  programs : l'.programs = l.programs

/-- A loader without a code cache that looks at a world, and remembers what is there to see. -/
structure Sees (w : World) (l : Loader) : Prop where
  world : l.world = w
  codeCache : l.codeCache? = none
  packages : w.Recalls l.packages
  source : ∀ {file text}, file.Canonical → l.sources.get? file.components = some text →
    w.source file = .ok text
  program : ∀ {file p}, file.Canonical → l.programs.get? file.components = some p →
    w.program file = .ok p

end Loader

/-! ## Packages -/

namespace PackageContexts

variable (cs : PackageContexts) (read : Path → Manifest)

theorem get?_remember (dirs : List Path) (id : ContextId)
    (key : List Path.Component) :
    (cs.remember dirs id).byDirectory.get? key
      = if key ∈ dirs.map Path.components then some id else cs.byDirectory.get? key := by
  unfold PackageContexts.remember
  dsimp only
  generalize cs.byDirectory = t
  induction dirs generalizing t with
  | nil => simp
  | cons dir dirs ih =>
    rw [List.foldl_cons, ih, Table.get?_insert]
    by_cases h : key ∈ dirs.map Path.components
    · simp [h]
    · by_cases hd : dir.components = key
      · simp [hd]
      · simp [h, hd, Ne.symm hd]

/-- What is found out about a directory is remembered. -/
theorem remembered_of_contextFor (dir : Path) :
    (cs.contextFor read dir).contexts.remembered? dir = some (cs.contextFor read dir).id := by
  have hdirs := Path.ancestors_eq dir
  unfold contextFor
  rw [hdirs]
  unfold inspect
  cases hr : cs.remembered? dir with
  | some id =>
    show (cs.remember [] id).remembered? dir = some id
    exact hr
  | none =>
    -- the directory is the first one on the way up, and the whole way is remembered
    have hself : ∀ (cs' : PackageContexts) above id, (cs'.remember (dir :: above) id).remembered? dir = some id := by
      intro cs' above id
      rw [remembered?, get?_remember]
      simp
    dsimp only
    cases (read dir).options? with
    | some options => exact hself _ _ _
    | none =>
      generalize cs.inspect read _ = walk
      obtain ⟨walked, found⟩ := walk
      cases found <;> exact hself _ _ _

/-- What is remembered is not looked up again. -/
theorem contextFor_of_remembered {cs : PackageContexts} {dir : Path} {id : ContextId}
    (h : cs.remembered? dir = some id) : (cs.contextFor read dir).contexts = cs ∧ (cs.contextFor read dir).id = id := by
  have hdirs := Path.ancestors_eq dir
  unfold contextFor
  rw [hdirs]
  unfold inspect
  rw [h]
  exact ⟨rfl, rfl⟩

/-- The package of a file that was asked for is the same when it is asked for again. -/
theorem context_contextForFile_again (file : Path) :
    let answer := cs.contextForFile read file
    let again := answer.contexts.contextForFile read file
    again.contexts.context again.id = answer.contexts.context answer.id := by
  dsimp only
  unfold contextForFile
  cases file.parent with
  | none => rfl
  | some dir =>
    obtain ⟨hcontexts, hid⟩ := contextFor_of_remembered read (cs.remembered_of_contextFor read dir)
    dsimp only
    rw [hcontexts, hid]

end PackageContexts

namespace World

variable {w : World} {cs : PackageContexts}

/-- The context with which a walk ended. -/
def foundIn (cs : PackageContexts) : Found → PackageContext
  | .remembered id => cs.context id
  | .manifest dir options => ⟨some dir, options⟩
  | .nothing => ⟨none, cs.defaults⟩

/-- A walk up from a directory ends with the package of that directory and of all directories on the way. -/
theorem foundIn_inspect (h : w.Recalls cs) {dir : Path} (hd : dir.Canonical) :
    let walk := cs.inspect (w.manifests w.files) dir.ancestors
    foundIn cs walk.2 = w.packageIn dir.ancestors ∧
      ∀ step ∈ walk.1, step.1.Canonical ∧ w.packageIn step.1.ancestors = w.packageIn dir.ancestors := by
  induction hn : dir.text.toList.length using Nat.strong_induction_on generalizing dir with
  | _ n ih =>
    subst hn
    have heq := Path.ancestors_eq dir
    generalize habove : (dir.parent.map Path.ancestors).getD [] = above at heq
    have hself : w.packageIn (dir :: above) = w.packageIn dir.ancestors := by rw [heq]
    rw [heq]
    unfold PackageContexts.inspect
    cases hr : cs.remembered? dir with
    | some id =>
      dsimp only
      exact ⟨(h.context hd hr).trans hself.symm, by simp⟩
    | none =>
      dsimp only
      cases hm : (w.manifests w.files dir).options? with
      | some options =>
        dsimp only
        refine ⟨?_, fun step hstep => ?_⟩
        · simp [foundIn, packageIn, hm]
        · obtain rfl := List.mem_singleton.mp hstep
          exact ⟨hd, hself.symm⟩
      | none =>
        dsimp only
        have hup : w.packageIn (dir :: above) = w.packageIn above := by
          rw [packageIn, hm]
        have hwalk : foundIn cs (cs.inspect (w.manifests w.files) above).2 = w.packageIn above ∧
            ∀ step ∈ (cs.inspect (w.manifests w.files) above).1,
              step.1.Canonical ∧ w.packageIn step.1.ancestors = w.packageIn above := by
          cases hp : dir.parent with
          | none =>
            rw [hp] at habove
            obtain rfl : above = [] := habove.symm
            exact ⟨by simp [PackageContexts.inspect, foundIn, packageIn, h.defaults], by
              simp [PackageContexts.inspect]⟩
          | some q =>
            rw [hp] at habove
            obtain rfl : above = q.ancestors := habove.symm
            exact ih _ (Path.length_parent_lt hp) (hd.parent hp) rfl
        refine ⟨hwalk.1.trans hup.symm, fun step hstep => ?_⟩
        rcases List.mem_cons.mp hstep with rfl | hstep
        · exact ⟨hd, hself.symm⟩
        · obtain ⟨hcanonical, hpackage⟩ := hwalk.2 step hstep
          exact ⟨hcanonical, hpackage.trans hup.symm⟩

theorem remembered_of_inspect {read : Path → Manifest} {dirs : List Path} {id : ContextId}
    (h : (cs.inspect read dirs).2 = .remembered id) : ∃ dir, cs.remembered? dir = some id := by
  induction dirs with
  | nil => cases h
  | cons dir above ih =>
    unfold PackageContexts.inspect at h
    cases hr : cs.remembered? dir with
    | some id' =>
      rw [hr] at h
      cases h
      exact ⟨dir, hr⟩
    | none =>
      rw [hr] at h
      dsimp only at h
      split at h
      · cases h
      · exact ih h

/-- Remembering the answer for directories to which it applies is sound. -/
theorem Recalls.remember (h : w.Recalls cs) {dirs : List Path} {id : ContextId} {c : PackageContext}
    (hid : ∀ n, id = some n → n < cs.made.length) (hc : cs.context id = c)
    (hdirs : ∀ dir ∈ dirs, dir.Canonical ∧ w.packageIn dir.ancestors = c) :
    w.Recalls (cs.remember dirs id) where
  defaults := h.defaults
  made hget := by
    rw [PackageContexts.get?_remember] at hget
    split at hget
    · exact hid _ (Option.some.inj hget)
    · exact h.made hget
  context {dir id'} hdir hget := by
    rw [PackageContexts.remembered?, PackageContexts.get?_remember] at hget
    split at hget
    · next hmem =>
      obtain rfl := Option.some.inj hget
      obtain ⟨dir', hdir', heq⟩ := List.mem_map.mp hmem
      obtain ⟨hcanonical, hpackage⟩ := hdirs dir' hdir'
      rw [← hcanonical.eq hdir heq, hpackage]
      exact hc
    · exact h.context hdir hget

/-- A new context leaves those that are remembered alone. -/
theorem Recalls.make (h : w.Recalls cs) (c : PackageContext) : w.Recalls (cs.make c).1 where
  defaults := h.defaults
  made hget := Nat.lt_of_lt_of_le (h.made hget) (by simp [PackageContexts.make])
  context {dir id} hdir hget := by
    rw [← h.context hdir hget]
    cases id with
    | none => rfl
    | some n =>
      have hlt : n < cs.made.length := h.made hget
      simp [PackageContexts.context, PackageContexts.make, PackageContexts.defaultContext,
        List.getElem?_append_left hlt]

theorem context_make (cs : PackageContexts) (c : PackageContext) :
    (cs.make c).1.context (cs.make c).2 = c := by
  simp [PackageContexts.context, PackageContexts.make]

/-- The answer for a directory is its package, and remembering it is sound. -/
theorem Recalls.contextFor (h : w.Recalls cs) {dir : Path} (hd : dir.Canonical) :
    let answer := cs.contextFor (w.manifests w.files) dir
    answer.contexts.context answer.id = w.packageIn dir.ancestors ∧ w.Recalls answer.contexts := by
  obtain ⟨hfound, hwalked⟩ := foundIn_inspect h hd
  have hremembered : ∀ id, (cs.inspect (w.manifests w.files) dir.ancestors).2 = .remembered id →
      ∃ dir, cs.remembered? dir = some id := fun _ => remembered_of_inspect
  unfold PackageContexts.contextFor
  generalize cs.inspect (w.manifests w.files) dir.ancestors = walk at hfound hwalked hremembered
  obtain ⟨walked, found⟩ := walk
  have hdirs : ∀ dir' ∈ walked.map (·.1), dir'.Canonical ∧
      w.packageIn dir'.ancestors = w.packageIn dir.ancestors := by
    intro dir' hmem
    obtain ⟨step, hstep, rfl⟩ := List.mem_map.mp hmem
    exact hwalked step hstep
  cases found with
  | remembered id =>
    dsimp only [foundIn] at hfound ⊢
    refine ⟨hfound, h.remember (fun n hn => ?_) hfound hdirs⟩
    obtain ⟨dir', hdir'⟩ := hremembered id rfl
    exact h.made (hn ▸ hdir')
  | manifest dir' options =>
    dsimp only [foundIn] at hfound ⊢
    refine ⟨(context_make cs _).trans hfound, (h.make _).remember (fun n hn => ?_) ?_ hdirs⟩
    · cases hn
      simp [PackageContexts.make]
    · exact (context_make cs _).trans hfound
  | nothing =>
    dsimp only [foundIn] at hfound ⊢
    exact ⟨hfound, h.remember (fun n hn => by cases hn) hfound hdirs⟩

end World

/-! ## Looking at a world -/

namespace Loader

variable {w : World} {l l' : Loader}

namespace Elsewhere

theorem refl (l : Loader) : Elsewhere l l := ⟨rfl, rfl, rfl, rfl, rfl⟩

theorem trans {l l' l'' : Loader} (h : Elsewhere l l') (h' : Elsewhere l' l'') : Elsewhere l l'' :=
  ⟨h'.world.trans h.world, h'.codeCache.trans h.codeCache, h'.packages.trans h.packages,
    h'.sources.trans h.sources, h'.programs.trans h.programs⟩

theorem packageOf (h : Elsewhere l l') (file : Path) : l'.packageOf file = l.packageOf file := by
  have hmanifests : l'.manifests l'.files = l.manifests l.files :=
    congrArg (fun w : World => w.manifests w.files) h.world
  simp only [Loader.packageOf, hmanifests, h.packages]

theorem linked (l : Loader) (referrer : Option Referrer) (request : String) (child : EntryId) :
    Elsewhere l (l.linked referrer request child) := by
  cases referrer <;> exact ⟨rfl, rfl, rfl, rfl, rfl⟩

theorem builtinOf (l : Loader) (name : String) : Elsewhere l (l.builtinOf name).2 := by
  unfold Loader.builtinOf
  split <;> exact ⟨rfl, rfl, rfl, rfl, rfl⟩

theorem classified (l : Loader) (key : String) (fixed : Option Format) (unexposed : Bool) :
    Elsewhere l (l.classified key fixed unexposed).2 := by
  obtain ⟨cache, events, heq, -⟩ := l.classified_frame key fixed unexposed
  rw [heq]
  exact ⟨rfl, rfl, rfl, rfl, rfl⟩

theorem occupied (l : Loader) (job : Loader.Job) : Elsewhere l (l.occupied job) := by
  unfold Loader.occupied
  split <;> exact ⟨rfl, rfl, rfl, rfl, rfl⟩

theorem vacated (l : Loader) (job : Loader.Job) (e : LoadError) : Elsewhere l (l.vacated job e) := by
  unfold Loader.vacated
  split <;> exact ⟨rfl, rfl, rfl, rfl, rfl⟩

theorem marked (l : Loader) (id : EntryId) (filename : Path) (c : Loader.Compilation) :
    Elsewhere l (l.marked id filename c) := ⟨rfl, rfl, rfl, rfl, rfl⟩

theorem concluded (l : Loader) (job : Loader.Job) : Elsewhere l (l.concluded job) := by
  have hsettled : Elsewhere l ((l.settled job).noted [.enters job.target.key .linking]) :=
    ⟨rfl, rfl, rfl, rfl, rfl⟩
  refine (hsettled.trans (linked _ job.referrer job.request job.id)).trans ?_
  unfold Loader.concluded Loader.concealed
  dsimp only
  split
  · exact refl _
  · split <;> split <;> exact ⟨rfl, rfl, rfl, rfl, rfl⟩

end Elsewhere

/-- The package of a file that was looked up stays the one that was found. -/
theorem packageOf_packaged (l : Loader) (file : Path) : (l.packaged file).packageOf file = l.packageOf file :=
  l.packages.context_contextForFile_again (l.manifests l.files) file

namespace Sees

theorem resolver (h : l.Sees w) : l.resolver = w.resolver := by rw [← h.world]; rfl

theorem reader (h : l.Sees w) : l.reader = w.reader := by rw [← h.world]; rfl

theorem manifests (h : l.Sees w) : l.manifests = w.manifests := by rw [← h.world]; rfl

theorem builtinExports (h : l.Sees w) : l.builtinExports = w.builtinExports := by rw [← h.world]; rfl

theorem files (h : l.Sees w) : l.files = w.files := by rw [← h.world]; rfl

/-- Cache, graph and journal do not matter. -/
theorem elsewhere (h : l.Sees w) (he : Elsewhere l l') : l'.Sees w where
  world := he.world.trans h.world
  codeCache := he.codeCache.trans h.codeCache
  packages := he.packages ▸ h.packages
  source hf hget := h.source hf (he.sources ▸ hget)
  program hf hget := h.program hf (he.programs ▸ hget)

theorem packaged (h : l.Sees w) {file : Path} (hf : file.Canonical) :
    l.packageOf file = w.package file ∧ (l.packaged file).Sees w := by
  have hanswer : ∀ answer, l.packages.contextForFile (l.manifests l.files) file = answer →
      answer.contexts.context answer.id = w.package file ∧ w.Recalls answer.contexts := by
    rintro answer rfl
    rw [h.manifests, h.files]
    unfold PackageContexts.contextForFile World.package
    cases hp : file.parent with
    | none =>
      refine ⟨?_, h.packages⟩
      simp [PackageContexts.context, PackageContexts.defaultContext, h.packages.defaults]
    | some dir => exact h.packages.contextFor (hf.parent hp)
  obtain ⟨hcontext, hrecalls⟩ := hanswer _ rfl
  refine ⟨hcontext, ?_, h.codeCache, hrecalls, h.source, h.program⟩
  have hdefaults := defaults_contextForFile l.packages (l.manifests l.files) file
  rw [← h.world]
  simp only [Loader.packaged, Loader.world, hdefaults]

/-- A file is read as it is there. -/
theorem run_sourceOf (h : l.Sees w) {file : Path} (hf : file.Canonical) :
    (l.run (sourceOf file)).1 = w.source file ∧ (l.run (sourceOf file)).2.Sees w := by
  cases hs : l.sources.get? file.components with
  | some text =>
    rw [run_sourceOf_of_get? hs]
    exact ⟨(h.source hf hs).symm, h⟩
  | none =>
    have hread : l.reader l.files file = w.reader w.files file := by rw [h.reader, h.files]
    rw [run_sourceOf_of_none hs, hread]
    have hsource : w.source file = (w.reader w.files file).mapError (.io file) := rfl
    cases hr : w.reader w.files file with
    | error fault =>
      rw [hr] at hsource
      exact ⟨hsource.symm, h.elsewhere ⟨rfl, rfl, rfl, rfl, rfl⟩⟩
    | ok text =>
      rw [hr] at hsource
      refine ⟨hsource.symm, h.world, h.codeCache, h.packages, fun {file' text'} hf' hget => ?_, h.program⟩
      change (l.sources.insert file.components text).get? file'.components = _ at hget
      rw [Table.get?_insert] at hget
      split at hget
      · next heq =>
        rw [← hf.eq hf' heq, hsource]
        exact congrArg _ (Option.some.inj hget)
      · exact h.source hf' hget

/-- A program is the one of its file. -/
theorem run_programOf (h : l.Sees w) {file : Path} (hf : file.Canonical) :
    (l.run (programOf file)).1 = w.program file ∧ (l.run (programOf file)).2.Sees w := by
  cases hp : l.programs.get? file.components with
  | some p =>
    rw [run_programOf_of_get? hp]
    exact ⟨(h.program hf hp).symm, h⟩
  | none =>
    obtain ⟨hresult, hsees⟩ := h.run_sourceOf hf
    rw [run_programOf_bare h.codeCache hp]
    generalize l.run (sourceOf file) = r at hresult hsees
    obtain ⟨result, l₁⟩ := r
    have hprogram : w.program file = result >>= scanOf file := by
      rw [show result = w.source file from hresult]
      rfl
    cases result with
    | error e => exact ⟨hprogram.symm, hsees⟩
    | ok source =>
      change _ = scanOf file source at hprogram
      dsimp only
      cases hscan : scanOf file source with
      | error e => exact ⟨(hprogram.trans hscan).symm, hsees⟩
      | ok p =>
        refine ⟨(hprogram.trans hscan).symm, hsees.world, hsees.codeCache, hsees.packages, hsees.source,
          fun {file' p'} hf' hget => ?_⟩
        change (l₁.programs.insert file.components p).get? file'.components = _ at hget
        rw [Table.get?_insert] at hget
        split at hget
        · next heq =>
          rw [← hf.eq hf' heq, hprogram, hscan]
          exact congrArg _ (Option.some.inj hget)
        · exact hsees.program hf' hget

end Sees

/-- A loader that was not asked for anything yet remembers nothing. -/
theorem Fresh.sees {l : Loader} (h : l.Fresh) (hc : l.codeCache? = none) : l.Sees l.world := by
  refine ⟨rfl, hc, ⟨rfl, fun {dir n} hget => ?_, fun {dir id} _ hget => ?_⟩, fun {file text} _ hget => ?_,
    fun {file p} _ hget => ?_⟩
  · rw [h.packages] at hget
    cases hget
  · rw [h.packages] at hget
    cases hget
  · rw [h.sources] at hget
    cases hget
  · rw [h.programs] at hget
    cases hget

end Loader
end ModGraph
