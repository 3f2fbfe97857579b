import ModGraph.Proofs.Parents
import ModGraph.Proofs.World

/-!
# Packages that are remembered

What is remembered about directories never shows. Asked about any directories and files in any order,
`PackageContexts` gives the context that the nearest manifest says, as if every answer were looked up on its own
(`rule`); answers share a context exactly when they come from the same manifest, and no directory is looked
into twice (`answers_new`).

Answers are kept under the components of directories, so a directory is what its components spell, here and for the
reader of manifests (`byComponents`).
-/

namespace ModGraph

/-- Two contexts say the same; their directory may be spelled in two ways. -/
structure PackageContext.Same (c c' : PackageContext) : Prop where
  dir : c.dir.map Path.components = c'.dir.map Path.components
  options : c.options = c'.options

namespace PackageContext.Same

variable {c c' c'' : PackageContext}

theorem refl (c : PackageContext) : c.Same c := ⟨rfl, rfl⟩

theorem trans (h : c.Same c') (h' : c'.Same c'') : c.Same c'' := ⟨h.dir.trans h'.dir, h.options.trans h'.options⟩

end PackageContext.Same

namespace PackageContexts

/-! ## Without remembering -/

/-- A reader of manifests that goes by the components of a directory. -/
def byComponents (read : List Path.Component → Manifest) : Path → Manifest := fun dir => read dir.components

/-- The first of some directories that holds a manifest, and what that says. -/
def nearest? (read : Path → Manifest) (dirs : List Path) : Option (Path × PackageOptions) :=
  dirs.findSome? fun dir => (read dir).options?.map (dir, ·)

/-- The context that the nearest manifest gives. -/
def rule (read : Path → Manifest) (defaults : PackageOptions) (dirs : List Path) : PackageContext :=
  match nearest? read dirs with
  | some (dir, options) => ⟨some dir, options⟩
  | none => ⟨none, defaults⟩

variable {read : Path → Manifest} {defaults : PackageOptions} {dirs front back : List Path} {dir : Path}

theorem dir_rule (read : Path → Manifest) (defaults : PackageOptions) (dirs : List Path) :
    (rule read defaults dirs).dir = (nearest? read dirs).map (·.1) := by
  unfold rule
  cases nearest? read dirs <;> rfl

theorem rule_append (h : ∀ dir ∈ front, (read dir).options? = none) :
    rule read defaults (front ++ back) = rule read defaults back := by
  have hnone : nearest? read front = none := by
    apply List.findSome?_eq_none_iff.mpr
    intro dir hdir
    rw [h dir hdir, Option.map_none]
  have hnearest : nearest? read (front ++ back) = nearest? read back := by
    rw [nearest?, List.findSome?_append, ← nearest?, hnone, Option.none_or, nearest?]
  rw [rule, rule, hnearest]

theorem rule_cons {options : PackageOptions} (h : (read dir).options? = some options) :
    rule read defaults (dir :: back) = ⟨some dir, options⟩ := by
  simp [rule, nearest?, h]

theorem rule_nil : rule read defaults [] = ⟨none, defaults⟩ := rfl

/-- In whatever way directories are spelled, the rule says the same. -/
theorem same_rule {read : List Path.Component → Manifest} {dirs dirs' : List Path}
    (h : dirs.map Path.components = dirs'.map Path.components) :
    (rule (byComponents read) defaults dirs).Same (rule (byComponents read) defaults dirs') := by
  induction dirs generalizing dirs' with
  | nil =>
    obtain rfl : dirs' = [] := List.map_eq_nil_iff.mp h.symm
    exact .refl _
  | cons dir above ih =>
    cases dirs' with
    | nil => simp at h
    | cons dir' above' =>
      obtain ⟨hdir, habove⟩ := List.cons.inj h
      have hread : byComponents read dir = byComponents read dir' := by simp [byComponents, hdir]
      cases hoptions : (byComponents read dir).options? with
      | some options =>
        rw [rule_cons hoptions, rule_cons (hread ▸ hoptions)]
        exact ⟨congrArg some hdir, rfl⟩
      | none =>
        have hskip : rule (byComponents read) defaults (dir :: above) = rule (byComponents read) defaults above :=
          @rule_append _ _ [dir] _ (by simpa using hoptions)
        have hskip' : rule (byComponents read) defaults (dir' :: above') = rule (byComponents read) defaults above' :=
          @rule_append _ _ [dir'] _ (by simpa using hread ▸ hoptions)
        rw [hskip, hskip']
        exact ih habove

/-! ## One walk -/

/-- How a walk up through directories ends: which ones it looks into, and at what it stops. -/
inductive Ends (cs : PackageContexts) (read : Path → Manifest) : List Path → List Path → Found → Prop where
  | remembered {front back : List Path} {dir : Path} {id : ContextId}
      (hfront : ∀ dir ∈ front, cs.remembered? dir = none ∧ (read dir).options? = none)
      (hdir : cs.remembered? dir = some id) : Ends cs read (front ++ dir :: back) front (.remembered id)
  | manifest {front back : List Path} {dir : Path} {options : PackageOptions}
      (hfront : ∀ dir ∈ front, cs.remembered? dir = none ∧ (read dir).options? = none)
      (hdir : cs.remembered? dir = none) (hoptions : (read dir).options? = some options) :
      Ends cs read (front ++ dir :: back) (front ++ [dir]) (.manifest dir options)
  | nothing {dirs : List Path}
      (hdirs : ∀ dir ∈ dirs, cs.remembered? dir = none ∧ (read dir).options? = none) : Ends cs read dirs dirs .nothing

theorem ends_inspect (cs : PackageContexts) (read : Path → Manifest) (dirs : List Path) :
    Ends cs read dirs ((cs.inspect read dirs).1.map (·.1)) (cs.inspect read dirs).2 := by
  induction dirs with
  | nil => exact .nothing (by simp)
  | cons dir above ih =>
    unfold inspect
    cases hr : cs.remembered? dir with
    | some id => exact @Ends.remembered _ _ [] _ _ _ (by simp) hr
    | none =>
      dsimp only
      cases ho : (read dir).options? with
      | some options => exact @Ends.manifest _ _ [] _ _ _ (by simp) hr ho
      | none =>
        -- this directory stands before all that the rest of the walk looks into
        have hcons : ∀ {front : List Path}, (∀ d ∈ front, cs.remembered? d = none ∧ (read d).options? = none) →
            ∀ d ∈ dir :: front, cs.remembered? d = none ∧ (read d).options? = none := by
          intro front hfront
          exact List.forall_mem_cons.mpr ⟨⟨hr, ho⟩, hfront⟩
        dsimp only
        generalize cs.inspect read above = walk at ih ⊢
        obtain ⟨walked, found⟩ := walk
        rw [List.map_cons]
        generalize walked.map (·.1) = looked at ih ⊢
        cases ih with
        | remembered hfront hdir => exact .remembered (hcons hfront) hdir
        | manifest hfront hdir hoptions => exact @Ends.manifest _ _ (dir :: _) _ _ _ (hcons hfront) hdir hoptions
        | nothing hdirs => exact .nothing (hcons hdirs)

end PackageContexts

namespace PackageContexts

variable {read : List Path.Component → Manifest} {defaults : PackageOptions} {cs cs' cs'' : PackageContexts}

/-! ## What is remembered -/

/-- What is remembered is what the rule says, and every context was made for a directory of its own. -/
structure Sound (read : List Path.Component → Manifest) (defaults : PackageOptions) (cs : PackageContexts) : Prop where
  fallback : cs.defaults = defaults
  made : ∀ {dir n}, cs.remembered? dir = some (some n) → n < cs.made.length
  context : ∀ {dir id}, cs.remembered? dir = some id →
    (cs.context id).Same (rule (byComponents read) defaults dir.ancestors)
  owned : ∀ c ∈ cs.made, ∃ dir, c.dir = some dir ∧ (cs.remembered? dir).isSome
  apart : (cs.made.map fun c => c.dir.map Path.components).Nodup

/-- Contexts stay, and so does what is remembered. -/
structure Extends (cs cs' : PackageContexts) : Prop where
  defaults : cs'.defaults = cs.defaults
  made : cs.made <+: cs'.made
  remembered : ∀ {dir id}, cs.remembered? dir = some id → cs'.remembered? dir = some id

namespace Extends

theorem refl (cs : PackageContexts) : cs.Extends cs := ⟨rfl, List.prefix_rfl, id⟩

theorem trans (h : cs.Extends cs') (h' : cs'.Extends cs'') : cs.Extends cs'' :=
  ⟨h'.defaults.trans h.defaults, h.made.trans h'.made, fun hr => h'.remembered (h.remembered hr)⟩

/-- A context that was made stays the same. -/
theorem context (h : cs.Extends cs') {id : ContextId} (hid : ∀ n, id = some n → n < cs.made.length) :
    cs'.context id = cs.context id := by
  cases id with
  | none => simp [PackageContexts.context, defaultContext, h.defaults]
  | some n =>
    obtain ⟨later, hlater⟩ := h.made
    have hn := hid n rfl
    simp [PackageContexts.context, defaultContext, h.defaults, ← hlater, List.getElem?_append_left hn]

end Extends

theorem sound_new (read : List Path.Component → Manifest) (defaults : PackageOptions) :
    (new defaults).Sound read defaults where
  fallback := rfl
  made h := by cases h
  context h := by cases h
  owned _ h := by cases h
  apart := List.nodup_nil

theorem remembered?_remember (cs : PackageContexts) (dirs : List Path) (id : ContextId) (dir : Path) :
    (cs.remember dirs id).remembered? dir
      = if dir.components ∈ dirs.map Path.components then some id else cs.remembered? dir :=
  get?_remember cs dirs id dir.components

/-- Remembering new directories takes nothing away. -/
theorem extends_remember {dirs : List Path} (h : ∀ dir ∈ dirs, cs.remembered? dir = none) (id : ContextId) :
    cs.Extends (cs.remember dirs id) where
  defaults := rfl
  made := List.prefix_rfl
  remembered {dir id'} hr := by
    rw [remembered?_remember, if_neg, hr]
    intro hmem
    obtain ⟨dir', hdir', heq⟩ := List.mem_map.mp hmem
    have hnone := h dir' hdir'
    rw [remembered?, heq, ← remembered?, hr] at hnone
    cases hnone

theorem extends_make (cs : PackageContexts) (c : PackageContext) : cs.Extends (cs.make c).1 where
  defaults := rfl
  made := List.prefix_append _ _
  remembered := id

/-- What is remembered for a directory is remembered for every spelling of it. -/
theorem context_remember {dirs : List Path} {id : ContextId}
    (hcontext : ∀ {dir id}, cs.remembered? dir = some id →
      (cs.context id).Same (rule (byComponents read) defaults dir.ancestors))
    (hdirs : ∀ dir ∈ dirs, (cs.context id).Same (rule (byComponents read) defaults dir.ancestors))
    {dir : Path} {id' : ContextId} (h : (cs.remember dirs id).remembered? dir = some id') :
    ((cs.remember dirs id).context id').Same (rule (byComponents read) defaults dir.ancestors) := by
  rw [remembered?_remember] at h
  split at h
  · next hmem =>
    obtain rfl := Option.some.inj h
    obtain ⟨dir', hdir', heq⟩ := List.mem_map.mp hmem
    exact (hdirs dir' hdir').trans (same_rule (Path.map_components_ancestors heq))
  · exact hcontext h

namespace Sound

/-- An answer that is there already is remembered for more directories. -/
theorem remember (h : cs.Sound read defaults) {dirs : List Path} {id : ContextId}
    (hid : ∀ n, id = some n → n < cs.made.length)
    (hdirs : ∀ dir ∈ dirs, (cs.context id).Same (rule (byComponents read) defaults dir.ancestors)) :
    (cs.remember dirs id).Sound read defaults where
  fallback := h.fallback
  made hr := by
    rw [remembered?_remember] at hr
    split at hr
    · exact hid _ (Option.some.inj hr)
    · exact h.made hr
  context := context_remember h.context hdirs
  owned c hc := by
    obtain ⟨dir, hdir, hr⟩ := h.owned c hc
    refine ⟨dir, hdir, ?_⟩
    rw [remembered?_remember]
    split
    · rfl
    · exact hr
  apart := h.apart

/-- A context is made for a directory that was not looked into before, and remembered for that one too. -/
theorem make (h : cs.Sound read defaults) {dir : Path} {options : PackageOptions} {dirs : List Path}
    (hdir : dir ∈ dirs) (hnew : cs.remembered? dir = none)
    (hdirs : ∀ d ∈ dirs, (⟨some dir, options⟩ : PackageContext).Same
      (rule (byComponents read) defaults d.ancestors)) :
    ((cs.make ⟨some dir, options⟩).1.remember dirs (cs.make ⟨some dir, options⟩).2).Sound read defaults where
  fallback := h.fallback
  made hr := by
    rw [remembered?_remember] at hr
    have hlength : (cs.make ⟨some dir, options⟩).1.made.length = cs.made.length + 1 := by simp [PackageContexts.make]
    split at hr
    · obtain rfl := Option.some.inj (Option.some.inj hr)
      exact Nat.lt_of_lt_of_eq (Nat.lt_succ_self _) hlength.symm
    · exact Nat.lt_of_lt_of_le (h.made hr) (Nat.le_of_lt (Nat.lt_of_lt_of_eq (Nat.lt_succ_self _) hlength.symm))
  context := by
    apply context_remember
    · intro d id hr
      rw [(extends_make cs _).context fun n hn => h.made (hn ▸ hr)]
      exact h.context hr
    · intro d hd
      rw [World.context_make]
      exact hdirs d hd
  owned c hc := by
    obtain hc | hc := List.mem_append.mp hc
    · obtain ⟨d, hd, hr⟩ := h.owned c hc
      refine ⟨d, hd, ?_⟩
      rw [remembered?_remember]
      split
      · rfl
      · exact hr
    · obtain rfl := List.mem_singleton.mp hc
      refine ⟨dir, rfl, ?_⟩
      rw [remembered?_remember, if_pos (List.mem_map_of_mem hdir)]
      rfl
  apart := by
    show ((cs.made ++ [_]).map _).Nodup
    rw [List.map_append, List.map_singleton]
    refine List.nodup_append.mpr ⟨h.apart, by simp, ?_⟩
    rintro _ hmem _ hlast rfl
    obtain ⟨c, hc, heq⟩ := List.mem_map.mp hmem
    obtain ⟨d, hd, hr⟩ := h.owned c hc
    -- the directory would have been remembered with the context that was made for it
    have hsame : d.components = dir.components := by simpa [hd] using heq.trans (List.mem_singleton.mp hlast)
    rw [remembered?, hsame, ← remembered?, hnew] at hr
    cases hr

/-- Contexts are told apart by the directories that they were made for. -/
theorem context_injective (h : cs.Sound read defaults) {id id' : ContextId}
    (hid : ∀ n, id = some n → n < cs.made.length) (hid' : ∀ n, id' = some n → n < cs.made.length)
    (heq : (cs.context id).dir.map Path.components = (cs.context id').dir.map Path.components) : id = id' := by
  have hmade : ∀ {n}, n < cs.made.length → ((cs.context (some n)).dir.map Path.components).isSome ∧
      (cs.made.map fun c => c.dir.map Path.components)[n]? = some ((cs.context (some n)).dir.map Path.components) := by
    intro n hn
    have hget : cs.made[n]? = some cs.made[n] := List.getElem?_eq_getElem hn
    obtain ⟨dir, hdir, -⟩ := h.owned _ (List.getElem_mem hn)
    simp [PackageContexts.context, hget, hdir]
  cases id with
  | none =>
    cases id' with
    | none => rfl
    | some n =>
      have hsome := (hmade (hid' n rfl)).1
      rw [← heq] at hsome
      cases hsome
  | some n =>
    obtain ⟨hsome, hn⟩ := hmade (hid n rfl)
    cases id' with
    | none =>
      rw [heq] at hsome
      cases hsome
    | some m =>
      obtain ⟨-, hm⟩ := hmade (hid' m rfl)
      rw [← heq] at hm
      have hlt : n < (cs.made.map fun c => c.dir.map Path.components).length := by simpa using hid n rfl
      exact congrArg some ((List.getElem?_inj hlt h.apart).mp (hn.trans hm.symm))

end Sound

/-! ## One answer -/

/-- Below the first manifest the rule says the same all the way up to it. -/
theorem rule_of_mem {read : Path → Manifest} {p dir : Path} {front back : List Path} (h : p.ancestors = front ++ back)
    (hfront : ∀ dir ∈ front, (read dir).options? = none) (hdir : dir ∈ front) :
    rule read defaults dir.ancestors = rule read defaults back := by
  obtain ⟨before, after, rfl⟩ := List.append_of_mem hdir
  have hancestors : dir.ancestors = (dir :: after) ++ back := by
    have hsplit : p.ancestors = before ++ dir :: (after ++ back) := by simpa using h
    exact Path.ancestors_of_append hsplit
  rw [hancestors]
  apply rule_append
  intro d hd
  exact hfront d (List.mem_append_right _ hd)

/-- What the rule says about the directories that a walk looks into, by how the walk ends. -/
def Settles (read : List Path.Component → Manifest) (defaults : PackageOptions) (cs : PackageContexts)
    (looked : List Path) : Found → Prop
  | .remembered id => (∀ n, id = some n → n < cs.made.length) ∧
      ∀ dir ∈ looked, (cs.context id).Same (rule (byComponents read) defaults dir.ancestors)
  | .manifest dir options => dir ∈ looked ∧
      ∀ d ∈ looked, rule (byComponents read) defaults d.ancestors = ⟨some dir, options⟩
  | .nothing => ∀ dir ∈ looked, rule (byComponents read) defaults dir.ancestors = ⟨none, defaults⟩

/-- A walk looks into directories one after the other, none of which was looked into before. -/
theorem Sound.settles (h : cs.Sound read defaults) {p : Path} {looked : List Path} {found : Found}
    (hends : Ends cs (byComponents read) p.ancestors looked found) :
    looked <+: p.ancestors ∧ (∀ dir ∈ looked, cs.remembered? dir = none) ∧ Settles read defaults cs looked found := by
  generalize hdirs : p.ancestors = dirs at hends
  cases hends with
  | @remembered _ back dir id hfront hdir =>
    refine ⟨List.prefix_append _ _, fun d hd => (hfront d hd).1, fun n hn => h.made (hn ▸ hdir), fun d hd => ?_⟩
    rw [rule_of_mem hdirs (fun d hd => (hfront d hd).2) hd, ← Path.ancestors_of_append hdirs]
    exact h.context hdir
  | @manifest front back dir options hfront hdir hoptions =>
    refine ⟨⟨back, by simp⟩, fun d hd => ?_, by simp, fun d hd => ?_⟩
    · obtain hd | hd := List.mem_append.mp hd
      · exact (hfront d hd).1
      · rw [List.mem_singleton.mp hd]
        exact hdir
    · have hrule : rule (byComponents read) defaults (dir :: back) = ⟨some dir, options⟩ := rule_cons hoptions
      rw [← hrule]
      obtain hd | hd := List.mem_append.mp hd
      · exact rule_of_mem hdirs (fun d hd => (hfront d hd).2) hd
      · rw [List.mem_singleton.mp hd, Path.ancestors_of_append hdirs]
  | nothing hlooked =>
    refine ⟨List.prefix_rfl, fun d hd => (hlooked d hd).1, fun d hd => ?_⟩
    rw [← @rule_nil (byComponents read)]
    exact rule_of_mem (by rw [hdirs, List.append_nil]) (fun d hd => (hlooked d hd).2) hd

/-- What an answer says about directories, each of which lies in the next, and how it goes on from there. -/
structure Answers (read : List Path.Component → Manifest) (defaults : PackageOptions) (cs : PackageContexts)
    (dirs : List Path) (answer : Answer) : Prop where
  sound : answer.contexts.Sound read defaults
  grows : cs.Extends answer.contexts
  made : ∀ n, answer.id = some n → n < answer.contexts.made.length
  same : (answer.contexts.context answer.id).Same (rule (byComponents read) defaults dirs)
  unread : ∀ step ∈ answer.walked, cs.remembered? step.1 = none
  noted : ∀ step ∈ answer.walked, (answer.contexts.remembered? step.1).isSome
  once : (answer.walked.map fun step => step.1.components).Nodup

/-- The answer for a directory is what the rule says, and no directory is looked into again for it. -/
theorem Sound.contextFor (h : cs.Sound read defaults) (dir : Path) :
    Answers read defaults cs dir.ancestors (cs.contextFor (byComponents read) dir) := by
  obtain ⟨hfront, hnew, hsettles⟩ := h.settles (ends_inspect cs (byComponents read) dir.ancestors)
  obtain ⟨hsound, hgrows⟩ : (cs.contextFor (byComponents read) dir).contexts.Sound read defaults ∧
      cs.Extends (cs.contextFor (byComponents read) dir).contexts := by
    unfold PackageContexts.contextFor
    generalize cs.inspect (byComponents read) dir.ancestors = walk at hnew hsettles
    obtain ⟨walked, found⟩ := walk
    cases found with
    | remembered id => exact ⟨h.remember hsettles.1 hsettles.2, extends_remember hnew id⟩
    | manifest dir options =>
      obtain ⟨hdir, hrule⟩ := hsettles
      have hmade := extends_make cs ⟨some dir, options⟩
      refine ⟨h.make hdir (hnew dir hdir) fun d hd => ?_, hmade.trans (@extends_remember (cs.make _).1 _ hnew _)⟩
      rw [hrule d hd]
      exact .refl _
    | nothing =>
      refine ⟨h.remember (fun n hn => by cases hn) fun d hd => ?_, extends_remember hnew none⟩
      rw [hsettles d hd, ← h.fallback]
      exact .refl _
  -- the directory itself is remembered in the end, with the answer
  have hself := cs.remembered_of_contextFor (byComponents read) dir
  have hwalked :
      (cs.contextFor (byComponents read) dir).walked = (cs.inspect (byComponents read) dir.ancestors).1 := rfl
  refine ⟨hsound, hgrows, fun n hn => hsound.made (hn ▸ hself), hsound.context hself, ?_, ?_, ?_⟩
  · intro step hstep
    exact hnew _ (List.mem_map_of_mem hstep)
  · intro step hstep
    have hmem : step.1.components ∈ ((cs.inspect (byComponents read) dir.ancestors).1.map (·.1)).map Path.components :=
      List.mem_map_of_mem (List.mem_map_of_mem hstep)
    rw [PackageContexts.contextFor, remembered?_remember, if_pos hmem]
    rfl
  · have hnodup := (hfront.map Path.components).sublist.nodup dir.nodup_ancestors
    rwa [List.map_map] at hnodup

/-! ## Any number of answers -/

/-- What contexts are asked for. -/
inductive Query where
  /-- The context of the files in a directory. -/
  | directory (dir : Path)
  /-- The context of a file. -/
  | file (path : Path)

namespace Query

/-- The directories that decide about a query, nearest first. -/
def dirs : Query → List Path
  | directory dir => dir.ancestors
  | file path => (path.parent.map Path.ancestors).getD []

/-- The answer to a query. -/
def answer (cs : PackageContexts) (read : Path → Manifest) : Query → Answer
  | directory dir => cs.contextFor read dir
  | file path => cs.contextForFile read path

/-- The directory whose manifest decides about a query. -/
def nearest? (read : List Path.Component → Manifest) (q : Query) : Option (List Path.Component) :=
  (PackageContexts.nearest? (byComponents read) q.dirs).map (·.1.components)

end Query

/-- The answers to queries, one after the other. -/
def answers (read : Path → Manifest) : PackageContexts → List Query → List Answer
  | _, [] => []
  | cs, q :: queries => q.answer cs read :: answers read (q.answer cs read).contexts queries

/-- The contexts after some queries. -/
def after (read : Path → Manifest) : PackageContexts → List Query → PackageContexts
  | cs, [] => cs
  | cs, q :: queries => after read (q.answer cs read).contexts queries

theorem Sound.answer (h : cs.Sound read defaults) (q : Query) :
    Answers read defaults cs q.dirs (q.answer cs (byComponents read)) := by
  cases q with
  | directory dir => exact h.contextFor dir
  | file path =>
    simp only [Query.answer, Query.dirs, contextForFile]
    cases path.parent with
    | some dir => exact h.contextFor dir
    | none =>
      -- nothing lies above, and the default context is there without being made
      refine ⟨h, .refl cs, by simp, ?_, by simp, by simp, by simp⟩
      rw [PackageContexts.context, Option.bind_none, Option.getD_none, defaultContext, h.fallback]
      exact .refl _

/-- What holds of an answer in the end, when others may have followed. -/
structure Stands (read : List Path.Component → Manifest) (defaults : PackageOptions) (final : PackageContexts)
    (q : Query) (answer : Answer) : Prop where
  grows : answer.contexts.Extends final
  made : ∀ n, answer.id = some n → n < answer.contexts.made.length
  same : (answer.contexts.context answer.id).Same (rule (byComponents read) defaults q.dirs)

/-- Answers to queries stand, and no directory that was looked into is looked into again. -/
theorem Sound.answers (h : cs.Sound read defaults) (queries : List Query) :
    let all := PackageContexts.answers (byComponents read) cs queries
    let final := after (byComponents read) cs queries
    final.Sound read defaults ∧ cs.Extends final ∧
      (∀ p ∈ queries.zip all, Stands read defaults final p.1 p.2) ∧
      (∀ step ∈ all.flatMap Answer.walked, cs.remembered? step.1 = none) ∧
      ((all.flatMap Answer.walked).map fun step => step.1.components).Nodup := by
  induction queries generalizing cs with
  | nil => exact ⟨h, .refl cs, by simp [PackageContexts.answers], by simp [PackageContexts.answers], List.nodup_nil⟩
  | cons q queries ih =>
    have hq := h.answer q
    obtain ⟨hfinal, hgrows, hstand, hunread, honce⟩ := ih hq.sound
    refine ⟨hfinal, hq.grows.trans hgrows, ?_, ?_, ?_⟩
    · intro p hp
      obtain rfl | hp := List.mem_cons.mp hp
      · exact ⟨hgrows, hq.made, hq.same⟩
      · exact hstand p hp
    · intro step hstep
      obtain hstep | hstep := List.mem_append.mp hstep
      · exact hq.unread step hstep
      · -- what is not remembered later is not remembered before
        cases hr : cs.remembered? step.1 with
        | none => rfl
        | some id =>
          have hnone := hunread step hstep
          rw [hq.grows.remembered hr] at hnone
          cases hnone
    · rw [PackageContexts.answers, List.flatMap_cons, List.map_append]
      refine List.nodup_append.mpr ⟨hq.once, honce, ?_⟩
      rintro _ hfirst _ hlater rfl
      obtain ⟨step, hstep, hkey⟩ := List.mem_map.mp hfirst
      obtain ⟨step', hstep', hkey'⟩ := List.mem_map.mp hlater
      have hnoted := hq.noted step hstep
      have hnone := hunread step' hstep'
      rw [remembered?, hkey', ← hkey, ← remembered?] at hnone
      rw [hnone] at hnoted
      cases hnoted

/-- Two answers share a context exactly when the rule finds the same manifest for both. -/
theorem Stands.id_eq_iff {final : PackageContexts} (hfinal : final.Sound read defaults) {q q' : Query}
    {a a' : Answer} (h : Stands read defaults final q a) (h' : Stands read defaults final q' a') :
    a.id = a'.id ↔ q.nearest? read = q'.nearest? read := by
  have hdir : ∀ {q : Query} {a : Answer}, Stands read defaults final q a →
      (final.context a.id).dir.map Path.components = q.nearest? read := by
    intro q a h
    rw [h.grows.context h.made, h.same.dir, dir_rule, Option.map_map]
    rfl
  have hmade : ∀ {q : Query} {a : Answer}, Stands read defaults final q a →
      ∀ n, a.id = some n → n < final.made.length := by
    intro q a h n hn
    exact Nat.lt_of_lt_of_le (h.made n hn) h.grows.made.length_le
  rw [← hdir h, ← hdir h']
  constructor
  · intro heq
    rw [heq]
  · intro heq
    exact hfinal.context_injective (hmade h) (hmade h') heq

/-- Each of some queries is answered with the context that the nearest manifest gives. Two answers share their context
exactly when they come from the same manifest or both from none, and the reader is called at most once for a
directory. -/
theorem answers_new (read : List Path.Component → Manifest) (defaults : PackageOptions) (queries : List Query) :
    let all := answers (byComponents read) (new defaults) queries
    all.length = queries.length ∧
      (∀ p ∈ queries.zip all,
        (p.2.contexts.context p.2.id).Same (rule (byComponents read) defaults p.1.dirs)) ∧
      (∀ p ∈ queries.zip all, ∀ p' ∈ queries.zip all,
        p.2.id = p'.2.id ↔ p.1.nearest? read = p'.1.nearest? read) ∧
      ((all.flatMap Answer.walked).map fun step => step.1.components).Nodup := by
  have hlength : ∀ cs, (answers (byComponents read) cs queries).length = queries.length := by
    induction queries with
    | nil => intro cs; rfl
    | cons q queries ih => intro cs; exact congrArg (· + 1) (ih _)
  obtain ⟨hfinal, -, hstand, -, honce⟩ := (sound_new read defaults).answers queries
  refine ⟨hlength _, fun p hp => (hstand p hp).same, fun p hp p' hp' => ?_, honce⟩
  exact (hstand p hp).id_eq_iff hfinal (hstand p' hp')

/-- A package is found from two places below it and in another spelling, without looking again. -/
example :
    let read := fun dir : List Path.Component =>
      if dir = [.root, .name "repo", .name "pkg"] then Manifest.options .default else .absent
    let all := answers (byComponents read) (new .default)
      [.directory ⟨"/repo/pkg/src"⟩, .file ⟨"/repo/pkg//test/a.js"⟩, .file ⟨"/x.js"⟩]
    all.map (·.id) = [some 0, some 0, none] ∧ all.map (·.walked.map (·.1)) =
      [[⟨"/repo/pkg/src"⟩, ⟨"/repo/pkg"⟩], [⟨"/repo/pkg//test"⟩], [⟨"/"⟩]] := by
  decide +kernel

end PackageContexts
end ModGraph
