import ModGraph.Proofs.BuiltinEntries
import ModGraph.Proofs.Renewal

/-!
# Builtin modules

A builtin module is registered under its name, and asked for by the name or by the name with a mark before it
(`AsksFor`). Three tables have to agree for that: the names that the resolver knows, what is registered for them, and
the entries that were made. From a registration to the next one under the same name, whoever asks for the module gets
an entry that is loaded and exports what was registered; and once there is an entry it is always the same one
(`Loader.registered_builtin`). The tables do not agree on names that begin with the mark themselves: the resolver takes
it off, and what is registered stays under the full name (`Loader.unanswered_registration`).
-/

namespace ModGraph

open Json (Value)
open Relation (ReflTransGen)
open Resolver (builtinName)

/-- A request for the builtin module under a name: the name itself, or with the mark before it. -/
def AsksFor (name request : String) : Prop := request = name ∨ request = "node:" ++ name

/-- A name that a request can carry: no query begins in it, and it does not begin with the mark. -/
structure IsPlainName (name : String) : Prop where
  unmarked : Unmarked name
  plain : ¬ "node:".toList <+: name.toList

namespace IsPlainName

variable {name request : String}

theorem builtinName (h : IsPlainName name) (hr : AsksFor name request) : builtinName request = name := by
  rcases hr with rfl | rfl
  · unfold Resolver.builtinName
    dsimp only
    rw [if_neg (by simpa [List.isPrefixOf_iff_prefix] using h.plain)]
  · unfold Resolver.builtinName
    dsimp only
    rw [if_pos (by simp [String.toList_append])]
    simp [String.toList_append]

theorem splitQuery (h : IsPlainName name) (hr : AsksFor name request) : splitQuery request = (request, none) := by
  refine splitQuery_of_unmarked ?_
  rcases hr with rfl | rfl
  · exact h.unmarked
  · have hmark : Unmarked "node:" := by decide
    intro c hc
    rw [String.toList_append, List.mem_append] at hc
    exact hc.elim (hmark c) (h.unmarked c)

end IsPlainName

namespace Loader

variable {l l' l₀ : Loader} {name request : String} {v : Value} {id : EntryId} {op : Operation} {m : Moment}

/-! ## What builtin modules export -/

/-- What the builtin module under a name exports. -/
def registeredExports (l : Loader) (name : String) : Value := (l.builtinExports.get? name).getD (.object [])

/-- The entries of builtin modules export what they should. -/
structure Provided (l : Loader) : Prop extends Enlisted l where
  exports : ∀ {name id}, l.cache.builtins.get? name = some id →
    (l.graph.entry id).module.exports = l.registeredExports name

namespace Provided

/-- It is enough to look at the entries of builtin modules. -/
theorem of_entries (h : l.Provided) (hx : l'.builtinExports = l.builtinExports)
    (hb : l'.cache.builtins = l.cache.builtins) (hsize : l.graph.size ≤ l'.graph.size)
    (hentry : ∀ {name id}, l.cache.builtins.get? name = some id →
      (l'.graph.entry id).module.exports = (l.graph.entry id).module.exports) : l'.Provided where
  toEnlisted := h.toEnlisted.of_same hb hsize
  exports hget := by
    rw [hb] at hget
    rw [hentry hget, h.exports hget, registeredExports, registeredExports, hx]

theorem of_graph (h : l.Provided) (hx : l'.builtinExports = l.builtinExports)
    (hb : l'.cache.builtins = l.cache.builtins) (hg : l'.graph = l.graph) : l'.Provided :=
  h.of_entries hx hb (by rw [hg]) fun _ => by rw [hg]

theorem sustains : Sustains False fun l l' => l.Provided → l'.Provided where
  refl _ h := h
  trans _ _ _ h h' := h' ∘ h
  report _ _ h := h.of_graph rfl rfl rfl
  updateCache hf _ h := h.of_graph rfl (hf _) rfl
  updateEntry {l id} hid f _ h := by
    refine h.of_entries rfl rfl (Nat.le_of_eq (Graph.size_update _ _ _).symm) fun {name other} hget => ?_
    have hne : id ≠ other := fun heq => hid.nameless name (heq ▸ hget)
    rw [run_updateEntry, Graph.entry_update_of_ne _ _ hne]
  link {l r} _ request child h := by
    refine h.of_entries rfl rfl (Nat.le_of_eq (Graph.size_update _ _ _).symm) fun {name other} _ => ?_
    have hspared := Entry.Spared.update l.graph r.id (f := fun e => e.addChild request child)
      (fun e => ⟨rfl, rfl, rfl, rfl, rfl⟩) other
    exact congrArg Module.exports hspared.module
  addEntry e l h := by
    refine h.of_entries rfl rfl (Nat.le_of_lt (by simp)) fun hget => ?_
    rw [run_addEntry, Graph.entry_add_of_lt _ _ (h.inRange hget)]
  builtin name l h := by
    have hx := (Evolves.respects.builtin name l).builtinExports
    rw [run_builtin] at hx ⊢
    refine { toEnlisted := h.toEnlisted.builtinOf name, exports := fun {name' id} hget => ?_ }
    rw [registeredExports, hx]
    rcases entry_builtinOf h.toEnlisted hget with ⟨hold, hentry⟩ | ⟨rfl, hentry⟩
    · rw [hentry]
      exact h.exports hold
    · rw [hentry]
      rfl
  package _ h := by
    rw [run_packageOfFile]
    exact h.of_graph rfl rfl rfl
  source file l h := by
    have hquiet := Quiet.reading.source file l
    exact h.of_graph (Evolves.reading.source file l).builtinExports (by rw [hquiet.cache]) hquiet.graph
  program file l h := by
    have hquiet := Quiet.reading.program file l
    exact h.of_graph (Evolves.reading.program file l).builtinExports (by rw [hquiet.cache]) hquiet.graph

/-- A registration gives the module's entry the new exports, and no other entry. -/
theorem registerBuiltin (h : l.Provided) (name : String) (v : Value) :
    (l.after (.registerBuiltin name v)).Provided := by
  obtain ⟨hsize, -⟩ := l.retains_registerBuiltin name v
  refine { toEnlisted := h.toEnlisted.of_same rfl (Nat.le_of_eq hsize.symm), exports := fun {name' id} hget => ?_ }
  change l.cache.builtins.get? name' = some id at hget
  simp only [after, Loader.registerBuiltin, run_modify, registeredExports, Table.get?_insert]
  by_cases heq : name = name'
  · subst heq
    simp only [if_true, hget, Graph.entry_update_self _ _ (h.inRange hget)]
    rfl
  · rw [if_neg heq]
    cases hmade : l.cache.builtins.get? name with
    | none => exact h.exports hget
    | some made =>
      have hne : made ≠ id := fun hid => heq (h.distinct hmade (hid ▸ hget))
      simp only [Graph.entry_update_of_ne _ _ hne]
      exact h.exports hget

theorem after (h : l.Provided) (hg : l.Grounded) (op : Operation) : (l.after op).Provided := by
  cases op with
  | load request parent isMain => exact sustains.load hg False.elim request isMain h
  | discover request parent => exact sustains.discover hg False.elim request h
  | resolve request parent =>
    rw [Loader.after, run_resolve]
    exact h.of_graph rfl rfl rfl
  | invalidate key =>
    have hbuiltins : (l.cache.invalidate key).builtins = l.cache.builtins := by
      simp [Cache.invalidate, Partition.all]
    exact h.of_graph rfl hbuiltins rfl
  | clearCache => exact h.of_graph rfl rfl rfl
  | registerBuiltin name v => exact h.registerBuiltin name v
  | registerCompiler extension c => exact h.of_graph rfl rfl rfl
  | replaceCached p key id => exact h.of_graph rfl (Cache.builtins_set _ _ _ _) rfl
  | changeFiles fs => exact h.of_graph rfl rfl rfl

end Provided

theorem Fresh.provided (h : l.Fresh) : l.Provided where
  toEnlisted := .of_empty h.cache
  exports hget := by
    rw [h.cache] at hget
    cases hget

/-- In all states the entries of builtin modules export what is registered. -/
theorem provided_of_reachable (h : Reachable Fresh Sensible l) : l.Idle ∧ l.Provided :=
  h.invariant (P := fun l => l.Idle ∧ l.Provided) (fun _ hl => ⟨idle_of_empty hl.cache, hl.provided⟩)
    fun _ _ hl hop => ⟨hl.1.after hop, hl.2.after hl.1.toGrounded _⟩

/-! ## Asking for a builtin module -/

/-- An action gives an entry that is loaded and exports a value. -/
structure Gives (l : Loader) (action : LoadM EntryId) (id : EntryId) (v : Value) : Prop where
  result : (l.run action).1 = .ok id
  loaded : ((l.run action).2.graph.entry id).isLoaded = true
  exports : ((l.run action).2.graph.entry id).module.exports = v

theorem builtinOf_of_get? (h : l.cache.builtins.get? name = some id) : (l.builtinOf name).1 = id := by
  unfold builtinOf
  rw [h]

section Answers

variable (hn : IsPlainName name) (hb : l.resolver.isBuiltin name = true)
include hn hb

theorem resolved_of_asksFor (hr : AsksFor name request) (parent : Option EntryId) (isMain : Bool) :
    l.resolved request parent isMain = .ok (.builtin name) := by
  have hknown : l.resolver.isBuiltin request = true := by
    rw [Resolver.isBuiltin, hn.builtinName hr]
    rwa [Resolver.isBuiltin, hn.builtinName (.inl rfl)] at hb
  simp [resolved, resolution, query, Resolver.resolve, hn.splitQuery hr, hn.builtinName hr, hknown]

/-- A request for a builtin module is answered without compiling anything. -/
theorem run_reported_builtin (hr : AsksFor name request) (nested : NestedLoad) (parent : Option EntryId)
    (isMain : Bool) :
    ∃ l', l.run (reported request (answer nested request parent isMain)) = (.ok (l.builtinOf name).1, l') ∧
      l'.cache.builtins.get? name = some (l.builtinOf name).1 := by
  let l₁ := l.noted [.enters request .resolving]
  let l₂ := l₁.retried request parent isMain
  have hresolved : l₁.resolved request parent isMain = .ok (.builtin name) :=
    resolved_of_asksFor hn hb hr parent isMain
  have hsame : (l₂.builtinOf name).1 = (l.builtinOf name).1 := by
    unfold builtinOf
    rw [show l₂.cache = l.cache from rfl]
    cases l.cache.builtins.get? name <;> rfl
  have hseek := run_seek_eq l₁ request parent isMain
  dsimp only at hseek
  rw [hresolved] at hseek
  refine ⟨((l₂.builtinOf name).2.linked (l₁.referrer? parent) request (l₂.builtinOf name).1).noted
    [.enters request .done], ?_, ?_⟩
  · rw [run_reported]
    unfold answer
    rw [run_bind, hseek, ← hsame]
    rfl
  · change ((l₂.builtinOf name).2.linked _ request _).cache.builtins.get? name = _
    rw [cache_linked, builtins_builtinOf, hsame]

end Answers

theorem gives_of_action (hn : IsPlainName name) (hb : m.loader.resolver.isBuiltin name = true)
    (hr : AsksFor name m.request) (hg : m.loader.Grounded) (hp : m.loader.Provided) :
    m.loader.Gives m.action (m.loader.builtinOf name).1 (m.loader.registeredExports name) := by
  obtain ⟨l', hrun, hget⟩ := run_reported_builtin hn hb hr (loadNested m.limit) m.parent m.isMain
  have hsteady : Steadily (fun _ => False) _ m.loader (m.loader.run m.action).2 :=
    Provided.sustains.steadilyAction m False.elim
  have hevolves := Follows.reported Evolves.respects.report
    (Evolves.respects.answer (Evolves.respects.loadNested m.limit) m.request m.parent m.isMain) m.request m.loader
  have hrun' : m.loader.run m.action = (.ok (m.loader.builtinOf name).1, l') := hrun
  obtain ⟨hg', hkept⟩ := hsteady hg
  have hp' := (hkept nofun).2 hp
  rw [hrun] at hevolves
  rw [hrun'] at hg' hp'
  refine ⟨by rw [hrun'], ?_, ?_⟩
  · rw [hrun']
    exact (hg'.builtin hget).2
  · rw [hrun']
    exact (hp'.exports hget).trans (by rw [registeredExports, registeredExports, hevolves.builtinExports])

/-! ## Along a run -/

/-- Builtin modules keep their entries, and the resolver and what is registered stay the same. -/
structure KeepsBuiltins (l l' : Loader) : Prop where
  resolver : l'.resolver = l.resolver
  builtinExports : l'.builtinExports = l.builtinExports
  entry : ∀ {name id}, l.cache.builtins.get? name = some id → l'.cache.builtins.get? name = some id

namespace KeepsBuiltins

theorem refl (l : Loader) : KeepsBuiltins l l := ⟨rfl, rfl, id⟩

theorem trans {l'' : Loader} (h : KeepsBuiltins l l') (h' : KeepsBuiltins l' l'') : KeepsBuiltins l l'' :=
  ⟨h'.resolver.trans h.resolver, h'.builtinExports.trans h.builtinExports, fun hget => h'.entry (h.entry hget)⟩

instance : IsPreorder Loader KeepsBuiltins where
  refl := refl
  trans _ _ _ := trans

theorem respects : Respects KeepsBuiltins :=
  Evolves.respects.mono fun h => ⟨h.resolver, h.builtinExports, h.cache.builtin⟩

theorem withParsing (l : Loader) (parsing : Bool) : KeepsBuiltins l (l.withParsing parsing) := ⟨rfl, rfl, id⟩

end KeepsBuiltins

/-- A name stays known, its entry stays the same, and what is registered for it stays until the next registration. -/
theorem upheld_after (l : Loader) (op : Operation) (name : String) :
    (l.resolver.isBuiltin name = true → (l.after op).resolver.isBuiltin name = true) ∧
      (∀ {id}, l.cache.builtins.get? name = some id → (l.after op).cache.builtins.get? name = some id) ∧
      ((∀ v, op ≠ .registerBuiltin name v) → (l.after op).registeredExports name = l.registeredExports name) := by
  have hkept : ∀ {l' : Loader}, KeepsBuiltins l l' →
      (l.resolver.isBuiltin name = true → l'.resolver.isBuiltin name = true) ∧
      (∀ {id}, l.cache.builtins.get? name = some id → l'.cache.builtins.get? name = some id) ∧
      ((∀ v, op ≠ .registerBuiltin name v) → l'.registeredExports name = l.registeredExports name) := fun h =>
    ⟨fun hb => by rwa [h.resolver], h.entry, fun _ => by rw [registeredExports, registeredExports, h.builtinExports]⟩
  cases op with
  | load request parent isMain => exact hkept (KeepsBuiltins.respects.load request parent isMain l)
  | discover request parent =>
    rw [Loader.after, run_discover]
    exact hkept ((KeepsBuiltins.withParsing l true).trans
      ((KeepsBuiltins.respects.load request parent false _).trans (.withParsing _ _)))
  | resolve request parent =>
    rw [Loader.after, run_resolve]
    exact hkept ⟨rfl, rfl, id⟩
  | invalidate key =>
    have hbuiltins : (l.cache.invalidate key).builtins = l.cache.builtins := by
      simp [Cache.invalidate, Partition.all]
    exact hkept ⟨rfl, rfl, fun hget => hbuiltins ▸ hget⟩
  | clearCache => exact hkept ⟨rfl, rfl, id⟩
  | registerBuiltin other v =>
    refine ⟨fun hb => ?_, id, fun hne => ?_⟩
    · change (l.resolver.addBuiltin other).isBuiltin name = true
      unfold Resolver.addBuiltin
      split
      · exact hb
      · simp only [Resolver.isBuiltin, List.contains_append, Bool.or_eq_true] at hb ⊢
        exact .inl hb
    · have hother : other ≠ name := fun heq => hne v (heq ▸ rfl)
      exact congrArg (Option.getD · (.object [])) (Table.get?_insert_of_ne l.builtinExports v hother)
  | registerCompiler extension c => exact hkept ⟨rfl, rfl, id⟩
  | replaceCached p key id =>
    exact hkept ⟨rfl, rfl, fun hget => (Cache.builtins_set _ _ _ _).symm ▸ hget⟩
  | changeFiles fs => exact hkept ⟨rfl, rfl, id⟩

/-- A registered name is known, and its exports are what was registered. -/
theorem registered_after (hn : IsPlainName name) (l : Loader) (v : Value) :
    (l.after (.registerBuiltin name v)).resolver.isBuiltin name = true ∧
      (l.after (.registerBuiltin name v)).registeredExports name = v := by
  refine ⟨?_, ?_⟩
  · change (l.resolver.addBuiltin name).isBuiltin name = true
    unfold Resolver.addBuiltin
    split
    · next hb => exact hb
    · simp [Resolver.isBuiltin, hn.builtinName (.inl rfl)]
  · exact congrArg (Option.getD · (.object [])) (Table.get?_insert_self l.builtinExports name v)

/-- Inside of a call builtin modules are as at its beginning, apart from those that were made in it. -/
theorem provided_of_comesTo (hg : l.Grounded) (hp : l.Provided) (hm : l.ComesTo op m) :
    m.loader.Grounded ∧ m.loader.Provided ∧ KeepsBuiltins l m.loader := by
  have hfrom : ∀ {first : Moment}, first.loader.Grounded → first.loader.Provided → KeepsBuiltins l first.loader →
      ReflTransGen Moment.Asks first m → m.loader.Grounded ∧ m.loader.Provided ∧ KeepsBuiltins l m.loader := by
    intro first hg hp hu hasks
    obtain ⟨hg', -, hp'⟩ := Provided.sustains.of_asks hg False.elim hasks
    exact ⟨hg', hp' hp, hu.trans (KeepsBuiltins.respects.of_asks hasks)⟩
  obtain ⟨first, hfirst, hasks⟩ := hm
  unfold beginning? at hfirst
  split at hfirst
  · cases hfirst
    exact hfrom hg hp (.refl l) hasks
  · cases hfirst
    exact hfrom (Balanced.withParsing l true hg).1 (Provided.sustains.withParsing l true hp) (.withParsing l true) hasks
  · cases hfirst

/-- A registration under a name. -/
def Reregisters (name : String) : Operation → Prop
  | .registerBuiltin other _ => other = name
  | _ => False

/-- From a registration to the next one under the same name every request for the module, in a call or inside of one,
is answered with an entry that is loaded and exports what was registered. A request that is answered before or after
a registration is answered with the same entry ever after. -/
theorem registered_builtin (hn : IsPlainName name) :
    (∀ (l₀ l : Loader) (v : Value), Reachable Fresh Sensible l₀ →
      Reachable (· = l₀.after (.registerBuiltin name v)) (fun l op => l.Sensible op ∧ ¬ Reregisters name op) l →
      (∃ id, ∀ request parent isMain, AsksFor name request → l.Gives (load request parent isMain) id v) ∧
      ∀ op m, l.ComesTo op m → AsksFor name m.request → ∃ id, m.loader.Gives m.action id v) ∧
    ∀ (l l' : Loader) (op : Operation) (m : Moment) (id : EntryId), l.resolver.isBuiltin name = true →
      l.ComesTo op m → AsksFor name m.request → (m.loader.run m.action).1 = .ok id →
      Reachable (· = l.after op) (fun _ _ => True) l' →
      (∀ request parent isMain, AsksFor name request → (l'.run (load request parent isMain)).1 = .ok id) ∧
      ∀ op' m', l'.ComesTo op' m' → AsksFor name m'.request → (m'.loader.run m'.action).1 = .ok id := by
  refine ⟨fun l₀ l v h₀ h => ?_, fun l l' op m id hb hm hr hid h => ?_⟩
  · obtain ⟨hidle₀, hp₀⟩ := provided_of_reachable h₀
    obtain ⟨hidle, hp, hb, hv⟩ : l.Idle ∧ l.Provided ∧ l.resolver.isBuiltin name = true ∧
        l.registeredExports name = v := by
      refine h.invariant (P := fun l => l.Idle ∧ l.Provided ∧ l.resolver.isBuiltin name = true ∧
        l.registeredExports name = v) ?_ ?_
      · rintro _ rfl
        exact ⟨hidle₀.after trivial, hp₀.registerBuiltin name v, registered_after hn l₀ v⟩
      · rintro l op ⟨hidle, hp, hb, hv⟩ ⟨hop, hother⟩
        obtain ⟨hb', -, hv'⟩ := l.upheld_after op name
        exact ⟨hidle.after hop, hp.after hidle.toGrounded op, hb' hb,
          (hv' fun v heq => hother (heq ▸ rfl)).trans hv⟩
    refine ⟨⟨(l.builtinOf name).1, fun request parent isMain hr => ?_⟩, fun op m hm hr => ?_⟩
    · have hgives := gives_of_action (m := ⟨l.nestingBound request, request, parent, isMain, [], l⟩) hn hb hr
        hidle.toGrounded hp
      obtain ⟨hresult, hloaded, hexports⟩ := hgives
      dsimp only at hresult hloaded hexports
      rw [← run_load_eq] at hresult hloaded hexports
      exact ⟨hresult, hloaded, hexports.trans hv⟩
    · obtain ⟨hg', hp', hu⟩ := provided_of_comesTo hidle.toGrounded hp hm
      have hgives := gives_of_action hn (hu.resolver ▸ hb) hr hg' hp'
      rw [registeredExports, hu.builtinExports, ← registeredExports, hv] at hgives
      exact ⟨_, hgives⟩
  · have hu := KeepsBuiltins.respects.of_comesTo (.withParsing l true) hm
    -- the answer is in the table at the end of the request, and so at the end of the call
    obtain ⟨l₁, hrun, hget⟩ := run_reported_builtin hn (hu.resolver ▸ hb) hr (loadNested m.limit) m.parent m.isMain
    have hrun' : m.loader.run m.action = (.ok (m.loader.builtinOf name).1, l₁) := hrun
    rw [hrun'] at hid
    obtain rfl := Except.ok.inj hid
    have hrest := KeepsBuiltins.respects.rest_of_comesTo KeepsBuiltins.withParsing hm
    rw [hrun'] at hrest
    obtain ⟨hb', hget'⟩ : l'.resolver.isBuiltin name = true ∧
        l'.cache.builtins.get? name = some (m.loader.builtinOf name).1 := by
      refine h.invariant (P := fun l' => l'.resolver.isBuiltin name = true ∧
        l'.cache.builtins.get? name = some (m.loader.builtinOf name).1) ?_ ?_
      · rintro _ rfl
        exact ⟨(l.upheld_after op name).1 hb, hrest.entry hget⟩
      · rintro l op ⟨hb, hget⟩ -
        obtain ⟨hknown, hkept, -⟩ := l.upheld_after op name
        exact ⟨hknown hb, hkept hget⟩
    have hanswers : ∀ m' : Moment, KeepsBuiltins l' m'.loader → AsksFor name m'.request →
        (m'.loader.run m'.action).1 = .ok (m.loader.builtinOf name).1 := by
      intro m' hu' hr'
      obtain ⟨l₂, hrun₂, -⟩ :=
        run_reported_builtin hn (hu'.resolver ▸ hb') hr' (loadNested m'.limit) m'.parent m'.isMain
      rw [builtinOf_of_get? (hu'.entry hget')] at hrun₂
      exact congrArg Prod.fst hrun₂
    refine ⟨fun request parent isMain hr' => ?_, fun op' m' hm' hr' =>
      hanswers m' (KeepsBuiltins.respects.of_comesTo (.withParsing l' true) hm') hr'⟩
    rw [run_load_eq]
    exact hanswers ⟨l'.nestingBound request, request, parent, isMain, [], l'⟩ (.refl l') hr'

/-- A loader with a builtin module of its own, which is asked for before and after it is registered once more. -/
def greeting : Loader :=
  ((circular.after (.registerBuiltin "greet" (.bool false))).after (.load "greet" none false)).after
    (.registerBuiltin "greet" (.bool true))

theorem registered_greeting :
    IsPlainName "greet" ∧
      (∃ id, ∀ parent isMain, greeting.Gives (load "greet" parent isMain) id (.bool true) ∧
        greeting.Gives (load "node:greet" parent isMain) id (.bool true)) ∧
      (greeting.run (load "node:greet" none false)).1 = .ok 0 := by
  have hn : IsPlainName "greet" := ⟨by decide, by decide⟩
  obtain ⟨hgives, hsame⟩ := registered_builtin hn
  refine ⟨hn, ?_, ?_⟩
  · have hstart : Reachable Fresh Sensible
        ((circular.after (.registerBuiltin "greet" (.bool false))).after (.load "greet" none false)) :=
      .after (.after (.start (fresh_ofConfig _ _)) trivial) trivial
    obtain ⟨⟨id, hid⟩, -⟩ := hgives _ greeting (.bool true) hstart (.start rfl)
    exact ⟨id, fun parent isMain => ⟨hid _ parent isMain (.inl rfl), hid _ parent isMain (.inr rfl)⟩⟩
  · let l := circular.after (.registerBuiltin "greet" (.bool false))
    let first : Moment := ⟨l.nestingBound "greet", "greet", none, false, [], l⟩
    have hfirst : l.ComesTo (.load "greet" none false) first := ⟨first, rfl, .refl⟩
    have hmade : (first.loader.run first.action).1 = .ok 0 := by decide +kernel
    exact (hsame l greeting _ first 0 (by decide +kernel) hfirst (.inl rfl) hmade
      (.after (.start rfl) trivial)).1 _ _ _ (.inr rfl)

/-- What is registered under a name with the mark is not found: a builtin module of the name without it answers with
its own exports, and where there is none the request fails. -/
theorem unanswered_registration :
    let known := circular.after (.registerBuiltin "node:fs" (.bool true))
    let unknown := circular.after (.registerBuiltin "node:greet" (.bool true))
    (ModGraph.Unmarked "node:fs" ∧ (known.run (load "node:fs" none false)).1 = .ok 0 ∧
      ((known.run (load "node:fs" none false)).2.graph.entry 0).module.exports ≠ .bool true) ∧
      ModGraph.Unmarked "node:greet" ∧
        (unknown.run (load "node:greet" none false)).1 = .error (.moduleNotFound "node:greet" none) := by
  refine ⟨⟨by decide, by decide +kernel, fun h => ?_⟩, by decide, by decide +kernel⟩
  exact absurd (congrArg Value.render h) (by decide +kernel)

end Loader
end ModGraph
