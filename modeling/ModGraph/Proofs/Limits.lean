import ModGraph.Proofs.Follows

/-!
# The limit on nesting

The limit on how deep requests nest only matters for a load that reaches it. With a higher limit a load
takes the same course, unless it failed for the lower one (`Extends.loadNested`).
-/

namespace ModGraph

/-- Whether an error says that requests nest too deep. -/
def LoadError.isTooDeep : LoadError → Bool
  | nestedTooDeep _ => true
  | _ => false

namespace Loader

variable {α β : Type}

/-- A run failed for the limit on nesting. -/
def TooDeep (r : Except LoadError α × Loader) : Prop := ∃ e, r.1 = .error e ∧ e.isTooDeep = true

/-- One action does what another does, unless that one fails for the limit on nesting. -/
def Extends (longer shorter : LoadM α) : Prop :=
  ∀ l : Loader, TooDeep (l.run shorter) ∨ l.run longer = l.run shorter

namespace Extends

theorem refl (action : LoadM α) : Extends action action := fun _ => .inr rfl

theorem bind {longer shorter : LoadM α} {next next' : α → LoadM β} (h : Extends longer shorter)
    (hnext : ∀ a, Extends (next a) (next' a)) : Extends (longer >>= next) (shorter >>= next') := by
  intro l
  rw [run_bind, run_bind]
  rcases h l with ⟨e, he, hdeep⟩ | heq
  · left
    generalize l.run shorter = r at he ⊢
    obtain ⟨result, l'⟩ := r
    cases he
    exact ⟨e, rfl, hdeep⟩
  · rw [heq]
    generalize l.run shorter = r
    obtain ⟨e | a, l'⟩ := r
    · exact .inr rfl
    · exact hnext a l'

/-- Cleaning up does not hide an error. -/
theorem onError {longer shorter : LoadM α} {cleanUp : LoadError → LoadM Unit}
    (h : Extends longer shorter) (hclean : ∀ e (l : Loader), ∃ l', l.run (cleanUp e) = (.ok (), l')) :
    Extends (Loader.onError longer cleanUp) (Loader.onError shorter cleanUp) := by
  intro l
  rw [run_onError, run_onError]
  rcases h l with ⟨e, he, hdeep⟩ | heq
  · left
    generalize l.run shorter = r at he ⊢
    obtain ⟨result, l'⟩ := r
    cases he
    obtain ⟨l'', hl''⟩ := hclean e l'
    refine ⟨e, ?_, hdeep⟩
    dsimp only
    rw [hl'']
    rfl
  · rw [heq]
    exact .inr rfl

variable {longer shorter : NestedLoad}

theorem runTask {id : EntryId} (h : ∀ request, Extends (longer request id) (shorter request id))
    (filename : Path) (t : Task) :
    Extends (Loader.runTask longer id filename t) (Loader.runTask shorter id filename t) := by
  induction t with
  | done => exact refl _
  | fail e => exact refl _
  | setFormat format next ih => exact (refl _).bind fun _ => ih
  | report event next ih => exact (refl _).bind fun _ => ih
  | readSource next ih => exact (refl _).bind ih
  | readProgram next ih => exact (refl _).bind ih
  | require request next ih => exact (h request).bind fun child => (refl _).bind ih
  | setExports v next ih => exact (refl _).bind fun _ => ih
  | setExport name v next ih => exact (refl _).bind fun _ => ih

theorem perform (h : ∀ request id, Extends (longer request id) (shorter request id)) (job : Job) :
    Extends (Loader.perform longer job) (Loader.perform shorter job) := by
  refine (refl _).bind fun _ => .bind (.onError ?_ fun e l => ?_) fun _ => refl _
  · exact (refl _).bind fun c => (runTask (fun request => h request job.id) _ _).bind fun _ => refl _
  · unfold vacate
    split
    · exact ⟨_, rfl⟩
    · unfold rollback
      rw [run_bind, run_get, andThen_ok, run_onlyIf]
      split <;> exact ⟨_, rfl⟩

theorem answer (h : ∀ request id, Extends (longer request id) (shorter request id)) (request : String)
    (parent : Option EntryId) (isMain : Bool) :
    Extends (Loader.answer longer request parent isMain) (Loader.answer shorter request parent isMain) := by
  refine (refl _).bind fun found => ?_
  cases found with
  | found id => exact refl _
  | needs job => exact perform h job

theorem reported {longer shorter : LoadM EntryId} (h : Extends longer shorter) (request : String) :
    Extends (Loader.reported request longer) (Loader.reported request shorter) :=
  (refl _).bind fun _ => (h.onError fun _ _ => ⟨_, rfl⟩).bind fun _ => refl _

/-- With a higher limit a nested load does the same, unless it failed for the lower one. -/
theorem loadNested {limit limit' : Nat} (h : limit ≤ limit') (request : String) (id : EntryId) :
    Extends (Loader.loadNested limit' request id) (Loader.loadNested limit request id) := by
  induction limit generalizing limit' request id with
  | zero => exact fun l => .inl ⟨.nestedTooDeep request, rfl, rfl⟩
  | succ limit ih =>
    obtain ⟨limit', rfl⟩ := Nat.exists_eq_add_of_le' h
    exact reported (answer (fun request id => ih (Nat.le_add_left limit limit') request id) _ _ _) _

end Extends
end Loader
end ModGraph
