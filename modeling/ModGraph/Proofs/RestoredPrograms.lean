import ModGraph.Proofs.ReadBack
import ModGraph.Proofs.StoredForms

/-!
# Restored programs

What is stored of a program is restored if and only if it nests no deeper than reading goes
(`Source.Program.restore_store_iff`). The stored form is deeper than what the program writes out, for there are some
objects and a list around every literal.

A decoder takes what is printed for a value if it may go as deep as that (`Json.Decoder.Takes`), and what it gives is
never deeper than it may go (`Json.Decoder.Bounded`).
-/

namespace ModGraph
namespace Json

variable {α β : Type} {a a' : α} {u : List Char} {v : Value} {depth : Nat} {ts mid left : List Token}

/-- A reader that waits for something takes a token. -/
theorem Reader.length_lt_of_run {reading : Reading} {r : Reader} {doc : Doc} (hr : r.Waits)
    (h : r.run reading ts = .ok (doc, left)) : left.length < ts.length := by
  induction ts generalizing r with
  | nil =>
    obtain ⟨f, hf⟩ := hr.run_nil reading
    rw [hf] at h
    cases h
  | cons token ts ih =>
    rw [hr.run_cons] at h
    cases hstep : r.step reading token with
    | error f =>
      rw [hstep] at h
      cases h
    | ok r' =>
      rw [hstep] at h
      by_cases hdone : ∃ doc, r' = ⟨[], .after doc⟩
      · obtain ⟨doc', rfl⟩ := hdone
        have hrun : Reader.run reading ⟨[], .after doc'⟩ ts = .ok (doc, left) := h
        rw [Reader.run_done] at hrun
        cases hrun
        exact Nat.lt_succ_self _
      · exact (ih (fun doc heq => hdone ⟨doc, heq⟩) h).trans (Nat.lt_succ_self _)

namespace Decoder

/-! ## Taking what was printed -/

/-- A decoder takes what is printed for a value, if it may go as deep as that, and gives something for it. -/
structure Takes (r : Decoder α) (v : Value) (a : α) : Prop where
  run : ∀ {depth u}, v.depth ≤ depth → EndsNumber u → r depth (tokens (v.print ++ u)) = .ok (a, tokens u)
  shrinks : ∀ {u}, EndsNumber u → (tokens u).length < (tokens (v.print ++ u)).length

variable {r : Decoder α}

theorem Takes.map (f : α → β) (h : Takes r v a) : Takes (fun depth => f <$> r depth) v (f a) where
  run hd hu := TokenReader.map_eq_ok.mpr ⟨a, h.run hd hu, rfl⟩
  shrinks := h.shrinks

theorem Takes.bind {f : α → TokenReader β} (g : α → β) (hf : ∀ a, f a = pure (g a)) (h : Takes r v a) :
    Takes (fun depth => r depth >>= f) v (g a) where
  run {_ u} hd hu := TokenReader.bind_eq_ok.mpr ⟨a, tokens u, h.run hd hu, by rw [hf]; rfl⟩
  shrinks := h.shrinks

theorem takes_text (s : String) : Takes text (.string s) s where
  run _ _ := by
    rw [Value.print, tokens_printString]
    rfl
  shrinks _ := by
    rw [Value.print, tokens_printString]
    exact Nat.lt_succ_self _

theorem takes_optional (s? : Option String) : Takes (optional text) (optionalText s?) s? := by
  cases s? with
  | none =>
    have htokens : ∀ u, tokens (Value.null.print ++ u) = ⟨.null, 'n' :: ['u', 'l', 'l'] ++ u⟩ :: tokens u :=
      tokens_word (w := ['u', 'l', 'l']) rfl (fun _ => rfl)
    constructor
    · intro _ u _ _
      show optional text _ (tokens (Value.null.print ++ u)) = _
      rw [htokens]
      rfl
    · intro u _
      show _ < (tokens (Value.null.print ++ u)).length
      rw [htokens]
      exact Nat.lt_succ_self _
  | some s =>
    have htokens : ∀ u, tokens ((Value.string s).print ++ u) = ⟨.string (.ok s), printString s ++ u⟩ :: tokens u :=
      tokens_printString s
    constructor
    · intro _ u _ _
      show optional text _ (tokens ((Value.string s).print ++ u)) = _
      rw [htokens]
      rfl
    · exact (takes_text s).shrinks

theorem takes_value (hv : v.Ordered) (hn : ∀ n ∈ v.numbers, n.Fits) : Takes value v v := by
  have hread : ∀ {depth u}, v.depth ≤ depth → EndsNumber u →
      ∃ doc, doc.value = v ∧ Doc.read (.wanted depth) (tokens (v.print ++ u)) = .ok (doc, tokens u) := by
    intro depth u hd hu
    obtain ⟨doc, hdoc, hrun⟩ := Reader.run_printed v hv hn [] (.inl rfl) (by simpa using hd) hu
    rw [Reader.run_done] at hrun
    exact ⟨doc, hdoc, hrun⟩
  constructor
  · intro depth u hd hu
    obtain ⟨doc, hdoc, hrun⟩ := hread hd hu
    exact TokenReader.map_eq_ok.mpr ⟨doc, hrun, hdoc⟩
  · intro u hu
    obtain ⟨doc, -, hrun⟩ := hread Nat.le.refl hu
    exact Reader.length_lt_of_run (r := Reader.start) nofun hrun

/-! ### Lists -/

section Lists

variable {limit : Nat} {isFirst : Bool} {as : List α}

theorem elements_end {item : TokenReader α} (h : nextElement isFirst ts = .ok (false, mid)) :
    elements item (limit + 1) isFirst ts = .ok ([], mid) :=
  TokenReader.bind_eq_ok.mpr ⟨false, mid, h, rfl⟩

theorem elements_cons {item : TokenReader α} {ts₁ ts₂ : List Token} (h : nextElement isFirst ts = .ok (true, ts₁))
    (ha : item ts₁ = .ok (a, ts₂)) (has : elements item limit false ts₂ = .ok (as, mid)) :
    elements item (limit + 1) isFirst ts = .ok (a :: as, mid) :=
  TokenReader.bind_eq_ok.mpr ⟨true, ts₁, h, TokenReader.bind_eq_ok.mpr ⟨a, ts₂, ha,
    TokenReader.bind_eq_ok.mpr ⟨as, mid, has, rfl⟩⟩⟩

variable {item : Decoder α} {vs : List Value}

/-- An object is no end of a list. -/
theorem tokens_print_object (ms : List (String × Value)) (u : List Char) :
    ∃ start rest, tokens ((Value.object ms).print ++ u) = ⟨.mark '{', start⟩ :: rest := by
  obtain ⟨cs, hcs⟩ : ∃ cs, (Value.object ms).print = '{' :: cs := by
    cases ms with
    | nil => exact ⟨_, rfl⟩
    | cons m ms => exact ⟨_, rfl⟩
  rw [hcs, List.cons_append, tokens_markCons (by simp)]
  exact ⟨_, _, rfl⟩

theorem length_tokens_printItems (hitems : List.Forall₂ (Takes item) vs as) (u : List Char) :
    (tokens u).length < (tokens (Value.printItems vs ++ u)).length := by
  induction hitems with
  | nil =>
    rw [tokens_printItems_nil]
    exact Nat.lt_succ_self _
  | @cons v a vs as hv _ ih =>
    have hshrinks := hv.shrinks (Reader.endsNumber_printItems vs u)
    rw [tokens_printItems_cons, List.length_cons]
    omega

/-- The elements of a list behind the first. -/
theorem elements_taken (hitems : List.Forall₂ (Takes item) vs as) (hobjects : ∀ v ∈ vs, ∃ ms, v = .object ms)
    (hd : Value.itemsDepth vs ≤ depth) (hlimit : (tokens (Value.printItems vs ++ u)).length ≤ limit) :
    elements (item depth) limit false (tokens (Value.printItems vs ++ u)) = .ok (as, tokens (']' :: u)) := by
  -- as every element takes a token, the limit lasts for what is left
  induction hitems generalizing limit with
  | nil =>
    rw [tokens_printItems_nil, List.length_cons] at hlimit
    rw [tokens_printItems_nil, tokens_markCons (by simp)]
    obtain ⟨k, rfl⟩ := Nat.exists_eq_add_of_le' (Nat.le_of_add_left_le hlimit)
    exact elements_end rfl
  | @cons v a vs as hv _ ih =>
    obtain ⟨hfirst, hrest⟩ : v.depth ≤ depth ∧ Value.itemsDepth vs ≤ depth := by rwa [Value.itemsDepth, Nat.max_le] at hd
    have hu := Reader.endsNumber_printItems vs u
    have hshrinks := hv.shrinks hu
    rw [tokens_printItems_cons, List.length_cons] at hlimit
    obtain ⟨k, rfl⟩ := Nat.exists_eq_add_of_le' (Nat.le_of_add_left_le hlimit)
    have hnext : nextElement false (tokens (Value.printItems (v :: vs) ++ u)) =
        .ok (true, tokens (v.print ++ (Value.printItems vs ++ u))) := by
      obtain ⟨ms, rfl⟩ := hobjects v List.mem_cons_self
      obtain ⟨start, rest, hobject⟩ := tokens_print_object ms (Value.printItems vs ++ u)
      rw [tokens_printItems_cons, hobject]
      rfl
    exact elements_cons hnext (hv.run hfirst hu)
      (ih (fun v hmem => hobjects v (List.mem_cons_of_mem _ hmem)) hrest (by omega))

/-- A list of objects is taken if its elements are. -/
theorem takes_list (hobjects : ∀ v ∈ vs, ∃ ms, v = .object ms) (hitems : List.Forall₂ (Takes item) vs as) :
    Takes (list item) (.array vs) as := by
  cases hitems with
  | nil =>
    have htokens : ∀ u, tokens ((Value.array []).print ++ u) =
        ⟨.mark '[', '[' :: ']' :: u⟩ :: ⟨.mark ']', ']' :: u⟩ :: tokens u := by
      intro u
      show tokens ('[' :: ']' :: u) = _
      rw [tokens_markCons (by simp), tokens_markCons (by simp)]
    constructor
    · intro depth u hd _
      rw [htokens]
      cases depth with
      | zero => cases hd
      | succ depth => rfl
    · intro u _
      rw [htokens, List.length_cons, List.length_cons]
      omega
  | @cons v a vs as hv hvs =>
    have htokens : ∀ u, tokens ((Value.array (v :: vs)).print ++ u) =
        ⟨.mark '[', '[' :: (v.print ++ (Value.printItems vs ++ u))⟩ :: tokens (v.print ++ (Value.printItems vs ++ u)) := by
      intro u
      rw [← tokens_markCons (by simp)]
      simp [Value.print]
    constructor
    · intro depth u hd _
      obtain ⟨d, rfl, hfirst, hrest⟩ : ∃ d, depth = d + 1 ∧ v.depth ≤ d ∧ Value.itemsDepth vs ≤ d := by
        rw [Value.depth, Value.itemsDepth] at hd
        exact ⟨depth - 1, by omega, by omega, by omega⟩
      have hu := Reader.endsNumber_printItems vs u
      have hshrinks := hv.shrinks hu
      have hnext : nextElement true (tokens (v.print ++ (Value.printItems vs ++ u))) =
          .ok (true, tokens (v.print ++ (Value.printItems vs ++ u))) := by
        obtain ⟨ms, rfl⟩ := hobjects v List.mem_cons_self
        obtain ⟨start, rest, hobject⟩ := tokens_print_object ms (Value.printItems vs ++ u)
        rw [hobject]
        rfl
      have helements : elements (item d) (tokens (v.print ++ (Value.printItems vs ++ u))).length true
          (tokens (v.print ++ (Value.printItems vs ++ u))) = .ok (a :: as, tokens (']' :: u)) := by
        obtain ⟨k, hk⟩ := Nat.exists_eq_add_of_le' (Nat.one_le_of_lt hshrinks)
        rw [hk]
        exact elements_cons hnext (hv.run hfirst hu)
          (elements_taken hvs (fun v hmem => hobjects v (List.mem_cons_of_mem _ hmem)) hrest (by omega))
      rw [htokens]
      refine TokenReader.seqLeft_eq_ok.mpr ⟨_, (), helements, ?_⟩
      rw [tokens_markCons (by simp)]
      rfl
    · intro u _
      have hfirst := hv.shrinks (Reader.endsNumber_printItems vs u)
      have hrest := length_tokens_printItems hvs u
      rw [htokens, List.length_cons]
      omega

end Lists

/-! ### Records -/

section Records

variable {fields : List (RecordField α)} {limit : Nat} {isFirst : Bool} {seen : List String} {k : String}
  {ms : List (String × Value)}

/-- A record is filled from the members of an object, in their order. Each of them is a field that was not given yet, and
none that must be given is missing. -/
inductive FilledBy (fields : List (RecordField α)) : List String → α → List (String × Value) → α → Prop
  | done {seen : List String} {a : α} (hgiven : ∀ field ∈ fields, field.presence = .required → field.name ∈ seen) :
      FilledBy fields seen a [] a
  | member {seen : List String} {a a₁ a₂ : α} {k : String} {v : Value} {ms : List (String × Value)}
      {field : RecordField α} (hfield : fields.find? (fun field => field.name == k) = some field) (hnew : k ∉ seen)
      (htakes : Takes (field.read a) v a₁) (hrest : FilledBy fields (k :: seen) a₁ ms a₂) :
      FilledBy fields seen a ((k, v) :: ms) a₂

theorem recordMembers_end (h : nextName isFirst ts = .ok (none, mid))
    (hgiven : ∀ field ∈ fields, field.presence = .required → field.name ∈ seen) :
    recordMembers fields depth (limit + 1) isFirst seen a ts = .ok (a, mid) := by
  refine TokenReader.bind_eq_ok.mpr ⟨none, mid, h, ?_⟩
  dsimp only
  rw [if_neg]
  · rfl
  · simpa using hgiven

theorem recordMembers_cons {field : RecordField α} {a₁ a₂ : α} {ts₁ ts₂ : List Token} {x : Unit}
    (h : nextName isFirst ts = .ok (some k, mid)) (hfield : fields.find? (fun field => field.name == k) = some field)
    (hnew : k ∉ seen) (hcolon : colon mid = .ok (x, ts₁)) (hread : field.read a depth ts₁ = .ok (a₁, ts₂))
    (hrest : recordMembers fields depth limit false (k :: seen) a₁ ts₂ = .ok (a₂, left)) :
    recordMembers fields depth (limit + 1) isFirst seen a ts = .ok (a₂, left) := by
  refine TokenReader.bind_eq_ok.mpr ⟨some k, mid, h, ?_⟩
  dsimp only
  rw [hfield]
  dsimp only
  rw [if_neg (by simpa using hnew)]
  exact TokenReader.bind_eq_ok.mpr ⟨x, ts₁, hcolon, TokenReader.bind_eq_ok.mpr ⟨a₁, ts₂, hread, hrest⟩⟩

/-- The tokens of a member. -/
def memberTokens (k : String) (v : Value) (u : List Char) : List Token :=
  ⟨.string (.ok k), printString k ++ ':' :: (v.print ++ u)⟩ :: ⟨.mark ':', ':' :: (v.print ++ u)⟩ :: tokens (v.print ++ u)

theorem tokens_member (k : String) (v : Value) (u : List Char) :
    tokens (printString k ++ ':' :: (v.print ++ u)) = memberTokens k v u := by
  rw [tokens_printString, tokens_markCons (by simp)]
  rfl

theorem tokens_printMembers_cons (k : String) (v : Value) (ms : List (String × Value)) (u : List Char) :
    ∃ start, tokens (Value.printMembers ((k, v) :: ms) ++ u) =
      ⟨.mark ',', start⟩ :: memberTokens k v (Value.printMembers ms ++ u) := by
  rw [← tokens_member]
  refine ⟨_, (congrArg tokens ?_).trans (tokens_markCons (by simp) _)⟩
  simp [Value.printMembers]

theorem length_tokens_printMembers {a₂ : α} (hfills : FilledBy fields seen a ms a₂) (u : List Char) :
    (tokens u).length < (tokens (Value.printMembers ms ++ u)).length := by
  induction hfills with
  | done =>
    rw [tokens_printMembers_nil]
    exact Nat.lt_succ_self _
  | @member _ _ _ _ k v ms _ _ _ htakes _ ih =>
    have hshrinks := htakes.shrinks (Reader.endsNumber_printMembers ms u)
    obtain ⟨start, htokens⟩ := tokens_printMembers_cons k v ms u
    rw [htokens, memberTokens, List.length_cons, List.length_cons, List.length_cons]
    omega

/-- The members of a record behind the first, and the end of the record. -/
theorem recordMembers_taken {a₂ : α} (hfills : FilledBy fields seen a ms a₂) (hd : Value.membersDepth ms ≤ depth)
    (hlimit : (tokens (Value.printMembers ms ++ u)).length ≤ limit) :
    recordMembers fields depth limit false seen a (tokens (Value.printMembers ms ++ u)) = .ok (a₂, tokens u) := by
  induction hfills generalizing limit with
  | done hgiven =>
    rw [tokens_printMembers_nil, List.length_cons] at hlimit
    rw [tokens_printMembers_nil]
    obtain ⟨k, rfl⟩ := Nat.exists_eq_add_of_le' (Nat.le_of_add_left_le hlimit)
    exact recordMembers_end rfl hgiven
  | @member _ _ _ _ k v ms _ hfield hnew htakes _ ih =>
    obtain ⟨hfirst, hrest⟩ : v.depth ≤ depth ∧ Value.membersDepth ms ≤ depth := by
      rwa [Value.membersDepth, Nat.max_le] at hd
    have hu := Reader.endsNumber_printMembers ms u
    have hshrinks := htakes.shrinks hu
    obtain ⟨start, htokens⟩ := tokens_printMembers_cons k v ms u
    rw [htokens, memberTokens, List.length_cons, List.length_cons, List.length_cons] at hlimit
    rw [htokens]
    obtain ⟨n, rfl⟩ := Nat.exists_eq_add_of_le' (Nat.le_of_add_left_le hlimit)
    exact recordMembers_cons rfl hfield hnew rfl (htakes.run hfirst hu) (ih hrest (by omega))

/-- A record is taken from an object that fills it. -/
theorem takes_record {start : α} (hfills : FilledBy fields [] start ((k, v) :: ms) a) :
    Takes (record fields start) (.object ((k, v) :: ms)) a := by
  cases hfills with | @member _ _ a₁ _ _ _ _ field hfield hnew htakes hrest => ?_
  have htokens : ∀ u, ∃ opening, tokens ((Value.object ((k, v) :: ms)).print ++ u) =
      ⟨.mark '{', opening⟩ :: memberTokens k v (Value.printMembers ms ++ u) := by
    intro u
    rw [← tokens_member]
    refine ⟨_, (congrArg tokens ?_).trans (tokens_markCons (by simp) _)⟩
    simp [Value.print]
  constructor
  · intro depth u hd _
    obtain ⟨d, rfl, hfirst, hbehind⟩ : ∃ d, depth = d + 1 ∧ v.depth ≤ d ∧ Value.membersDepth ms ≤ d := by
      rw [Value.depth, Value.membersDepth] at hd
      exact ⟨depth - 1, by omega, by omega, by omega⟩
    have hu := Reader.endsNumber_printMembers ms u
    have hshrinks := htakes.shrinks hu
    obtain ⟨opening, htokens⟩ := htokens u
    rw [htokens]
    exact recordMembers_cons rfl hfield hnew rfl (htakes.run hfirst hu) (recordMembers_taken hrest hbehind (by
      rw [List.length_cons]
      omega))
  · intro u _
    have hfirst := htakes.shrinks (Reader.endsNumber_printMembers ms u)
    have hbehind := length_tokens_printMembers hrest u
    obtain ⟨opening, htokens⟩ := htokens u
    rw [htokens, memberTokens, List.length_cons, List.length_cons, List.length_cons]
    omega

end Records

/-! ### Variants -/

/-- A variant is taken from an object with its name, if what it carries is. -/
theorem takes_variant {payload? : String → Option (Payload α)} {k : String} {read : Decoder α}
    (hpayload : payload? k = some (.carrying read)) (hread : Takes read v a) :
    Takes (variant payload?) (.object [(k, v)]) a := by
  have htokens : ∀ u, ∃ opening, tokens ((Value.object [(k, v)]).print ++ u) =
      ⟨.mark '{', opening⟩ :: memberTokens k v ('}' :: u) := by
    intro u
    rw [← tokens_member]
    refine ⟨_, (congrArg tokens ?_).trans (tokens_markCons (by simp) _)⟩
    simp [Value.print, Value.printMembers]
  have hends : ∀ u, EndsNumber ('}' :: u) := by rintro _ _ ⟨⟩; simp
  constructor
  · intro depth u hd _
    obtain ⟨d, rfl, hfirst⟩ : ∃ d, depth = d + 1 ∧ v.depth ≤ d := by
      rw [Value.depth, Value.membersDepth] at hd
      exact ⟨depth - 1, by omega, by omega⟩
    obtain ⟨opening, htokens⟩ := htokens u
    rw [htokens]
    refine TokenReader.bind_eq_ok.mpr ⟨k, _, rfl, ?_⟩
    rw [hpayload]
    refine TokenReader.bind_eq_ok.mpr ⟨(), _, rfl, ?_⟩
    refine TokenReader.seqLeft_eq_ok.mpr ⟨_, (), hread.run hfirst (hends u), ?_⟩
    rw [tokens_markCons (by simp)]
    rfl
  · intro u _
    have hfirst := hread.shrinks (hends u)
    obtain ⟨opening, htokens⟩ := htokens u
    rw [tokens_markCons (by simp), List.length_cons] at hfirst
    rw [htokens, memberTokens, List.length_cons, List.length_cons, List.length_cons]
    omega

/-! ## How deep decoding goes -/

/-- What a decoder gives is no deeper than it may go. -/
def Bounded (r : Decoder α) (size : α → Nat) : Prop :=
  ∀ {depth ts a left}, r depth ts = .ok (a, left) → size a ≤ depth

theorem bounded_value : Bounded value Value.depth := by
  intro depth ts v left h
  obtain ⟨doc, hdoc, rfl⟩ := TokenReader.map_eq_ok.mp h
  exact Doc.depth_of_read hdoc

theorem elements_read {item : TokenReader α} {limit : Nat} {isFirst : Bool} {as : List α}
    (h : elements item limit isFirst ts = .ok (as, mid)) : ∀ a ∈ as, ∃ ts left, item ts = .ok (a, left) := by
  induction limit generalizing isFirst ts as with
  | zero => cases h
  | succ limit ih =>
    obtain ⟨goesOn, ts₁, -, h⟩ := TokenReader.bind_eq_ok.mp h
    cases goesOn with
    | false =>
      cases h
      exact nofun
    | true =>
      obtain ⟨a, ts₂, ha, h⟩ := TokenReader.bind_eq_ok.mp h
      obtain ⟨as', ts₃, has, h⟩ := TokenReader.bind_eq_ok.mp h
      cases h
      exact List.forall_mem_cons.mpr ⟨⟨ts₁, ts₂, ha⟩, ih has⟩

/-- A list takes one level. -/
theorem list_read {item : Decoder α} {as : List α} (h : list item depth ts = .ok (as, left)) :
    ∃ d, depth = d + 1 ∧ ∀ a ∈ as, ∃ ts left, item d ts = .ok (a, left) := by
  unfold list at h
  split at h
  · cases h
  · cases depth with
    | zero => cases h
    | succ d =>
      obtain ⟨mid, _, has, -⟩ := TokenReader.seqLeft_eq_ok.mp h
      exact ⟨d, rfl, elements_read has⟩
  · cases h

section Records

variable {fields : List (RecordField α)} {motive : List String → α → Prop} {limit : Nat} {isFirst : Bool}
  {seen : List String}

/-- Whatever is given, together with all that must be. -/
def Given (fields : List (RecordField α)) (motive : List String → α → Prop) (a : α) : Prop :=
  ∃ seen, motive seen a ∧ ∀ field ∈ fields, field.presence = .required → field.name ∈ seen

/-- What the fields keep holds in the end, of what was given. -/
theorem recordMembers_induction
    (hstep : ∀ field ∈ fields, ∀ {seen a a' ts left}, motive seen a → field.read a depth ts = .ok (a', left) →
      motive (field.name :: seen) a')
    (ha : motive seen a) (h : recordMembers fields depth limit isFirst seen a ts = .ok (a', left)) :
    Given fields motive a' := by
  induction limit generalizing isFirst seen a ts with
  | zero => cases h
  | succ limit ih =>
    obtain ⟨name?, mid, -, h⟩ := TokenReader.bind_eq_ok.mp h
    cases name? with
    | none =>
      dsimp only at h
      split at h
      · cases h
      · next hgiven =>
        cases h
        exact ⟨seen, ha, by simpa using hgiven⟩
    | some name =>
      dsimp only at h
      cases hfield : fields.find? fun field => field.name == name with
      | none =>
        rw [hfield] at h
        obtain ⟨_, ts₁, -, h⟩ := TokenReader.bind_eq_ok.mp h
        obtain ⟨_, ts₂, -, h⟩ := TokenReader.bind_eq_ok.mp h
        exact ih ha h
      | some field =>
        rw [hfield] at h
        dsimp only at h
        split at h
        · cases h
        · obtain ⟨_, ts₁, -, h⟩ := TokenReader.bind_eq_ok.mp h
          obtain ⟨a₁, ts₂, hread, h⟩ := TokenReader.bind_eq_ok.mp h
          have hname : field.name = name := by simpa using List.find?_some hfield
          exact ih (hname ▸ hstep field (List.mem_of_find?_eq_some hfield) ha hread) h

/-- So it is with a record that is written as a list. The names of its fields are not written there. -/
theorem recordItems_induction
    (hstep : ∀ field ∈ fields, ∀ {seen a a' ts left}, motive seen a → field.read a depth ts = .ok (a', left) →
      motive (field.name :: seen) a')
    (ha : motive seen a) (h : recordItems depth fields isFirst a ts = .ok (a', left)) :
    ∃ seen', motive seen' a' ∧ seen ⊆ seen' ∧ ∀ field ∈ fields, field.presence = .required → field.name ∈ seen' := by
  induction fields generalizing isFirst seen a ts with
  | nil =>
    obtain ⟨_, mid, -, h⟩ := TokenReader.bind_eq_ok.mp h
    cases h
    exact ⟨seen, ha, List.Subset.refl _, nofun⟩
  | cons field fields ih =>
    have hrest : ∀ field ∈ fields, ∀ {seen a a' ts left}, motive seen a → field.read a depth ts = .ok (a', left) →
        motive (field.name :: seen) a' := fun field hmem => hstep field (List.mem_cons_of_mem _ hmem)
    obtain ⟨goesOn, mid, -, h⟩ := TokenReader.bind_eq_ok.mp h
    cases goesOn with
    | true =>
      obtain ⟨a₁, ts₁, hread, h⟩ := TokenReader.bind_eq_ok.mp h
      obtain ⟨seen', hmotive, hsub, hgiven⟩ := ih hrest (hstep field List.mem_cons_self ha hread) h
      refine ⟨seen', hmotive, List.subset_of_cons_subset hsub, List.forall_mem_cons.mpr ⟨fun _ => ?_, hgiven⟩⟩
      exact hsub List.mem_cons_self
    | false =>
      rw [if_neg Bool.false_ne_true] at h
      split at h
      · -- only a field that need not be given is left out
        next hfree =>
        obtain ⟨seen', hmotive, hsub, hgiven⟩ := ih hrest ha h
        refine ⟨seen', hmotive, hsub, List.forall_mem_cons.mpr ⟨fun hrequired => ?_, hgiven⟩⟩
        rw [hrequired] at hfree
        cases hfree
      · cases h

/-- A record takes one level, and holds whatever its fields keep. -/
theorem record_read {start : α}
    (hstep : ∀ field ∈ fields, ∀ {d seen a a' ts left}, depth = d + 1 → motive seen a →
      field.read a d ts = .ok (a', left) → motive (field.name :: seen) a')
    (hstart : motive [] start) (h : record fields start depth ts = .ok (a, left)) :
    1 ≤ depth ∧ Given fields motive a := by
  unfold record at h
  split at h
  · cases h
  split at h
  · cases h
  · exact ⟨Nat.succ_pos _, recordMembers_induction (fun field hmem => hstep field hmem rfl) hstart h⟩
  · cases h
  · obtain ⟨seen, ha, -, hgiven⟩ := recordItems_induction (fun field hmem => hstep field hmem rfl) hstart h
    exact ⟨Nat.succ_pos _, seen, ha, hgiven⟩
  · cases h

end Records

/-- A variant that carries something takes one level. -/
theorem variant_read {payload? : String → Option (Payload α)} (h : variant payload? depth ts = .ok (a, left)) :
    ∃ name p, payload? name = some p ∧
      (p = .plain a ∨ ∃ d ts left, depth = d + 1 ∧ payload p d ts = .ok (a, left)) := by
  unfold variant at h
  split at h
  · cases h
  split at h
  · cases h
  · obtain ⟨name, mid, -, h⟩ := TokenReader.bind_eq_ok.mp h
    cases hp : payload? name with
    | none =>
      rw [hp] at h
      cases h
    | some p =>
      rw [hp] at h
      obtain ⟨_, ts₁, -, h⟩ := TokenReader.bind_eq_ok.mp h
      obtain ⟨ts₂, _, hread, -⟩ := TokenReader.seqLeft_eq_ok.mp h
      exact ⟨name, p, hp, .inr ⟨_, ts₁, ts₂, rfl, hread⟩⟩
  · next name _ =>
    cases name with
    | error f => cases h
    | ok name =>
      simp only [bind, Except.bind] at h
      split at h
      · next a' hp =>
        cases h
        exact ⟨name, _, hp, .inl rfl⟩
      · cases h
  · cases h
  · cases h

end Decoder
end Json

namespace Source

open Json (Decoder Value)
open Json.Decoder (Bounded FilledBy Takes bounded_value list_read record_read takes_list takes_optional takes_record
  takes_text takes_value takes_variant variant_read)

variable {depth : Nat}

/-! ## Programs -/

theorem Expr.takes_require (request : String) (property : Option String) :
    Takes decodeRequire (.object [("request", .string request), ("property", Json.Decoder.optionalText property)])
      (.require request property) := by
  refine Takes.bind (a := (request, property)) (fun r => Expr.require r.1 r.2) (fun _ => rfl) ?_
  refine takes_record (.member rfl (by simp) ((takes_text request).map _) ?_)
  exact .member rfl (by simp) ((takes_optional property).map _) (.done (by simp [Json.RecordField.of]))

theorem Expr.takes {e : Expr} (ho : e.Ordered) (hn : ∀ n ∈ e.numbers, n.Fits) : Takes Expr.decode e.toJson e := by
  cases e with
  | literal v => exact takes_variant rfl ((takes_value ho hn).map Expr.literal)
  | require request property => exact takes_variant rfl (takes_require request property)

theorem Expr.bounded : Bounded Expr.decode fun e => e.toJson.depth := by
  intro depth ts e left h
  obtain ⟨name, p, hp, hread⟩ := variant_read h
  split at hp
  · cases hp
    obtain hplain | ⟨d, ts, left, rfl, hread⟩ := hread
    · cases hplain
    · obtain ⟨v, hv, rfl⟩ := Json.TokenReader.map_eq_ok.mp hread
      have hdepth := bounded_value hv
      simpa [toJson, Value.depth, Value.membersDepth] using hdepth
  · cases hp
    obtain hplain | ⟨d, ts, left, rfl, hread⟩ := hread
    · cases hplain
    · obtain ⟨⟨request, property⟩, mid, hrecord, hpure⟩ := Json.TokenReader.bind_eq_ok.mp hread
      cases hpure
      obtain ⟨hpos, -⟩ := record_read (motive := fun _ _ => True) (by simp) trivial hrecord
      cases property <;> simpa [toJson, Value.depth, Value.membersDepth] using hpos
  · cases hp

namespace Statement

theorem takes_exports (name : String) {value : Expr} (ho : value.Ordered) (hn : ∀ n ∈ value.numbers, n.Fits) :
    Takes decodeExport (.object [("name", .string name), ("value", value.toJson)]) (.exports name value) := by
  refine Takes.bind (a := (name, value)) (fun r => exports r.1 r.2) (fun _ => rfl) ?_
  refine takes_record (.member rfl (by simp) ((takes_text name).map _) ?_)
  exact .member rfl (by simp) ((Expr.takes ho hn).map _) (.done (by simp [Json.RecordField.of]))

theorem takes_assigns (name : Option String) {value : Expr} (ho : value.Ordered) (hn : ∀ n ∈ value.numbers, n.Fits) :
    Takes decodeAssign (.object [("name", Json.Decoder.optionalText name), ("value", value.toJson)])
      (.assigns name value) := by
  refine Takes.bind (a := (name, value)) (fun r => assigns r.1 r.2) (fun _ => rfl) ?_
  refine takes_record (.member rfl (by simp) ((takes_optional name).map _) ?_)
  exact .member rfl (by simp) ((Expr.takes ho hn).map _) (.done (by simp [Json.RecordField.of]))

theorem takes {s : Statement} (ho : s.Ordered) (hn : ∀ n ∈ s.numbers, n.Fits) : Takes decode s.toJson s := by
  cases s with
  | imports request => exact takes_variant rfl ((takes_text request).map imports)
  | exports name value => exact takes_variant rfl (takes_exports name ho hn)
  | assigns name value => exact takes_variant rfl (takes_assigns name ho hn)
  | evaluates value => exact takes_variant rfl ((Expr.takes ho hn).map evaluates)
  | throws message => exact takes_variant rfl ((takes_text message).map throws)

/-- The value of a record with a name and a value. -/
theorem value_of_record {α : Type} {read : Decoder α} {presence : Json.Presence} {start r : α × Expr}
    {ts left : List Json.Token}
    (h : Json.Decoder.record [.of "name" presence read fun r name => (name, r.2),
      .of "value" .required Expr.decode fun r value => (r.1, value)] start depth ts = .ok (r, left)) :
    r.2.toJson.depth + 1 ≤ depth := by
  have hrecord := record_read (motive := fun seen r => "value" ∈ seen → r.2.toJson.depth + 1 ≤ depth) ?_ (by simp) h
  · obtain ⟨-, seen, hvalue, hgiven⟩ := hrecord
    exact hvalue (hgiven _ (List.mem_cons_of_mem _ List.mem_cons_self) rfl)
  · intro field hfield d seen r r' ts left hd hr hread
    rcases List.mem_cons.mp hfield with rfl | hfield
    · obtain ⟨name, -, rfl⟩ := Json.TokenReader.map_eq_ok.mp hread
      intro hmem
      exact hr ((List.mem_cons.mp hmem).resolve_left (by simp [Json.RecordField.of]))
    · obtain rfl := List.mem_singleton.mp hfield
      obtain ⟨e, he, rfl⟩ := Json.TokenReader.map_eq_ok.mp hread
      have hdepth : e.toJson.depth ≤ d := Expr.bounded he
      intro _
      show e.toJson.depth + 1 ≤ depth
      omega

theorem bounded : Bounded decode fun s => s.toJson.depth := by
  intro depth ts s left h
  obtain ⟨name, p, hp, hread⟩ := variant_read h
  split at hp
  all_goals cases hp
  all_goals
    obtain hplain | ⟨d, ts, left, rfl, hread⟩ := hread
    · cases hplain
  · obtain ⟨request, -, rfl⟩ := Json.TokenReader.map_eq_ok.mp hread
    simp [toJson, Value.depth, Value.membersDepth]
  · obtain ⟨⟨name, value⟩, mid, hrecord, hpure⟩ := Json.TokenReader.bind_eq_ok.mp hread
    cases hpure
    have hdepth := value_of_record hrecord
    simpa [toJson, Value.depth, Value.membersDepth] using hdepth
  · obtain ⟨⟨name, value⟩, mid, hrecord, hpure⟩ := Json.TokenReader.bind_eq_ok.mp hread
    cases hpure
    have hdepth := value_of_record hrecord
    cases name <;> simpa [toJson, Value.depth, Value.membersDepth] using hdepth
  · obtain ⟨value, hvalue, rfl⟩ := Json.TokenReader.map_eq_ok.mp hread
    have hdepth := Expr.bounded hvalue
    simpa [toJson, Value.depth, Value.membersDepth] using hdepth
  · obtain ⟨message, -, rfl⟩ := Json.TokenReader.map_eq_ok.mp hread
    simp [toJson, Value.depth, Value.membersDepth]

end Statement

namespace Program

variable {p q : Program}

theorem takes (ho : p.Ordered) (hn : ∀ n ∈ p.numbers, n.Fits) : Takes decode p.toJson p := by
  refine takes_record (.member rfl (by simp) (.map _ (takes_list ?_ ?_)) (.done (by simp [Json.RecordField.of])))
  · rintro v hv
    obtain ⟨s, -, rfl⟩ := List.mem_map.mp hv
    cases s <;> exact ⟨_, rfl⟩
  · refine List.forall₂_map_left_iff.mpr (List.forall₂_same.mpr fun s hs => ?_)
    exact Statement.takes (ho s hs) fun n hm => hn n (List.mem_flatMap_of_mem hs hm)

theorem bounded : Bounded decode fun p => p.toJson.depth := by
  intro depth ts p left h
  have hrecord := record_read (motive := fun seen p => "statements" ∈ seen → p.toJson.depth ≤ depth) ?_ (by simp) h
  · obtain ⟨-, seen, hstatements, hgiven⟩ := hrecord
    exact hstatements (hgiven _ List.mem_cons_self rfl)
  · intro field hfield d seen q q' ts left hd _ hread _
    obtain rfl := List.mem_singleton.mp hfield
    obtain ⟨statements, hlist, rfl⟩ := Json.TokenReader.map_eq_ok.mp hread
    obtain ⟨d, rfl, hall⟩ := list_read hlist
    have hitems : Value.itemsDepth (statements.map Statement.toJson) ≤ d := by
      refine Value.itemsDepth_le_iff.mpr fun v hv => ?_
      obtain ⟨s, hs, rfl⟩ := List.mem_map.mp hv
      obtain ⟨ts, left, hread⟩ := hall s hs
      exact Statement.bounded hread
    show (Value.object [("statements", .array (statements.map Statement.toJson))]).depth ≤ depth
    rw [Value.depth, Value.membersDepth, Value.depth, Value.membersDepth]
    omega

/-- Whatever text a program is restored from, it nests no deeper than reading goes. -/
theorem depth_of_restore {text : String} (h : restore text = .ok p) : p.toJson.depth ≤ Json.maxDepth := by
  have hrun : (decode Json.maxDepth (Json.tokens text.toList) >>= Json.onlyValue) = .ok p := h
  cases hdecode : decode Json.maxDepth (Json.tokens text.toList) with
  | error f =>
    rw [hdecode] at hrun
    cases hrun
  | ok r =>
    obtain ⟨p', left⟩ := r
    rw [hdecode] at hrun
    cases left with
    | nil =>
      cases hrun
      exact bounded hdecode
    | cons token left => cases hrun

theorem restore_store (ho : p.Ordered) (hn : ∀ n ∈ p.numbers, n.Fits) (hd : p.toJson.depth ≤ Json.maxDepth) :
    restore p.store = .ok p := by
  have hdecode := (takes ho hn).run hd Json.endsNumber_nil
  rw [List.append_nil, Json.tokens_nil] at hdecode
  have hstore : p.store.toList = p.toJson.print := String.toList_ofList
  show (decode Json.maxDepth (Json.tokens p.store.toList) >>= Json.onlyValue) = .ok p
  rw [hstore, hdecode]
  rfl

/-- What is stored of a program is restored if and only if it nests no deeper than reading goes. -/
theorem restore_store_iff (ho : p.Ordered) (hn : ∀ n ∈ p.numbers, n.Fits) :
    restore p.store = .ok q ↔ q = p ∧ p.toJson.depth ≤ Json.maxDepth := by
  constructor
  · intro h
    obtain rfl := eq_of_restore ho hn (List.prefix_refl _) h
    exact ⟨rfl, depth_of_restore h⟩
  · rintro ⟨rfl, hd⟩
    exact restore_store ho hn hd

end Program
end Source
end ModGraph
