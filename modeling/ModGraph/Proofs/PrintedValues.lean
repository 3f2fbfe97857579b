import Mathlib.Data.String.Basic
import ModGraph.Json.Doc
import ModGraph.Proofs.PrintedTokens

/-!
# Printed values

A value that was read is in order: the members of its objects are sorted by name (`Json.Doc.ordered_value`). Such a
value is read back from what is printed for it (`Json.Reader.run_print`), and from a text that goes along with that
nothing else is read: either it covers the value, or reading fails.
-/

namespace ModGraph.Json

open Text (Along)

/-! ## Order -/

namespace Members

variable {α : Type} {name : String} {v : α} {ms : List (String × α)}

/-- Each name is less than those that follow it. -/
def Sorted (ms : List (String × α)) : Prop := ms.Pairwise fun a b => a.1 < b.1

theorem mem_insert {m : String × α} (h : m ∈ insert name v ms) : m = (name, v) ∨ m ∈ ms := by
  induction ms with
  | nil => exact .inl (List.mem_singleton.mp h)
  | cons k ms ih =>
    unfold insert at h
    split at h
    · rcases List.mem_cons.mp h with h | h
      · exact .inl h
      · exact .inr (List.mem_cons_of_mem _ h)
    split at h
    · rcases List.mem_cons.mp h with h | h
      · exact .inl h
      · exact .inr h
    · rcases List.mem_cons.mp h with rfl | h
      · exact .inr List.mem_cons_self
      · exact (ih h).imp_right (List.mem_cons_of_mem _)

theorem Sorted.insert (h : Sorted ms) : Sorted (insert name v ms) := by
  induction ms with
  | nil => exact List.pairwise_singleton _ _
  | cons m ms ih =>
    obtain ⟨hm, hms⟩ := List.pairwise_cons.mp h
    unfold Members.insert
    split
    · next heq => exact List.pairwise_cons.mpr ⟨heq ▸ hm, hms⟩
    split
    · next hlt =>
      refine List.pairwise_cons.mpr ⟨?_, h⟩
      rintro k hk
      rcases List.mem_cons.mp hk with rfl | hk
      · exact hlt
      · exact hlt.trans (hm k hk)
    · next hne hlt =>
      refine List.pairwise_cons.mpr ⟨?_, ih hms⟩
      rintro k hk
      rcases mem_insert hk with rfl | hk
      · exact lt_of_le_of_ne (not_lt.mp hlt) hne
      · exact hm k hk

theorem sorted_foldl (ms : List (String × α)) {done : List (String × α)} (h : Sorted done) :
    Sorted (ms.foldl (fun done m => Members.insert m.1 m.2 done) done) := by
  induction ms generalizing done with
  | nil => exact h
  | cons m ms ih => exact ih h.insert

theorem sorted_ofList (ms : List (String × α)) : Sorted (ofList ms) := sorted_foldl ms .nil

theorem mem_foldl {done : List (String × α)} {m : String × α}
    (h : m ∈ ms.foldl (fun done m => Members.insert m.1 m.2 done) done) : m ∈ done ∨ m ∈ ms := by
  induction ms generalizing done with
  | nil => exact .inl h
  | cons k ms ih =>
    rcases ih h with h | h
    · rcases mem_insert h with rfl | h
      · exact .inr List.mem_cons_self
      · exact .inl h
    · exact .inr (List.mem_cons_of_mem _ h)

theorem mem_ofList {m : String × α} (h : m ∈ ofList ms) : m ∈ ms :=
  (mem_foldl h).resolve_left List.not_mem_nil

theorem insert_of_forall_lt (h : ∀ m ∈ ms, m.1 < name) : insert name v ms = ms ++ [(name, v)] := by
  induction ms with
  | nil => rfl
  | cons m ms ih =>
    have hm := h m List.mem_cons_self
    rw [insert, if_neg hm.ne, if_neg hm.asymm, ih fun k hk => h k (List.mem_cons_of_mem _ hk)]
    rfl

/-- Members that are sorted already stay as they are. -/
theorem ofList_of_sorted (h : Sorted ms) : ofList ms = ms := by
  have hfold : ∀ (ms done : List (String × α)), Sorted (done ++ ms) →
      ms.foldl (fun done m => Members.insert m.1 m.2 done) done = done ++ ms := by
    intro ms
    induction ms with
    | nil => exact fun done _ => (List.append_nil done).symm
    | cons m ms ih =>
      intro done hs
      have hlt : ∀ k ∈ done, k.1 < m.1 := fun k hk =>
        (List.pairwise_append.mp hs).2.2 k hk m List.mem_cons_self
      rw [List.foldl_cons, insert_of_forall_lt hlt, ih _ (by rwa [List.append_assoc]), List.append_assoc]
      rfl
  exact hfold ms [] h

end Members

mutual

/-- Wherever there is an object in a value, its members are sorted. -/
def Value.Ordered : Value → Prop
  | .array items => Value.ItemsOrdered items
  | .object members => Members.Sorted members ∧ Value.MembersOrdered members
  | _ => True

/-- All elements of a list are in order. -/
def Value.ItemsOrdered : List Value → Prop
  | [] => True
  | v :: vs => v.Ordered ∧ Value.ItemsOrdered vs

/-- All members of an object are in order. -/
def Value.MembersOrdered : List (String × Value) → Prop
  | [] => True
  | (_, v) :: ms => v.Ordered ∧ Value.MembersOrdered ms

end

theorem Value.membersOrdered_iff {ms : List (String × Value)} : MembersOrdered ms ↔ ∀ m ∈ ms, m.2.Ordered := by
  induction ms with
  | nil => simp [MembersOrdered]
  | cons m ms ih => simp [MembersOrdered, ih]

mutual

/-- What is read is in order. -/
theorem Doc.ordered_value : (doc : Doc) → doc.value.Ordered
  | .null => trivial
  | .bool _ => trivial
  | .number _ => trivial
  | .string _ => trivial
  | .array items => Doc.ordered_values items
  | .object members => by
    refine ⟨Members.sorted_ofList _, Value.membersOrdered_iff.mpr fun m hm => ?_⟩
    exact Value.membersOrdered_iff.mp (Doc.ordered_memberValues members) m (Members.mem_ofList hm)

theorem Doc.ordered_values : (docs : List Doc) → Value.ItemsOrdered (Doc.values docs)
  | [] => trivial
  | doc :: docs => ⟨doc.ordered_value, Doc.ordered_values docs⟩

theorem Doc.ordered_memberValues : (members : List (String × Doc)) →
    Value.MembersOrdered (Doc.memberValues members)
  | [] => trivial
  | (_, doc) :: members => ⟨doc.ordered_value, Doc.ordered_memberValues members⟩

end

mutual

/-- The numbers in a value. -/
def Value.numbers : Value → List Number
  | .number n => [n]
  | .array items => Value.itemNumbers items
  | .object members => Value.memberNumbers members
  | _ => []

/-- The numbers in the elements of a list. -/
def Value.itemNumbers : List Value → List Number
  | [] => []
  | v :: vs => v.numbers ++ Value.itemNumbers vs

/-- The numbers in the members of an object. -/
def Value.memberNumbers : List (String × Value) → List Number
  | [] => []
  | (_, v) :: ms => v.numbers ++ Value.memberNumbers ms

end

/-! ## Reading one token after the other -/

theorem Token.name_bad (depth : Nat) (f g : Fault) (start : List Char) :
    ∃ e, Token.name (.wanted depth) ⟨.bad f g, start⟩ = .error e := by
  unfold Token.name
  dsimp only
  split <;> exact ⟨_, rfl⟩

namespace Reader

variable {reading : Reading} {r r' : Reader} {stack : List Frame} {next : Next} {depth : Nat} {token : Token}
  {rest left : List Token} {result : Doc × List Token} {t text : List Char} {l : Lexeme}

/-- The reader waits for a token. -/
def Waits (r : Reader) : Prop := ∀ doc, r ≠ ⟨[], .after doc⟩

theorem Waits.run_nil (h : r.Waits) (reading : Reading) : ∃ f, r.run reading [] = .error f := by
  unfold run
  split
  · next heq => exact absurd rfl (h _)
  · exact ⟨_, rfl⟩
  · next heq => cases heq

theorem Waits.run_cons (h : r.Waits) (token : Token) (rest : List Token) :
    r.run reading (token :: rest) = r.step reading token >>= fun r => r.run reading rest := by
  conv_lhs => unfold run
  split
  · next heq => exact absurd rfl (h _)
  · next heq => cases heq
  · next heq =>
    cases heq
    rfl

theorem run_done (doc : Doc) (rest : List Token) : run reading ⟨[], .after doc⟩ rest = .ok (doc, rest) := by
  cases rest <;> rfl

/-- A token that is spoilt is never taken. -/
theorem step_bad (depth : Nat) (hr : r.Waits) (f g : Fault) (start : List Char) :
    ∃ e, r.step (.wanted depth) ⟨.bad f g, start⟩ = .error e := by
  obtain ⟨e, he⟩ := Token.name_bad depth f g start
  obtain ⟨stack, next⟩ := r
  cases next with
  | value => exact ⟨_, rfl⟩
  | firstElement => exact ⟨_, rfl⟩
  | element => exact ⟨_, rfl⟩
  | firstMember => exact ⟨e, by simp [step, memberName, he, Except.map]⟩
  | member done => exact ⟨e, by simp [step, memberName, he, Except.map]⟩
  | colon done key => exact ⟨_, rfl⟩
  | after doc =>
    cases stack with
    | nil => exact absurd rfl (hr doc)
    | cons frame stack => cases frame <;> exact ⟨_, rfl⟩

/-- A reader that waits takes the next token of a text that goes along with what was printed. -/
theorem Waits.run_begins (hr : r.Waits) (hb : Begins t text l)
    (h : r.run (.wanted depth) (tokens t) = .ok result) :
    ∃ u start r', t = text ++ u ∧ r.step (.wanted depth) ⟨l, start⟩ = .ok r' ∧
      r'.run (.wanted depth) (tokens u) = .ok result := by
  cases hb with
  | ends ht =>
    obtain ⟨f, hf⟩ := hr.run_nil (.wanted depth)
    rw [ht, hf] at h
    cases h
  | spoilt f g start ht =>
    obtain ⟨e, he⟩ := step_bad depth hr f g start
    rw [ht, hr.run_cons, he] at h
    cases h
  | goesOn u start ht htokens =>
    rw [htokens, hr.run_cons] at h
    cases hstep : r.step (.wanted depth) ⟨l, start⟩ with
    | error e =>
      rw [hstep] at h
      cases h
    | ok r' =>
      rw [hstep] at h
      exact ⟨u, start, r', ht, hstep, h⟩

/-- A value may come next. -/
def Expects (next : Next) : Prop := next = .value ∨ next = .firstElement ∨ next = .element

theorem Expects.waits (h : Expects next) : Waits ⟨stack, next⟩ := by
  rintro doc ⟨⟩
  rcases h with h | h | h <;> cases h

/-- Where a value may come next, any token but the end of a list is where it starts. -/
theorem Expects.step (h : Expects next) (hl : token.lexeme ≠ .mark ']') :
    step reading ⟨stack, next⟩ token = value reading stack token := by
  rcases h with rfl | rfl | rfl
  · rfl
  · unfold Reader.step
    dsimp only
    split
    · next heq => exact absurd heq hl
    · rfl
  · unfold Reader.step
    dsimp only
    split
    · next heq => exact absurd heq hl
    · rfl

/-- Where a value may come next, one token that opens nothing is all of it or nothing. -/
theorem Expects.run_single (h : Expects next) (hl : ∀ c, token.lexeme ≠ .mark c)
    (hrun : run (.wanted depth) ⟨stack, next⟩ [token] = .ok result) : stack = [] ∧ result.2 = [] := by
  rw [h.waits.run_cons, h.step (hl ']')] at hrun
  have hvalue : ∀ r', value (.wanted depth) stack token = .ok r' → ∃ doc, r' = ⟨stack, .after doc⟩ := by
    intro r' hr'
    unfold value at hr'
    split at hr'
    · cases hr'; exact ⟨_, rfl⟩
    · cases hr'; exact ⟨_, rfl⟩
    · next n _ =>
      cases n with
      | ok n => cases hr'; exact ⟨_, rfl⟩
      | error f => cases hr'
    · next s _ =>
      cases s with
      | ok s => cases hr'; exact ⟨_, rfl⟩
      | error f => cases hr'
    · next heq => exact absurd heq (hl _)
    · next heq => exact absurd heq (hl _)
    · cases hr'
    · cases hr'
  cases hr' : value (.wanted depth) stack token with
  | error e =>
    rw [hr'] at hrun
    cases hrun
  | ok r' =>
    obtain ⟨doc, rfl⟩ := hvalue r' hr'
    rw [hr'] at hrun
    cases stack with
    | nil =>
      cases hrun
      exact ⟨rfl, rfl⟩
    | cons frame stack =>
      have hwaits : Waits ⟨frame :: stack, .after doc⟩ := by rintro _ ⟨⟩
      obtain ⟨f, hf⟩ := hwaits.run_nil (.wanted depth)
      exact absurd (hf.symm.trans hrun) nofun

/-- Where a value may come next, a token is the beginning of what it starts. -/
theorem Expects.run_value (h : Expects next) (hb : Begins t text l) (hl : l ≠ .mark ']')
    (hvalue : ∀ start r', value (.wanted depth) stack ⟨l, start⟩ = .ok r' → r' = r)
    (hrun : run (.wanted depth) ⟨stack, next⟩ (tokens t) = .ok result) :
    ∃ u, t = text ++ u ∧ r.run (.wanted depth) (tokens u) = .ok result := by
  obtain ⟨u, start, r', rfl, hstep, hrest⟩ := h.waits.run_begins hb hrun
  rw [h.step hl] at hstep
  obtain rfl := hvalue start r' hstep
  exact ⟨u, rfl, hrest⟩

theorem eq_of_descend (h : descend (.wanted depth) stack token r = .ok r') : r' = r := by
  unfold descend at h
  dsimp only at h
  split at h
  · cases h
  · exact (Except.ok.inj h).symm

/-- The name of a member may come next. -/
def ExpectsName (next : Next) (done : List (String × Doc)) : Prop :=
  next = .firstMember ∧ done = [] ∨ next = .member done

/-- Where a name may come next, the value of its member comes after it. -/
theorem ExpectsName.run_name {done : List (String × Doc)} {k : String} (h : ExpectsName next done)
    (ht : Along t (printString k ++ ':' :: text))
    (hrun : run (.wanted depth) ⟨stack, next⟩ (tokens t) = .ok result) :
    ∃ u, t = printString k ++ ':' :: u ∧ Along u text ∧
      run (.wanted depth) ⟨.object done k :: stack, .value⟩ (tokens u) = .ok result := by
  have hname : ∀ start, step (.wanted depth) ⟨stack, next⟩ ⟨.string (.ok k), start⟩ = .ok ⟨stack, .colon done k⟩ := by
    rcases h with ⟨rfl, rfl⟩ | rfl <;> exact fun _ => rfl
  have hwaits : Waits ⟨stack, next⟩ := by
    rcases h with ⟨rfl, -⟩ | rfl <;> rintro _ ⟨⟩
  obtain ⟨u, start, r', rfl, hstep, hrest⟩ := hwaits.run_begins (begins_string k ht.left) hrun
  rw [hname start] at hstep
  cases hstep
  have hu : Along u (':' :: text) := ht.right
  have hcolon : Waits ⟨stack, .colon done k⟩ := by rintro _ ⟨⟩
  obtain ⟨w, start', r', rfl, hstep, hrest⟩ := hcolon.run_begins (begins_mark (c := ':') (by simp) hu.left) hrest
  cases hstep
  exact ⟨w, rfl, hu.right, hrest⟩

theorem printItems_stop (vs : List Value) : ∃ c rest, Value.printItems vs = c :: rest ∧ c ∈ [',', ']', '}'] := by
  cases vs with
  | nil => exact ⟨']', [], rfl, by simp⟩
  | cons v vs => exact ⟨',', _, rfl, by simp⟩

theorem printMembers_stop (ms : List (String × Value)) :
    ∃ c rest, Value.printMembers ms = c :: rest ∧ c ∈ [',', ']', '}'] := by
  cases ms with
  | nil => exact ⟨'}', [], rfl, by simp⟩
  | cons m ms => exact ⟨',', _, rfl, by simp⟩

mutual

/-- A value is read back from what is printed for it. Where the text ends in a number, and nothing is open, that number
may be another one. -/
theorem run_print {depth : Nat} {result : Doc × List Token} (v : Value) (hv : v.Ordered)
    (hn : ∀ n ∈ v.numbers, n.Fits) {stop : Char} {stack : List Frame} {next : Next} {t : List Char}
    (hnext : Expects next) (hstop : stop ∈ [',', ']', '}']) (h : Along t (v.print ++ [stop]))
    (hrun : run (.wanted depth) ⟨stack, next⟩ (tokens t) = .ok result) :
    stack = [] ∧ result.2 = [] ∨ ∃ u doc, t = v.print ++ u ∧ doc.value = v ∧
      run (.wanted depth) ⟨stack, .after doc⟩ (tokens u) = .ok result := by
  cases v with
  | null =>
    have hb : Begins t ['n', 'u', 'l', 'l'] .null := begins_word _ rfl (fun _ => rfl) h.left
    obtain ⟨u, rfl, hrest⟩ := hnext.run_value hb nofun (fun _ _ h => (Except.ok.inj h).symm) hrun
    exact .inr ⟨u, .null, rfl, rfl, hrest⟩
  | bool b =>
    have hb : Begins t (Value.bool b).print (.bool b) := by
      cases b with
      | true => exact begins_word _ rfl (fun _ => rfl) h.left
      | false => exact begins_word _ rfl (fun _ => rfl) h.left
    obtain ⟨u, rfl, hrest⟩ := hnext.run_value hb nofun (fun _ _ h => (Except.ok.inj h).symm) hrun
    exact .inr ⟨u, .bool b, rfl, rfl, hrest⟩
  | number n =>
    obtain hb | ⟨token, hone, hmark⟩ := tokens_number (hn n (by simp [Value.numbers])) hstop h
    · obtain ⟨u, rfl, hrest⟩ := hnext.run_value hb nofun (fun _ _ h => (Except.ok.inj h).symm) hrun
      exact .inr ⟨u, .number n, rfl, rfl, hrest⟩
    · rw [hone] at hrun
      exact .inl (hnext.run_single hmark hrun)
  | string s =>
    obtain ⟨u, rfl, hrest⟩ :=
      hnext.run_value (begins_string s h.left) nofun (fun _ _ h => (Except.ok.inj h).symm) hrun
    exact .inr ⟨u, .string s, rfl, rfl, hrest⟩
  | array items =>
    have hopens : ∀ start r', value (.wanted depth) stack ⟨.mark '[', start⟩ = .ok r' →
        r' = ⟨.array [] :: stack, .firstElement⟩ := fun _ _ => eq_of_descend
    cases items with
    | nil =>
      have hopen : Along t ('[' :: [']', stop]) := h
      obtain ⟨u, rfl, hrest⟩ := hnext.run_value (begins_mark (by simp) hopen.left) (by simp) hopens hrun
      have hclose : Along u [']', stop] := hopen.right
      have hwaits : Waits ⟨.array [] :: stack, .firstElement⟩ := by rintro _ ⟨⟩
      obtain ⟨w, start, r', rfl, hstep, hrest⟩ :=
        hwaits.run_begins (begins_mark (by simp) hclose.left) hrest
      cases hstep
      exact .inr ⟨w, .array [], rfl, rfl, hrest⟩
    | cons v vs =>
      obtain ⟨c, rest, hc, hmem⟩ := printItems_stop vs
      have hopen : Along t (['['] ++ (v.print ++ Value.printItems vs)) := h.left
      obtain ⟨u, rfl, hrest⟩ := hnext.run_value (begins_mark (by simp) hopen.left) (by simp) hopens hrun
      have hfirst : Along u (v.print ++ [c]) := (hc ▸ hopen.right).stop
      obtain ⟨hne, -⟩ | ⟨w, doc, rfl, hdoc, hrest⟩ := run_print v hv.1 (fun n hm => hn n (List.mem_append_left _ hm))
        (.inr (.inl rfl)) hmem hfirst hrest
      · cases hne
      obtain ⟨x, docs, rfl, hdocs, hrest⟩ := run_printItems vs hv.2 (fun n hm => hn n (List.mem_append_right _ hm))
        hopen.right.right hrest
      refine .inr ⟨x, .array (doc :: docs), by simp [Value.print], ?_, hrest⟩
      simp [Doc.value, Doc.values, hdoc, hdocs]
  | object members =>
    have hopens : ∀ start r', value (.wanted depth) stack ⟨.mark '{', start⟩ = .ok r' →
        r' = ⟨stack, .firstMember⟩ := fun _ _ => eq_of_descend
    obtain ⟨hsorted, hmembers⟩ := hv
    cases members with
    | nil =>
      have hopen : Along t ('{' :: ['}', stop]) := h
      obtain ⟨u, rfl, hrest⟩ := hnext.run_value (begins_mark (by simp) hopen.left) (by simp) hopens hrun
      have hclose : Along u ['}', stop] := hopen.right
      have hwaits : Waits ⟨stack, .firstMember⟩ := by rintro _ ⟨⟩
      obtain ⟨w, start, r', rfl, hstep, hrest⟩ :=
        hwaits.run_begins (begins_mark (by simp) hclose.left) hrest
      cases hstep
      exact .inr ⟨w, .object [], rfl, rfl, hrest⟩
    | cons m ms =>
      obtain ⟨k, v⟩ := m
      obtain ⟨c, rest, hc, hmem⟩ := printMembers_stop ms
      have hopen : Along t (['{'] ++ (printString k ++ ':' :: (v.print ++ Value.printMembers ms))) := h.left
      obtain ⟨u, rfl, hrest⟩ := hnext.run_value (begins_mark (by simp) hopen.left) (by simp) hopens hrun
      have hname : ExpectsName .firstMember [] := .inl ⟨rfl, rfl⟩
      obtain ⟨w, rfl, hw, hrest⟩ := hname.run_name hopen.right hrest
      have hfirst : Along w (v.print ++ [c]) := (hc ▸ hw).stop
      obtain ⟨hne, -⟩ | ⟨x, doc, rfl, hdoc, hrest⟩ := run_print v hmembers.1
        (fun n hm => hn n (List.mem_append_left _ hm)) (.inl rfl) hmem hfirst hrest
      · cases hne
      obtain ⟨y, docs, rfl, hdocs, hrest⟩ := run_printMembers ms hmembers.2
        (fun n hm => hn n (List.mem_append_right _ hm)) hw.right hrest
      refine .inr ⟨y, .object ((k, doc) :: docs), by simp [Value.print], ?_, hrest⟩
      simp only [Doc.value, Doc.memberValues, hdoc, hdocs]
      rw [Members.ofList_of_sorted hsorted]

/-- So are the elements of a list behind the first, with the end of the list. -/
theorem run_printItems {depth : Nat} {result : Doc × List Token} (vs : List Value) (hvs : Value.ItemsOrdered vs)
    (hn : ∀ n ∈ Value.itemNumbers vs, n.Fits) {doc : Doc} {done : List Doc} {stack : List Frame} {t : List Char}
    (h : Along t (Value.printItems vs))
    (hrun : run (.wanted depth) ⟨.array done :: stack, .after doc⟩ (tokens t) = .ok result) :
    ∃ u docs, t = Value.printItems vs ++ u ∧ Doc.values docs = vs ∧
      run (.wanted depth) ⟨stack, .after (.array ((doc :: done).reverse ++ docs))⟩ (tokens u) = .ok result := by
  have hwaits : Waits ⟨.array done :: stack, .after doc⟩ := by rintro _ ⟨⟩
  cases vs with
  | nil =>
    obtain ⟨u, start, r', rfl, hstep, hrest⟩ := hwaits.run_begins (begins_mark (by simp) h) hrun
    cases hstep
    exact ⟨u, [], rfl, rfl, by rwa [List.append_nil]⟩
  | cons v vs =>
    obtain ⟨c, rest, hc, hmem⟩ := printItems_stop vs
    have hcomma : Along t ([','] ++ (v.print ++ Value.printItems vs)) := h
    obtain ⟨u, start, r', rfl, hstep, hrest⟩ := hwaits.run_begins (begins_mark (by simp) hcomma.left) hrun
    cases hstep
    have hnext : Along u (v.print ++ [c]) := (hc ▸ hcomma.right).stop
    obtain ⟨hne, -⟩ | ⟨w, doc', rfl, hdoc, hrest⟩ := run_print v hvs.1 (fun n hm => hn n (List.mem_append_left _ hm))
      (.inr (.inr rfl)) hmem hnext hrest
    · cases hne
    obtain ⟨x, docs, rfl, hdocs, hrest⟩ := run_printItems vs hvs.2 (fun n hm => hn n (List.mem_append_right _ hm))
      hcomma.right.right hrest
    refine ⟨x, doc' :: docs, by simp [Value.printItems], by simp [Doc.values, hdoc, hdocs], ?_⟩
    rwa [List.reverse_cons, List.append_assoc] at hrest

/-- So are the members of an object behind the first, with the end of the object. -/
theorem run_printMembers {depth : Nat} {result : Doc × List Token} (ms : List (String × Value))
    (hms : Value.MembersOrdered ms) (hn : ∀ n ∈ Value.memberNumbers ms, n.Fits) {doc : Doc} {key : String}
    {done : List (String × Doc)} {stack : List Frame} {t : List Char} (h : Along t (Value.printMembers ms))
    (hrun : run (.wanted depth) ⟨.object done key :: stack, .after doc⟩ (tokens t) = .ok result) :
    ∃ u docs, t = Value.printMembers ms ++ u ∧ Doc.memberValues docs = ms ∧
      run (.wanted depth) ⟨stack, .after (.object (((key, doc) :: done).reverse ++ docs))⟩ (tokens u) = .ok result := by
  have hwaits : Waits ⟨.object done key :: stack, .after doc⟩ := by rintro _ ⟨⟩
  cases ms with
  | nil =>
    obtain ⟨u, start, r', rfl, hstep, hrest⟩ := hwaits.run_begins (begins_mark (by simp) h) hrun
    cases hstep
    exact ⟨u, [], rfl, rfl, by rwa [List.append_nil]⟩
  | cons m ms =>
    obtain ⟨k, v⟩ := m
    obtain ⟨c, rest, hc, hmem⟩ := printMembers_stop ms
    have hcomma : Along t ([','] ++ (printString k ++ ':' :: (v.print ++ Value.printMembers ms))) := h
    obtain ⟨u, start, r', rfl, hstep, hrest⟩ := hwaits.run_begins (begins_mark (by simp) hcomma.left) hrun
    cases hstep
    have hname : ExpectsName (.member ((key, doc) :: done)) ((key, doc) :: done) := .inr rfl
    obtain ⟨w, rfl, hw, hrest⟩ := hname.run_name hcomma.right hrest
    have hnext : Along w (v.print ++ [c]) := (hc ▸ hw).stop
    obtain ⟨hne, -⟩ | ⟨x, doc', rfl, hdoc, hrest⟩ := run_print v hms.1
      (fun n hm => hn n (List.mem_append_left _ hm)) (.inl rfl) hmem hnext hrest
    · cases hne
    obtain ⟨y, docs, rfl, hdocs, hrest⟩ := run_printMembers ms hms.2
      (fun n hm => hn n (List.mem_append_right _ hm)) hw.right hrest
    refine ⟨y, (k, doc') :: docs, by simp [Value.printMembers], by simp [Doc.memberValues, hdoc, hdocs], ?_⟩
    rwa [List.reverse_cons, List.append_assoc] at hrest

end

end Reader

end ModGraph.Json
