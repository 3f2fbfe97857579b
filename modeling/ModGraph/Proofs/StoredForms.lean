import Mathlib.Data.List.Forall2
import ModGraph.Proofs.PrintedValues
import ModGraph.Source.Scan
import ModGraph.Source.Stored

/-!
# Stored programs

A program that was scanned is restored from what is stored of it, and from the first characters of that
either the same program is restored or none (`Program.eq_of_restore`). Each decoder is looked at on its own:
if it succeeds on a text that agrees with what is printed of a value as far as both go, it gives that value
and has read all of it (`Restores`). The values to come back are in order: no name stands twice in an object
and the names are sorted, as they are in everything that was read (`Program.ordered_of_scan`).
-/

namespace ModGraph

open Text (Along)

namespace Json

variable {α β : Type} {a a' : α} {t u cs : List Char} {l : Lexeme} {left : List Token} {depth : Nat} {v : Value}

/-! ## Reading one thing after the other -/

namespace TokenReader

variable {x : TokenReader α} {ts : List Token}

theorem bind_eq_ok {f : α → TokenReader β} {b : β} :
    (x >>= f) ts = .ok (b, left) ↔ ∃ a mid, x ts = .ok (a, mid) ∧ f a mid = .ok (b, left) := by
  show (x ts >>= fun r => f r.1 r.2) = _ ↔ _
  cases x ts with
  | error e => simp [bind, Except.bind]
  | ok r =>
    obtain ⟨a, mid⟩ := r
    simp [bind, Except.bind]

theorem map_eq_ok {f : α → β} {b : β} : (f <$> x) ts = .ok (b, left) ↔ ∃ a, x ts = .ok (a, left) ∧ f a = b := by
  rw [map_eq_pure_bind, bind_eq_ok]
  constructor
  · rintro ⟨a, mid, ha, hb⟩
    cases hb
    exact ⟨a, ha, rfl⟩
  · rintro ⟨a, ha, rfl⟩
    exact ⟨a, left, ha, rfl⟩

theorem seqLeft_eq_ok {y : TokenReader β} :
    (x <* y) ts = .ok (a, left) ↔ ∃ mid b, x ts = .ok (a, mid) ∧ y mid = .ok (b, left) := by
  rw [seqLeft_eq_bind, bind_eq_ok]
  constructor
  · rintro ⟨a', mid, ha, hb⟩
    obtain ⟨b, mid', hb, hpure⟩ := bind_eq_ok.mp hb
    cases hpure
    exact ⟨mid, b, ha, hb⟩
  · rintro ⟨mid, b, ha, hb⟩
    exact ⟨a, mid, ha, bind_eq_ok.mpr ⟨b, left, hb, rfl⟩⟩

end TokenReader

namespace Decoder

/-- Of texts that go along with a printed value, a reader takes those that cover it, for something. -/
def Restores (r : TokenReader α) (v : Value) (a : α) : Prop :=
  ∀ t a' left, Along t v.print → r (tokens t) = .ok (a', left) → a' = a ∧ ∃ u, t = v.print ++ u ∧ left = tokens u

/-- The same where the value is followed by something else; if nothing is left of the text, then the value may have been
cut short. -/
def RestoresBefore (r : TokenReader α) (v : Value) (a : α) : Prop :=
  ∀ t stop a' left, stop ∈ [',', ']', '}'] → Along t (v.print ++ [stop]) → r (tokens t) = .ok (a', left) →
    left = [] ∨ a' = a ∧ ∃ u, t = v.print ++ u ∧ left = tokens u

variable {r : TokenReader α}

theorem Restores.before (h : Restores r v a) : RestoresBefore r v a :=
  fun t _ a' left _ ht hr => .inr (h t a' left ht.left hr)

theorem Restores.map (f : α → β) (h : Restores r v a) : Restores (f <$> r) v (f a) := by
  intro t b left ht hb
  obtain ⟨a', ha, rfl⟩ := TokenReader.map_eq_ok.mp hb
  obtain ⟨rfl, hu⟩ := h t a' left ht ha
  exact ⟨rfl, hu⟩

theorem Restores.bind {f : α → TokenReader β} (g : α → β) (hf : ∀ a, f a = pure (g a)) (h : Restores r v a) :
    Restores (r >>= f) v (g a) := by
  intro t b left ht hb
  obtain ⟨a', mid, ha, hb⟩ := TokenReader.bind_eq_ok.mp hb
  rw [hf] at hb
  cases hb
  obtain ⟨rfl, hu⟩ := h t a' left ht ha
  exact ⟨rfl, hu⟩

theorem RestoresBefore.map (f : α → β) (h : RestoresBefore r v a) : RestoresBefore (f <$> r) v (f a) := by
  intro t stop b left hstop ht hb
  obtain ⟨a', ha, rfl⟩ := TokenReader.map_eq_ok.mp hb
  obtain hnil | ⟨rfl, hu⟩ := h t stop a' left hstop ht ha
  · exact .inl hnil
  · exact .inr ⟨rfl, hu⟩

/-! ## Texts and values -/

theorem restores_text (s : String) : Restores (text depth) (.string s) s := by
  intro t a' left ht hr
  obtain hend | ⟨f, g, start, hbad⟩ | ⟨u, start, rfl, htokens⟩ := begins_string s ht
  · rw [hend] at hr
    cases hr
  · rw [hbad] at hr
    cases hr
  · rw [htokens] at hr
    cases hr
    exact ⟨rfl, u, rfl, rfl⟩

/-- The value of something that may be missing. -/
def optionalText (s? : Option String) : Value := (s?.map Value.string).getD .null

theorem restores_optional (s? : Option String) : Restores (optional text depth) (optionalText s?) s? := by
  cases s? with
  | none =>
    intro t a' left ht hr
    obtain hend | ⟨f, g, start, hbad⟩ | ⟨u, start, rfl, htokens⟩ :=
      begins_word (l := .null) ['u', 'l', 'l'] rfl (fun _ => rfl) ht
    · rw [hend] at hr
      cases hr
    · rw [hbad] at hr
      cases hr
    · rw [htokens] at hr
      cases hr
      exact ⟨rfl, u, rfl, rfl⟩
  | some s =>
    intro t a' left ht hr
    obtain hend | ⟨f, g, start, hbad⟩ | ⟨u, start, rfl, htokens⟩ := begins_string s ht
    · rw [hend] at hr
      cases hr
    · rw [hbad] at hr
      cases hr
    · rw [htokens] at hr
      cases hr
      exact ⟨rfl, u, rfl, rfl⟩

theorem restoresBefore_value (hv : v.Ordered) (hn : ∀ n ∈ v.numbers, n.Fits) :
    RestoresBefore (value depth) v v := by
  intro t stop a' left hstop ht hr
  obtain ⟨doc, hdoc, rfl⟩ := TokenReader.map_eq_ok.mp hr
  obtain ⟨-, hnil⟩ | ⟨u, doc', rfl, rfl, hrun⟩ := Reader.run_print v hv hn (.inl rfl) hstop ht hdoc
  · exact .inl hnil
  · rw [Reader.run_done] at hrun
    cases hrun
    exact .inr ⟨rfl, u, rfl, rfl⟩

/-! ## Lists -/

theorem elements_eq_ok {item : TokenReader α} {limit : Nat} {isFirst : Bool} {ts mid : List Token} {as : List α}
    (h : elements item limit isFirst ts = .ok (as, mid)) :
    nextElement isFirst ts = .ok (false, mid) ∧ as = [] ∨
      ∃ k ts₁ a ts₂ as', nextElement isFirst ts = .ok (true, ts₁) ∧ item ts₁ = .ok (a, ts₂) ∧
        elements item k false ts₂ = .ok (as', mid) ∧ as = a :: as' := by
  cases limit with
  | zero => cases h
  | succ k =>
    obtain ⟨goesOn, ts₁, hnext, h⟩ := TokenReader.bind_eq_ok.mp h
    cases goesOn with
    | false =>
      cases h
      exact .inl ⟨hnext, rfl⟩
    | true =>
      obtain ⟨a, ts₂, ha, h⟩ := TokenReader.bind_eq_ok.mp h
      obtain ⟨as', ts₃, has, h⟩ := TokenReader.bind_eq_ok.mp h
      cases h
      exact .inr ⟨k, ts₁, a, ts₂, as', hnext, ha, has, rfl⟩

theorem nextElement_close {isFirst goesOn : Bool} {mid : List Token} (ht : Along t [']'])
    (h : nextElement isFirst (tokens t) = .ok (goesOn, mid)) :
    goesOn = false ∧ ∃ u start, t = ']' :: u ∧ mid = ⟨.mark ']', start⟩ :: tokens u := by
  obtain hend | ⟨u, start, rfl, -, htokens⟩ := tokens_mark (by simp) ht
  · rw [hend] at h
    cases h
  · rw [htokens] at h
    cases h
    exact ⟨rfl, u, start, rfl, rfl⟩

theorem nextElement_comma {goesOn : Bool} {mid : List Token} (ht : Along t (',' :: cs))
    (h : nextElement false (tokens t) = .ok (goesOn, mid)) :
    goesOn = true ∧ ∃ u, t = ',' :: u ∧ Along u cs ∧ mid = tokens u := by
  have hnext : ∀ start rest, nextElement false (⟨.mark ',', start⟩ :: rest) = .ok (goesOn, mid) →
      goesOn = true ∧ mid = rest := by
    intro start rest h
    unfold nextElement at h
    dsimp only at h
    split at h
    · next heq => simp at heq
    rw [if_neg Bool.false_ne_true] at h
    split at h
    · cases h
    · cases h
    · cases h
      exact ⟨rfl, rfl⟩
    · cases h
  obtain hend | ⟨u, start, rfl, hu, htokens⟩ := tokens_mark (by simp) ht
  · rw [hend] at h
    cases h
  · rw [htokens] at h
    obtain ⟨rfl, rfl⟩ := hnext start _ h
    exact ⟨rfl, u, rfl, hu, rfl⟩

/-- The elements of a list behind the first, and the end of the list. -/
theorem elements_printItems {item : TokenReader α} {vs : List Value} {as as' : List α}
    (hitems : List.Forall₂ (RestoresBefore item) vs as) {limit : Nat} {mid : List Token} {x : Unit}
    (ht : Along t (Value.printItems vs)) (hr : elements item limit false (tokens t) = .ok (as', mid))
    (hend : endList mid = .ok (x, left)) : as' = as ∧ ∃ u, t = Value.printItems vs ++ u ∧ left = tokens u := by
  induction hitems generalizing limit t as' with
  | nil =>
    obtain ⟨hnext, rfl⟩ | ⟨k, ts₁, a, ts₂, as', hnext, -⟩ := elements_eq_ok hr
    · obtain ⟨-, u, start, rfl, rfl⟩ := nextElement_close ht hnext
      cases hend
      exact ⟨rfl, u, rfl, rfl⟩
    · cases (nextElement_close ht hnext).1
  | @cons v a vs as hv hvs ih =>
    obtain ⟨c, rest, hc, hmem⟩ := Reader.printItems_stop vs
    obtain ⟨hnext, -⟩ | ⟨k, ts₁, a', ts₂, as', hnext, ha, has, rfl⟩ := elements_eq_ok hr
    · cases (nextElement_comma ht hnext).1
    · obtain ⟨-, u, rfl, hu, rfl⟩ := nextElement_comma ht hnext
      obtain rfl | ⟨rfl, w, rfl, rfl⟩ := hv u c a' ts₂ hmem (hc ▸ hu).stop ha
      · obtain ⟨h, -⟩ | ⟨_, _, _, _, _, h, -⟩ := elements_eq_ok has <;> cases h
      · obtain ⟨rfl, x, rfl, rfl⟩ := ih hu.right has
        exact ⟨rfl, x, by simp [Value.printItems], rfl⟩

/-- A list of objects is restored from what is printed for it, if its elements are. -/
theorem restores_list {item : Decoder α} {vs : List Value} {as : List α} (hobjects : ∀ v ∈ vs, ∃ ms, v = .object ms)
    (hitems : ∀ depth, List.Forall₂ (RestoresBefore (item depth)) vs as) :
    Restores (list item depth) (.array vs) as := by
  intro t as' left ht hr
  have hlist : ∀ start rest, list item depth (⟨.mark '[', start⟩ :: rest) = .ok (as', left) →
      ∃ depth limit mid x, elements (item depth) limit true rest = .ok (as', mid) ∧ endList mid = .ok (x, left) := by
    intro start rest h
    cases depth with
    | zero => cases h
    | succ depth =>
      obtain ⟨mid, x, has, hend⟩ := TokenReader.seqLeft_eq_ok.mp h
      exact ⟨depth, _, mid, x, has, hend⟩
  have hopen : ∀ cs, Along t ('[' :: cs) → ∃ u depth limit mid x, t = '[' :: u ∧ Along u cs ∧
      elements (item depth) limit true (tokens u) = .ok (as', mid) ∧ endList mid = .ok (x, left) := by
    intro cs ht
    obtain hend | ⟨u, start, rfl, hu, htokens⟩ := tokens_mark (by simp) ht
    · rw [hend] at hr
      cases hr
    · rw [htokens] at hr
      obtain ⟨depth, limit, mid, x, has, hend⟩ := hlist start _ hr
      exact ⟨u, depth, limit, mid, x, rfl, hu, has, hend⟩
  cases vs with
  | nil =>
    obtain ⟨u, depth, limit, mid, x, rfl, hu, has, hend⟩ := hopen [']'] ht
    have hall := hitems depth
    cases hall with | nil => ?_
    obtain ⟨hnext, rfl⟩ | ⟨k, ts₁, a, ts₂, as', hnext, -⟩ := elements_eq_ok has
    · obtain ⟨-, w, start, rfl, rfl⟩ := nextElement_close hu hnext
      cases hend
      exact ⟨rfl, w, rfl, rfl⟩
    · cases (nextElement_close hu hnext).1
  | cons v vs =>
    obtain ⟨ms, hms⟩ := hobjects v List.mem_cons_self
    obtain ⟨cs, hcs⟩ : ∃ cs, v.print = '{' :: cs := by
      rw [hms]
      cases ms with
      | nil => exact ⟨_, rfl⟩
      | cons m ms => exact ⟨_, rfl⟩
    obtain ⟨c, rest, hc, hmem⟩ := Reader.printItems_stop vs
    obtain ⟨u, depth, limit, mid, x, rfl, hu, has, hend⟩ := hopen (v.print ++ Value.printItems vs) ht
    have hall := hitems depth
    cases hall with | @cons _ a _ as hv hvs => ?_
    have hfirst : ∀ {goesOn mid}, nextElement true (tokens u) = .ok (goesOn, mid) → goesOn = true ∧ mid = tokens u := by
      intro goesOn mid h
      rw [hcs] at hu
      obtain hend | ⟨w, start, rfl, -, htokens⟩ := tokens_mark (by simp) hu
      · rw [hend] at h
        cases h
      · rw [htokens] at h ⊢
        cases h
        exact ⟨rfl, rfl⟩
    obtain ⟨hnext, -⟩ | ⟨k, ts₁, a', ts₂, as', hnext, ha, has, rfl⟩ := elements_eq_ok has
    · cases (hfirst hnext).1
    · obtain ⟨-, rfl⟩ := hfirst hnext
      obtain rfl | ⟨rfl, w, rfl, rfl⟩ := hv u c a' ts₂ hmem (hc ▸ hu).stop ha
      · obtain ⟨h, -⟩ | ⟨_, _, _, _, _, h, -⟩ := elements_eq_ok has <;> cases h
      · obtain ⟨rfl, y, rfl, rfl⟩ := elements_printItems hvs hu.right has hend
        exact ⟨rfl, y, by simp [Value.print], rfl⟩

/-! ## Records -/

theorem name_eq_ok {k k' : String} {mid : List Token} (ht : Along t (printString k ++ cs))
    (h : name (tokens t) = .ok (k', mid)) : k' = k ∧ ∃ u, t = printString k ++ u ∧ Along u cs ∧ mid = tokens u := by
  obtain hend | ⟨f, g, start, hbad⟩ | ⟨u, start, rfl, htokens⟩ := begins_string k ht.left
  · rw [hend] at h
    cases h
  · rw [hbad] at h
    obtain ⟨e, he⟩ := Token.name_bad 0 f g start
    have hname : name [⟨.bad f g, start⟩] = .error e := by
      unfold name
      dsimp only
      rw [he]
      rfl
    rw [hname] at h
    cases h
  · rw [htokens] at h
    cases h
    exact ⟨rfl, u, rfl, ht.right, rfl⟩

theorem colon_eq_ok {x : Unit} {mid : List Token} (ht : Along t (':' :: cs)) (h : colon (tokens t) = .ok (x, mid)) :
    ∃ u, t = ':' :: u ∧ Along u cs ∧ mid = tokens u := by
  obtain hend | ⟨u, start, rfl, hu, htokens⟩ := tokens_mark (by simp) ht
  · rw [hend] at h
    cases h
  · rw [htokens] at h
    cases h
    exact ⟨u, rfl, hu, rfl⟩

theorem nextName_close {isFirst : Bool} {name? : Option String} {mid : List Token} (ht : Along t ['}'])
    (h : nextName isFirst (tokens t) = .ok (name?, mid)) : name? = none ∧ ∃ u, t = '}' :: u ∧ mid = tokens u := by
  obtain hend | ⟨u, start, rfl, -, htokens⟩ := tokens_mark (by simp) ht
  · rw [hend] at h
    cases h
  · rw [htokens] at h
    cases h
    exact ⟨rfl, u, rfl, rfl⟩

theorem nextName_first {k : String} {name? : Option String} {mid : List Token} (ht : Along t (printString k ++ cs))
    (h : nextName true (tokens t) = .ok (name?, mid)) :
    name? = some k ∧ ∃ u, t = printString k ++ u ∧ Along u cs ∧ mid = tokens u := by
  have hname : (some <$> name) (tokens t) = .ok (name?, mid) := by
    obtain hend | ⟨f, g, start, hbad⟩ | ⟨u, start, rfl, htokens⟩ := begins_string k ht.left
    · rw [hend] at h
      cases h
    · rw [hbad] at h ⊢
      exact h
    · rw [htokens] at h ⊢
      exact h
  obtain ⟨k', hk, rfl⟩ := TokenReader.map_eq_ok.mp hname
  obtain ⟨rfl, hu⟩ := name_eq_ok ht hk
  exact ⟨rfl, hu⟩

theorem nextName_comma {k : String} {name? : Option String} {mid : List Token}
    (ht : Along t (',' :: (printString k ++ cs))) (h : nextName false (tokens t) = .ok (name?, mid)) :
    name? = some k ∧ ∃ u, t = ',' :: (printString k ++ u) ∧ Along u cs ∧ mid = tokens u := by
  have hnext : ∀ start rest, nextName false (⟨.mark ',', start⟩ :: rest) = .ok (name?, mid) →
      (some <$> name) rest = .ok (name?, mid) := by
    intro start rest h
    unfold nextName at h
    dsimp only at h
    split at h
    · next heq => simp at heq
    rw [if_neg Bool.false_ne_true] at h
    split at h
    · cases h
    · cases h
    · exact h
    · cases h
  obtain hend | ⟨u, start, rfl, hu, htokens⟩ := tokens_mark (by simp) ht
  · rw [hend] at h
    cases h
  · rw [htokens] at h
    obtain ⟨k', hk, rfl⟩ := TokenReader.map_eq_ok.mp (hnext start _ h)
    obtain ⟨rfl, w, rfl, hw, rfl⟩ := name_eq_ok hu hk
    exact ⟨rfl, w, rfl, hw, rfl⟩

/-- A record is filled from the members of an object, in their order: each of them is a field that was not given yet. -/
inductive Fills (fields : List (RecordField α)) (depth : Nat) : List String → α → List (String × Value) → α → Prop
  | done {seen : List String} {a : α} : Fills fields depth seen a [] a
  | member {seen : List String} {a a₁ a₂ : α} {k : String} {v : Value} {ms : List (String × Value)}
      {field : RecordField α} (hfield : fields.find? (fun field => field.name == k) = some field)
      (hread : RestoresBefore (field.read a depth) v a₁) (hrest : Fills fields depth (k :: seen) a₁ ms a₂) :
      Fills fields depth seen a ((k, v) :: ms) a₂

theorem recordMembers_eq_ok {fields : List (RecordField α)} {limit : Nat} {isFirst : Bool} {seen : List String}
    {ts : List Token} (h : recordMembers fields depth limit isFirst seen a ts = .ok (a', left)) :
    ∃ k name? mid, limit = k + 1 ∧ nextName isFirst ts = .ok (name?, mid) ∧
      (name? = none → a' = a ∧ left = mid) ∧
      ∀ name field, name? = some name → fields.find? (fun field => field.name == name) = some field →
        ∃ x ts₁ a₁ ts₂, colon mid = .ok (x, ts₁) ∧ field.read a depth ts₁ = .ok (a₁, ts₂) ∧
          recordMembers fields depth k false (name :: seen) a₁ ts₂ = .ok (a', left) := by
  cases limit with
  | zero => cases h
  | succ k =>
    obtain ⟨name?, mid, hnext, h⟩ := TokenReader.bind_eq_ok.mp h
    refine ⟨k, name?, mid, rfl, hnext, ?_, ?_⟩
    · rintro rfl
      dsimp only at h
      split at h
      · cases h
      · cases h
        exact ⟨rfl, rfl⟩
    · rintro name field rfl hfield
      dsimp only at h
      rw [hfield] at h
      dsimp only at h
      split at h
      · cases h
      · obtain ⟨x, ts₁, hcolon, h⟩ := TokenReader.bind_eq_ok.mp h
        obtain ⟨a₁, ts₂, hread, h⟩ := TokenReader.bind_eq_ok.mp h
        exact ⟨x, ts₁, a₁, ts₂, hcolon, hread, h⟩

theorem recordMembers_nil {fields : List (RecordField α)} {limit : Nat} {isFirst : Bool} {seen : List String} :
    recordMembers fields depth limit isFirst seen a [] ≠ .ok (a', left) := by
  intro h
  obtain ⟨k, name?, mid, -, hnext, -⟩ := recordMembers_eq_ok h
  cases hnext

/-- What follows the name of a member is restored, and then the rest of the record. -/
theorem recordMembers_member {fields : List (RecordField α)} {limit : Nat} {seen : List String} {a₁ a₂ : α}
    {ms : List (String × Value)} {field : RecordField α} (hread : RestoresBefore (field.read a depth) v a₁)
    (hrest : ∀ {limit t a' left}, Along t (Value.printMembers ms) →
      recordMembers fields depth limit false seen a₁ (tokens t) = .ok (a', left) →
      a' = a₂ ∧ ∃ u, t = Value.printMembers ms ++ u ∧ left = tokens u)
    (ht : Along t (':' :: (v.print ++ Value.printMembers ms))) {x : Unit} {ts₁ ts₂ : List Token} {b : α}
    (hcolon : colon (tokens t) = .ok (x, ts₁)) (hb : field.read a depth ts₁ = .ok (b, ts₂))
    (h : recordMembers fields depth limit false seen b ts₂ = .ok (a', left)) :
    a' = a₂ ∧ ∃ u, t = ':' :: (v.print ++ (Value.printMembers ms ++ u)) ∧ left = tokens u := by
  obtain ⟨c, rest, hc, hmem⟩ := Reader.printMembers_stop ms
  obtain ⟨u, rfl, hu, rfl⟩ := colon_eq_ok ht hcolon
  obtain rfl | ⟨rfl, w, rfl, rfl⟩ := hread u c b ts₂ hmem (hc ▸ hu).stop hb
  · exact absurd h recordMembers_nil
  · obtain ⟨rfl, y, rfl, rfl⟩ := hrest hu.right h
    exact ⟨rfl, y, rfl, rfl⟩

/-- The members of a record behind the first, and the end of the record. -/
theorem recordMembers_printMembers {fields : List (RecordField α)} {seen : List String} {ms : List (String × Value)}
    {a₂ : α} (hfills : Fills fields depth seen a ms a₂) {limit : Nat} (ht : Along t (Value.printMembers ms))
    (h : recordMembers fields depth limit false seen a (tokens t) = .ok (a', left)) :
    a' = a₂ ∧ ∃ u, t = Value.printMembers ms ++ u ∧ left = tokens u := by
  induction hfills generalizing limit t a' left with
  | done =>
    obtain ⟨k, name?, mid, -, hnext, hnone, -⟩ := recordMembers_eq_ok h
    obtain ⟨rfl, u, rfl, rfl⟩ := nextName_close ht hnext
    obtain ⟨rfl, rfl⟩ := hnone rfl
    exact ⟨rfl, u, rfl, rfl⟩
  | member hfield hread hrest ih =>
    obtain ⟨k, name?, mid, -, hnext, -, hsome⟩ := recordMembers_eq_ok h
    obtain ⟨rfl, u, rfl, hu, rfl⟩ := nextName_comma ht hnext
    obtain ⟨x, ts₁, b, ts₂, hcolon, hb, h⟩ := hsome _ _ rfl hfield
    obtain ⟨rfl, w, rfl, rfl⟩ := recordMembers_member hread ih hu hcolon hb h
    exact ⟨rfl, w, by simp [Value.printMembers], rfl⟩

/-- A record is restored from what is printed for an object that fills it. -/
theorem restores_record {fields : List (RecordField α)} {start : α} {k : String} {ms : List (String × Value)}
    (hfills : ∀ depth, Fills fields depth [] start ((k, v) :: ms) a) :
    Restores (record fields start depth) (.object ((k, v) :: ms)) a := by
  intro t a' left ht hr
  have hobject : Along t ('{' :: (printString k ++ ':' :: (v.print ++ Value.printMembers ms))) := ht
  obtain hend | ⟨u, opening, rfl, hu, htokens⟩ := tokens_mark (by simp) hobject
  · rw [hend] at hr
    cases hr
  rw [htokens] at hr
  cases depth with
  | zero => cases hr
  | succ depth =>
    have hmembers : recordMembers fields depth (tokens u).length true [] start (tokens u) = .ok (a', left) := hr
    obtain ⟨_, name?, mid, -, hnext, -, hsome⟩ := recordMembers_eq_ok hmembers
    obtain ⟨rfl, w, rfl, hw, rfl⟩ := nextName_first hu hnext
    have hall := hfills depth
    cases hall with | member hfield hread hrest => ?_
    obtain ⟨x, ts₁, b, ts₂, hcolon, hb, h⟩ := hsome _ _ rfl hfield
    obtain ⟨rfl, y, rfl, rfl⟩ :=
      recordMembers_member hread (fun ht h => recordMembers_printMembers hrest ht h) hw hcolon hb h
    exact ⟨rfl, y, by simp [Value.print], rfl⟩

/-! ## Variants -/

/-- A variant is restored from an object with its name, if what it carries is. -/
theorem restores_variant {payload? : String → Option (Payload α)} {k : String} {read : Decoder α}
    (hpayload : payload? k = some (.carrying read)) (hread : ∀ depth, RestoresBefore (read depth) v a) :
    Restores (variant payload? depth) (.object [(k, v)]) a := by
  intro t a' left ht hr
  have hobject : Along t ('{' :: (printString k ++ ':' :: (v.print ++ ['}']))) := ht
  obtain hend | ⟨u, start, rfl, hu, htokens⟩ := tokens_mark (by simp) hobject
  · rw [hend] at hr
    cases hr
  rw [htokens] at hr
  cases depth with
  | zero => cases hr
  | succ depth =>
    have hmember : variantMember payload? depth (tokens u) = .ok (a', left) := hr
    obtain ⟨name, mid, hname, h⟩ := TokenReader.bind_eq_ok.mp hmember
    have hname' : Decoder.name (tokens u) = .ok (name, mid) := by
      obtain hend | ⟨f, g, start, hbad⟩ | ⟨w, start, rfl, htokens⟩ := begins_string k hu.left
      · rw [hend] at hname
        cases hname
      · rw [hbad] at hname ⊢
        exact hname
      · rw [htokens] at hname ⊢
        exact hname
    obtain ⟨rfl, w, rfl, hw, rfl⟩ := name_eq_ok hu hname'
    rw [hpayload] at h
    obtain ⟨x, ts₁, hcolon, h⟩ := TokenReader.bind_eq_ok.mp h
    obtain ⟨y, rfl, hy, rfl⟩ := colon_eq_ok hw hcolon
    obtain ⟨ts₂, x, hb, hend⟩ := TokenReader.seqLeft_eq_ok.mp h
    obtain rfl | ⟨rfl, z, rfl, rfl⟩ := hread depth y '}' a' ts₂ (by simp) hy hb
    · cases hend
    obtain hnil | ⟨q, start, rfl, -, htokens⟩ := tokens_mark (by simp) hy.right
    · rw [hnil] at hend
      cases hend
    · rw [htokens] at hend
      cases hend
      exact ⟨rfl, q, by simp [Value.print, Value.printMembers], rfl⟩

end Decoder
end Json

namespace Source

open Json (Decoder Number Payload RecordField Value)
open Json.Decoder (Restores restores_text restores_optional restoresBefore_value restores_list restores_record restores_variant)

/-! ## Programs -/

/-- The numbers that an expression writes out. -/
def Expr.numbers : Expr → List Number
  | .literal v => v.numbers
  | .require _ _ => []

/-- An expression as it is read: what it writes out is in order. -/
def Expr.Ordered : Expr → Prop
  | .literal v => v.Ordered
  | .require _ _ => True

theorem Expr.restores_require (request : String) (property : Option String) (depth : Nat) :
    Restores (decodeRequire depth)
      (.object [("request", .string request), ("property", Json.Decoder.optionalText property)])
      (.require request property) := by
  refine Restores.bind (a := (request, property)) (fun r => Expr.require r.1 r.2) (fun _ => rfl) ?_
  refine restores_record fun depth => .member rfl ((restores_text request).before.map _) ?_
  exact .member rfl ((restores_optional property).before.map _) .done

theorem Expr.restores {e : Expr} (ho : e.Ordered) (hn : ∀ n ∈ e.numbers, n.Fits) (depth : Nat) :
    Restores (Expr.decode depth) e.toJson e := by
  cases e with
  | literal v => exact restores_variant rfl fun depth => (restoresBefore_value ho hn).map Expr.literal
  | require request property => exact restores_variant rfl fun depth => (restores_require request property depth).before

namespace Statement

/-- The numbers that a statement writes out. -/
def numbers : Statement → List Number
  | exports _ value => value.numbers
  | assigns _ value => value.numbers
  | evaluates value => value.numbers
  | _ => []

/-- A statement as it is read. -/
def Ordered : Statement → Prop
  | exports _ value => value.Ordered
  | assigns _ value => value.Ordered
  | evaluates value => value.Ordered
  | _ => True

theorem restores_exports (name : String) {value : Expr} (ho : value.Ordered) (hn : ∀ n ∈ value.numbers, n.Fits)
    (depth : Nat) :
    Restores (decodeExport depth) (.object [("name", .string name), ("value", value.toJson)]) (.exports name value) := by
  refine Restores.bind (a := (name, value)) (fun r => exports r.1 r.2) (fun _ => rfl) ?_
  refine restores_record fun depth => .member rfl ((restores_text name).before.map _) ?_
  exact .member rfl ((Expr.restores ho hn depth).before.map _) .done

theorem restores_assigns (name : Option String) {value : Expr} (ho : value.Ordered)
    (hn : ∀ n ∈ value.numbers, n.Fits) (depth : Nat) :
    Restores (decodeAssign depth) (.object [("name", Json.Decoder.optionalText name), ("value", value.toJson)])
      (.assigns name value) := by
  refine Restores.bind (a := (name, value)) (fun r => assigns r.1 r.2) (fun _ => rfl) ?_
  refine restores_record fun depth => .member rfl ((restores_optional name).before.map _) ?_
  exact .member rfl ((Expr.restores ho hn depth).before.map _) .done

theorem restores {s : Statement} (ho : s.Ordered) (hn : ∀ n ∈ s.numbers, n.Fits) (depth : Nat) :
    Restores (decode depth) s.toJson s := by
  cases s with
  | imports request => exact restores_variant rfl fun depth => ((restores_text request).map imports).before
  | exports name value => exact restores_variant rfl fun depth => (restores_exports name ho hn depth).before
  | assigns name value => exact restores_variant rfl fun depth => (restores_assigns name ho hn depth).before
  | evaluates value =>
    exact restores_variant rfl fun depth => ((Expr.restores ho hn depth).map evaluates).before
  | throws message => exact restores_variant rfl fun depth => ((restores_text message).map throws).before

end Statement

namespace Program

/-- The numbers that a program writes out. -/
def numbers (p : Program) : List Number := p.statements.flatMap Statement.numbers

/-- A program as it is read. -/
def Ordered (p : Program) : Prop := ∀ s ∈ p.statements, s.Ordered

variable {p q : Program} {text : String}

theorem restores (ho : p.Ordered) (hn : ∀ n ∈ p.numbers, n.Fits) (depth : Nat) :
    Restores (decode depth) p.toJson p := by
  refine restores_record fun depth => .member rfl (Restores.before (.map _ (restores_list ?_ fun depth => ?_))) .done
  · rintro v hv
    obtain ⟨s, -, rfl⟩ := List.mem_map.mp hv
    cases s <;> exact ⟨_, rfl⟩
  · refine List.forall₂_map_left_iff.mpr (List.forall₂_same.mpr fun s hs => Restores.before ?_)
    exact Statement.restores (ho s hs) (fun n hm => hn n (List.mem_flatMap_of_mem hs hm)) depth

/-- From what is stored of a program, cut off anywhere, no other program is restored. -/
theorem eq_of_restore (ho : p.Ordered) (hn : ∀ n ∈ p.numbers, n.Fits) (ht : text.toList <+: p.store.toList)
    (h : restore text = .ok q) : q = p := by
  have hstore : p.store.toList = p.toJson.print := String.toList_ofList
  have hrun : (decode Json.maxDepth (Json.tokens text.toList) >>= Json.onlyValue) = .ok q := h
  cases hdecode : decode Json.maxDepth (Json.tokens text.toList) with
  | error f =>
    rw [hdecode] at hrun
    cases hrun
  | ok r =>
    obtain ⟨p', left⟩ := r
    obtain ⟨rfl, -⟩ := restores ho hn _ _ _ _ (.inl (hstore ▸ ht)) hdecode
    rw [hdecode] at hrun
    cases left with
    | nil =>
      cases hrun
      rfl
    | cons token rest => cases hrun

end Program

/-! ## Scanned programs -/

theorem ordered_of_read {cs : List Char} {v : Value} (h : Value.read cs = .ok v) : v.Ordered := by
  unfold Value.read at h
  cases hread : Json.Doc.read (.wanted Json.maxDepth) (Json.tokens cs) with
  | error f => simp [hread, bind, Except.bind] at h
  | ok r =>
    cases hdoc : Json.onlyValue r with
    | error f => simp [hread, hdoc, bind, Except.bind] at h
    | ok doc =>
      simp only [hread, hdoc, bind, Except.bind, pure, Except.pure, Except.ok.injEq] at h
      exact h ▸ doc.ordered_value

theorem Expr.ordered_of_scan {cs : List Char} {e : Expr} (h : Expr.scan cs = .ok e) : e.Ordered := by
  unfold Expr.scan at h
  dsimp only at h
  split at h
  · cases h
    trivial
  · split at h
    · next v hv =>
      cases h
      exact ordered_of_read hv
    · cases h

theorem Statement.ordered_of_scan {cs : List Char} {s : Statement} (h : Statement.scan cs = .ok s) : s.Ordered := by
  have hmap : ∀ {value : List Char} {f : Expr → Statement}, (Expr.scan value).map f = .ok s →
      (∀ e : Expr, e.Ordered → (f e).Ordered) → s.Ordered := by
    intro value f hs hf
    cases he : Expr.scan value with
    | error fault =>
      rw [he] at hs
      cases hs
    | ok e =>
      rw [he] at hs
      cases hs
      exact hf e (Expr.ordered_of_scan he)
  unfold Statement.scan at h
  repeat' split at h
  · cases h
    trivial
  · exact hmap h fun _ he => he
  · exact hmap h fun _ he => he
  · exact hmap h fun _ he => he
  · exact hmap h fun _ he => he
  · exact hmap h fun _ he => he
  · cases h
    trivial
  · exact hmap h fun _ he => he
  · cases h

/-- Each statement was scanned from a line. -/
theorem exists_scan_of_scanLines {number : Nat} {raws : List (List Char)} {statements : List Statement}
    (h : scanLines number raws = .ok statements) :
    ∀ s ∈ statements, ∃ raw ∈ raws, Statement.scan (lineText raw) = .ok s := by
  induction raws generalizing number statements with
  | nil =>
    cases h
    exact fun _ hs => nomatch hs
  | cons raw raws ih =>
    unfold scanLines at h
    split at h
    · cases h
    · next statement? hline =>
      cases hrest : scanLines (number + 1) raws with
      | error e =>
        rw [hrest] at h
        cases h
      | ok rest =>
        rw [hrest] at h
        cases h
        intro s hs
        rcases List.mem_append.mp hs with hs | hs
        · refine ⟨raw, List.mem_cons_self, ?_⟩
          unfold scanLine at hline
          dsimp only at hline
          split at hline
          · cases hline
            cases hs
          · cases hscan : Statement.scan (lineText raw) with
            | error fault =>
              rw [hscan] at hline
              cases hline
            | ok s' =>
              rw [hscan] at hline
              cases hline
              obtain rfl := List.mem_singleton.mp hs
              rfl
        · obtain ⟨raw', hraw', hscan⟩ := ih hrest s hs
          exact ⟨raw', List.mem_cons_of_mem _ hraw', hscan⟩

theorem Program.exists_scan {source : String} {p : Program} (h : Program.scan source = .ok p) :
    ∀ s ∈ p.statements, ∃ raw ∈ lines source, Statement.scan (lineText raw) = .ok s := by
  unfold Program.scan at h
  cases hlines : scanLines 1 (lines source) with
  | error e =>
    rw [hlines] at h
    cases h
  | ok statements =>
    rw [hlines] at h
    cases h
    exact exists_scan_of_scanLines hlines

/-- A program that was scanned is in order. -/
theorem Program.ordered_of_scan {source : String} {p : Program} (h : Program.scan source = .ok p) : p.Ordered := by
  intro s hs
  obtain ⟨raw, -, hscan⟩ := Program.exists_scan h s hs
  exact Statement.ordered_of_scan hscan

end Source
end ModGraph
