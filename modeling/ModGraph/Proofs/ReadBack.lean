import ModGraph.Proofs.PrintedValues

/-!
# Values read back

A value that is in order, with numbers of 64 bits, is read back from what is printed for it, as long as it nests no
deeper than reading goes (`Json.Value.read_print`). Reading goes as deep as what it gives (`Json.Value.depth_of_read`), so
that everything that was read is read back.
-/

namespace ModGraph.Json

open Decimal (Binary64)

variable {c : Char} {s : String} {u : List Char}

/-! ## Tokens of what is printed -/

theorem scanString_escape_append (c : Char) (u : List Char) :
    scanString none (escape c ++ u) = (scanString none u).cons c := by
  unfold escape
  split
  · rfl
  · rfl
  · rfl
  · rfl
  · rfl
  · rfl
  · rfl
  · split
    · next hc =>
      obtain ⟨a, b, hab, hfour⟩ := hexFour?_hexByte hc
      have hlt : c.toNat < 32 := hc
      rw [hab]
      show scanString none ('\\' :: 'u' :: '0' :: '0' :: a :: b :: u) = _
      rw [scanString, hfour]
      dsimp only
      rw [if_neg (by omega), if_neg (by omega), Char.ofNat_toNat]
    · next hc =>
      show scanString none (c :: u) = _
      rw [scanString]
      · rw [if_neg hc]
        rfl
      all_goals simp_all

theorem scanString_printed_append (cs u : List Char) :
    scanString none (cs.flatMap escape ++ '"' :: u) = ⟨.ok cs, .ok u⟩ := by
  induction cs with
  | nil => rfl
  | cons c cs ih =>
    rw [List.flatMap_cons, List.append_assoc, scanString_escape_append, ih]
    rfl

theorem tokens_printString (s : String) (u : List Char) :
    tokens (printString s ++ u) = ⟨.string (.ok s), printString s ++ u⟩ :: tokens u := by
  have hcons : printString s ++ u = '"' :: (s.toList.flatMap escape ++ '"' :: u) := by simp [printString]
  have htext : (Except.ok s.toList : Except Fault (List Char)).map String.ofList = .ok s := by
    rw [Except.map, String.ofList_toList]
  rw [hcons, tokens_cons rfl, lexeme_quote, scanString_printed_append]
  simp only [htext]

theorem scanWord_append (w u : List Char) : scanWord w (w ++ u) = .ok u := by
  induction w with
  | nil => rfl
  | cons c w ih => rw [List.cons_append, scanWord, if_pos rfl, ih]

theorem tokens_word {w : List Char} {l : Lexeme} (hs : isSpace c = false)
    (hl : ∀ rest, lexeme c rest = match scanWord w rest with
      | .ok rest => (l, rest)
      | .error f => (.bad f f, [])) (u : List Char) :
    tokens (c :: w ++ u) = ⟨l, c :: w ++ u⟩ :: tokens u := by
  rw [List.cons_append, tokens_cons hs, hl, scanWord_append]

theorem tokens_markCons (hc : c ∈ ['[', ']', '{', '}', ',', ':']) (u : List Char) :
    tokens (c :: u) = ⟨.mark c, c :: u⟩ :: tokens u := by
  have hl : lexeme c u = (.mark c, u) ∧ isSpace c = false := by
    simp only [List.mem_cons, List.not_mem_nil, or_false] at hc
    rcases hc with rfl | rfl | rfl | rfl | rfl | rfl <;> exact ⟨rfl, rfl⟩
  rw [tokens_cons hl.2, hl.1]

namespace Numeral

variable {k : Nat} {negative : Bool}

theorem head_toDigits (hk : 0 < k) : (Nat.toDigits 10 k).head? ≠ some '0' := by
  induction k using Nat.strongRecOn with
  | ind k ih =>
    by_cases hlt : k < 10
    · have hdigit : ∀ k < 10, 0 < k → [k.digitChar].head? ≠ some '0' := by decide
      rw [Nat.toDigits_of_lt_base hlt]
      exact hdigit k hlt hk
    · rw [Nat.toDigits_of_base_le (by decide) (by omega), List.head?_append_of_ne_nil _ Nat.toDigits_ne_nil]
      exact ih (k / 10) (by omega) (by omega)

/-- A number is written without zeros in front. -/
theorem scanWhole_toDigits (k : Nat) (hu : EndsNumber u) :
    scanWhole (Nat.toDigits 10 k ++ u) = .ok (Nat.toDigits 10 k, u) := by
  cases k with
  | zero =>
    rw [Nat.toDigits_zero]
    cases u with
    | nil => rfl
    | cons c u =>
      have hc : isDigit c = false := by
        rcases hu c rfl with rfl | rfl | rfl <;> rfl
      simp [scanWhole, hc]
  | succ k =>
    have hhead := head_toDigits k.succ_pos
    have hdigits : someDigits (.at .invalidNumber) (Nat.toDigits 10 (k + 1) ++ u) = .ok (Nat.toDigits 10 (k + 1), u) :=
      someDigits_append isDigit_toDigits Nat.toDigits_ne_nil hu
    rw [← hdigits]
    cases h : Nat.toDigits 10 (k + 1) with
    | nil => exact absurd h Nat.toDigits_ne_nil
    | cons d ds =>
      rw [h] at hhead
      have hd : d ≠ '0' := fun heq => hhead (congrArg some heq)
      simp [scanWhole, hd]

theorem scan_toDigits (negative : Bool) (k : Nat) (hu : EndsNumber u) :
    scan (sign negative ++ (Nat.toDigits 10 k ++ u)) = .ok (⟨negative, Nat.toDigits 10 k, none, none⟩, u) := by
  have hhead : (Nat.toDigits 10 k ++ u).head? ≠ some '-' := by
    rw [List.head?_append_of_ne_nil _ Nat.toDigits_ne_nil]
    intro hd
    cases isDigit_toDigits '-' (List.mem_of_mem_head? hd)
  rw [scan_sign _ _ hhead]
  simp only [scanWhole_toDigits k hu, scanFraction_of_ends hu, scanExponent_of_ends hu, bind, Except.bind, pure,
    Except.pure]

theorem scan_zero (hu : EndsNumber u) :
    scan ('-' :: '0' :: '.' :: '0' :: u) = .ok (⟨true, ['0'], some ['0'], none⟩, u) := by
  have hdigits : someDigits (.at .invalidNumber) ('0' :: u) = .ok (['0'], u) :=
    show someDigits _ (['0'] ++ u) = _ from someDigits_append (by simp [isDigit]) (by simp) hu
  refine (scan_sign true ('0' :: '.' :: '0' :: u) (by simp)).trans ?_
  simp [scanWhole, isDigit, scanFraction, hdigits, scanExponent_of_ends hu, bind, Except.bind, Except.map, pure,
    Except.pure]

end Numeral

theorem tokens_printNumber {n : Number} (hn : n.Fits) (hu : EndsNumber u) :
    tokens (n.print ++ u) = ⟨.number (.ok n), n.print ++ u⟩ :: tokens u := by
  cases n with
  | real x =>
    obtain rfl : x = Binary64.zero true := hn
    have htokens := tokens_numeral (c := '-') ('0' :: '.' :: '0' :: u) (.inl rfl)
    rw [Numeral.scan_zero hu] at htokens
    exact htokens
  | integer i =>
    obtain ⟨negative, k, hprint, hvalue⟩ := Numeral.value_integer hn
    have happend : (Number.integer i).print ++ u = Numeral.sign negative ++ (Nat.toDigits 10 k ++ u) := by
      rw [← List.append_assoc, ← hprint]
      rfl
    obtain ⟨c, rest, hcons, hc⟩ := sign_cons negative Numeral.isDigit_toDigits (Nat.toDigits_ne_nil (n := k)) u
    have htokens := tokens_numeral rest hc
    rw [← hcons, Numeral.scan_toDigits negative k hu] at htokens
    rw [happend, htokens]
    simp only [hvalue, Except.mapError]

theorem tokens_printItems_nil (u : List Char) :
    tokens (Value.printItems [] ++ u) = ⟨.mark ']', ']' :: u⟩ :: tokens u := tokens_markCons (by simp) u

theorem tokens_printItems_cons (v : Value) (vs : List Value) (u : List Char) :
    tokens (Value.printItems (v :: vs) ++ u) =
      ⟨.mark ',', ',' :: (v.print ++ (Value.printItems vs ++ u))⟩ :: tokens (v.print ++ (Value.printItems vs ++ u)) := by
  rw [← tokens_markCons (by simp)]
  simp [Value.printItems]

theorem tokens_printMembers_nil (u : List Char) :
    tokens (Value.printMembers [] ++ u) = ⟨.mark '}', '}' :: u⟩ :: tokens u := tokens_markCons (by simp) u

/-! ## Nesting -/

mutual

/-- How many lists and objects of a value are inside of each other. -/
def Value.depth : Value → Nat
  | .array items => Value.itemsDepth items + 1
  | .object members => Value.membersDepth members + 1
  | _ => 0

/-- The same for the elements of a list. -/
def Value.itemsDepth : List Value → Nat
  | [] => 0
  | v :: vs => max v.depth (Value.itemsDepth vs)

/-- The same for the members of an object. -/
def Value.membersDepth : List (String × Value) → Nat
  | [] => 0
  | (_, v) :: ms => max v.depth (Value.membersDepth ms)

end

theorem Value.itemsDepth_le_iff {vs : List Value} {d : Nat} : itemsDepth vs ≤ d ↔ ∀ v ∈ vs, v.depth ≤ d := by
  induction vs with
  | nil => simp [itemsDepth]
  | cons v vs ih => simp [itemsDepth, ih]

theorem Value.membersDepth_le_iff {ms : List (String × Value)} {d : Nat} :
    membersDepth ms ≤ d ↔ ∀ m ∈ ms, m.2.depth ≤ d := by
  induction ms with
  | nil => simp [membersDepth]
  | cons m ms ih => simp [membersDepth, ih]

namespace Reader

variable {reading : Reading} {r r' : Reader} {stack : List Frame} {next : Next} {d : Nat} {token : Token} {l : Lexeme}
  {t start : List Char}

theorem Waits.run_step (h : r.Waits) (hstep : r.step reading token = .ok r') (rest : List Token) :
    r.run reading (token :: rest) = r'.run reading rest := by
  rw [h.run_cons, hstep]
  rfl

theorem Expects.run_token (h : Expects next) (ht : tokens t = ⟨l, start⟩ :: tokens u) (hl : l ≠ .mark ']')
    (hvalue : value reading stack ⟨l, start⟩ = .ok r) : run reading ⟨stack, next⟩ (tokens t) = r.run reading (tokens u) := by
  rw [ht]
  exact h.waits.run_step ((h.step hl).trans hvalue) _

theorem descend_eq_ok (h : stack.length < d) (token : Token) (r : Reader) :
    descend (.wanted d) stack token r = .ok r := if_neg (Nat.not_le.mpr h)

theorem ExpectsName.run_printString {done : List (String × Doc)} (h : ExpectsName next done) (k : String) (u : List Char) :
    run reading ⟨stack, next⟩ (tokens (printString k ++ ':' :: u)) =
      run reading ⟨.object done k :: stack, .value⟩ (tokens u) := by
  have hname : ∀ start, step reading ⟨stack, next⟩ ⟨.string (.ok k), start⟩ = .ok ⟨stack, .colon done k⟩ := by
    rcases h with ⟨rfl, rfl⟩ | rfl <;> exact fun _ => rfl
  have hwaits : Waits ⟨stack, next⟩ := by
    rcases h with ⟨rfl, -⟩ | rfl <;> rintro _ ⟨⟩
  have hcolon : Waits ⟨stack, .colon done k⟩ := by rintro _ ⟨⟩
  rw [tokens_printString, hwaits.run_step (hname _), tokens_markCons (by simp), hcolon.run_step rfl]

theorem endsNumber_printItems (vs : List Value) (u : List Char) : EndsNumber (Value.printItems vs ++ u) := by
  obtain ⟨c, rest, hc, hmem⟩ := printItems_stop vs
  rw [hc]
  rintro _ ⟨⟩
  simpa using hmem

theorem endsNumber_printMembers (ms : List (String × Value)) (u : List Char) :
    EndsNumber (Value.printMembers ms ++ u) := by
  obtain ⟨c, rest, hc, hmem⟩ := printMembers_stop ms
  rw [hc]
  rintro _ ⟨⟩
  simpa using hmem

mutual

/-- A reader takes what is printed for a value, if it may nest as deep as that. -/
theorem run_printed (v : Value) (hv : v.Ordered) (hn : ∀ n ∈ v.numbers, n.Fits) {d : Nat} (stack : List Frame)
    {next : Next} {u : List Char} (hnext : Expects next) (hd : stack.length + v.depth ≤ d) (hu : EndsNumber u) :
    ∃ doc, doc.value = v ∧
      run (.wanted d) ⟨stack, next⟩ (tokens (v.print ++ u)) = run (.wanted d) ⟨stack, .after doc⟩ (tokens u) := by
  cases v with
  | null => exact ⟨.null, rfl, hnext.run_token (tokens_word (w := ['u', 'l', 'l']) rfl (fun _ => rfl) u) nofun rfl⟩
  | bool b =>
    refine ⟨.bool b, rfl, ?_⟩
    cases b with
    | true => exact hnext.run_token (tokens_word (w := ['r', 'u', 'e']) rfl (fun _ => rfl) u) nofun rfl
    | false => exact hnext.run_token (tokens_word (w := ['a', 'l', 's', 'e']) rfl (fun _ => rfl) u) nofun rfl
  | number n =>
    exact ⟨.number n, rfl, hnext.run_token (tokens_printNumber (hn n (by simp [Value.numbers])) hu) nofun rfl⟩
  | string s => exact ⟨.string s, rfl, hnext.run_token (tokens_printString s u) nofun rfl⟩
  | array items =>
    have hlt : stack.length < d := by
      rw [Value.depth] at hd
      omega
    have hopen : ∀ t, run (.wanted d) ⟨stack, next⟩ (tokens ('[' :: t)) =
        run (.wanted d) ⟨.array [] :: stack, .firstElement⟩ (tokens t) := fun t =>
      hnext.run_token (tokens_markCons (by simp) t) (by simp) (descend_eq_ok hlt _ _)
    cases items with
    | nil =>
      have hwaits : Waits ⟨.array [] :: stack, .firstElement⟩ := by rintro _ ⟨⟩
      refine ⟨.array [], rfl, (hopen _).trans ?_⟩
      show run _ _ (tokens (']' :: u)) = _
      rw [tokens_markCons (by simp), hwaits.run_step rfl]
    | cons v vs =>
      obtain ⟨hfirst, hrest⟩ : stack.length + 1 + v.depth ≤ d ∧ stack.length + 1 + Value.itemsDepth vs ≤ d := by
        rw [Value.depth, Value.itemsDepth] at hd
        omega
      obtain ⟨doc, hdoc, hrun⟩ := run_printed v hv.1 (fun n hm => hn n (List.mem_append_left _ hm))
        (.array [] :: stack) (.inr (.inl rfl)) hfirst (endsNumber_printItems vs u)
      obtain ⟨docs, hdocs, hruns⟩ := run_printedItems vs hv.2 (fun n hm => hn n (List.mem_append_right _ hm))
        doc [] u hrest
      refine ⟨.array (doc :: docs), by simp [Doc.value, Doc.values, hdoc, hdocs], ?_⟩
      have hprint : (Value.array (v :: vs)).print ++ u = '[' :: (v.print ++ (Value.printItems vs ++ u)) := by
        simp [Value.print]
      rw [hprint, hopen, hrun, hruns]
      rfl
  | object members =>
    obtain ⟨hsorted, hmembers⟩ := hv
    have hlt : stack.length < d := by
      rw [Value.depth] at hd
      omega
    have hopen : ∀ t, run (.wanted d) ⟨stack, next⟩ (tokens ('{' :: t)) =
        run (.wanted d) ⟨stack, .firstMember⟩ (tokens t) := fun t =>
      hnext.run_token (tokens_markCons (by simp) t) (by simp) (descend_eq_ok hlt _ _)
    cases members with
    | nil =>
      have hwaits : Waits ⟨stack, .firstMember⟩ := by rintro _ ⟨⟩
      refine ⟨.object [], rfl, (hopen _).trans ?_⟩
      show run _ _ (tokens ('}' :: u)) = _
      rw [tokens_markCons (by simp), hwaits.run_step rfl]
    | cons m ms =>
      obtain ⟨k, v⟩ := m
      obtain ⟨hfirst, hrest⟩ : stack.length + 1 + v.depth ≤ d ∧ stack.length + 1 + Value.membersDepth ms ≤ d := by
        rw [Value.depth, Value.membersDepth] at hd
        omega
      have hname : ExpectsName .firstMember [] := .inl ⟨rfl, rfl⟩
      obtain ⟨doc, hdoc, hrun⟩ := run_printed v hmembers.1 (fun n hm => hn n (List.mem_append_left _ hm))
        (.object [] k :: stack) (.inl rfl) hfirst (endsNumber_printMembers ms u)
      obtain ⟨docs, hdocs, hruns⟩ := run_printedMembers ms hmembers.2 (fun n hm => hn n (List.mem_append_right _ hm))
        doc k [] u hrest
      refine ⟨.object ((k, doc) :: docs), ?_, ?_⟩
      · simp only [Doc.value, Doc.memberValues, hdoc, hdocs]
        rw [Members.ofList_of_sorted hsorted]
      · have hprint : (Value.object ((k, v) :: ms)).print ++ u =
            '{' :: (printString k ++ ':' :: (v.print ++ (Value.printMembers ms ++ u))) := by
          simp [Value.print]
        rw [hprint, hopen, hname.run_printString, hrun, hruns]
        rfl

/-- So it does with the elements of a list behind the first, and the end of the list. -/
theorem run_printedItems (vs : List Value) (hvs : Value.ItemsOrdered vs) (hn : ∀ n ∈ Value.itemNumbers vs, n.Fits)
    {d : Nat} (doc : Doc) (done : List Doc) {stack : List Frame} (u : List Char)
    (hd : stack.length + 1 + Value.itemsDepth vs ≤ d) :
    ∃ docs, Doc.values docs = vs ∧
      run (.wanted d) ⟨.array done :: stack, .after doc⟩ (tokens (Value.printItems vs ++ u)) =
        run (.wanted d) ⟨stack, .after (.array ((doc :: done).reverse ++ docs))⟩ (tokens u) := by
  have hwaits : Waits ⟨.array done :: stack, .after doc⟩ := by rintro _ ⟨⟩
  cases vs with
  | nil =>
    refine ⟨[], rfl, ?_⟩
    rw [tokens_printItems_nil, hwaits.run_step rfl, List.append_nil]
  | cons v vs =>
    obtain ⟨hfirst, hrest⟩ : stack.length + 1 + v.depth ≤ d ∧ stack.length + 1 + Value.itemsDepth vs ≤ d := by
      rw [Value.itemsDepth] at hd
      omega
    obtain ⟨doc', hdoc, hrun⟩ := run_printed v hvs.1 (fun n hm => hn n (List.mem_append_left _ hm))
      (.array (doc :: done) :: stack) (.inr (.inr rfl)) hfirst (endsNumber_printItems vs u)
    obtain ⟨docs, hdocs, hruns⟩ := run_printedItems vs hvs.2 (fun n hm => hn n (List.mem_append_right _ hm))
      doc' (doc :: done) u hrest
    refine ⟨doc' :: docs, by simp [Doc.values, hdoc, hdocs], ?_⟩
    rw [tokens_printItems_cons, hwaits.run_step rfl, hrun, hruns, List.reverse_cons, List.append_assoc]
    rfl

/-- So it does with the members of an object behind the first, and the end of the object. -/
theorem run_printedMembers (ms : List (String × Value)) (hms : Value.MembersOrdered ms)
    (hn : ∀ n ∈ Value.memberNumbers ms, n.Fits) {d : Nat} (doc : Doc) (key : String) (done : List (String × Doc))
    {stack : List Frame} (u : List Char) (hd : stack.length + 1 + Value.membersDepth ms ≤ d) :
    ∃ docs, Doc.memberValues docs = ms ∧
      run (.wanted d) ⟨.object done key :: stack, .after doc⟩ (tokens (Value.printMembers ms ++ u)) =
        run (.wanted d) ⟨stack, .after (.object (((key, doc) :: done).reverse ++ docs))⟩ (tokens u) := by
  have hwaits : Waits ⟨.object done key :: stack, .after doc⟩ := by rintro _ ⟨⟩
  cases ms with
  | nil =>
    refine ⟨[], rfl, ?_⟩
    rw [tokens_printMembers_nil, hwaits.run_step rfl, List.append_nil]
  | cons m ms =>
    obtain ⟨k, v⟩ := m
    obtain ⟨hfirst, hrest⟩ : stack.length + 1 + v.depth ≤ d ∧ stack.length + 1 + Value.membersDepth ms ≤ d := by
      rw [Value.membersDepth] at hd
      omega
    have hname : ExpectsName (.member ((key, doc) :: done)) ((key, doc) :: done) := .inr rfl
    obtain ⟨doc', hdoc, hrun⟩ := run_printed v hms.1 (fun n hm => hn n (List.mem_append_left _ hm))
      (.object ((key, doc) :: done) k :: stack) (.inl rfl) hfirst (endsNumber_printMembers ms u)
    obtain ⟨docs, hdocs, hruns⟩ := run_printedMembers ms hms.2 (fun n hm => hn n (List.mem_append_right _ hm))
      doc' k ((key, doc) :: done) u hrest
    refine ⟨(k, doc') :: docs, by simp [Doc.memberValues, hdoc, hdocs], ?_⟩
    have hprint : Value.printMembers ((k, v) :: ms) ++ u =
        ',' :: (printString k ++ ':' :: (v.print ++ (Value.printMembers ms ++ u))) := by
      simp [Value.printMembers]
    rw [hprint, tokens_markCons (by simp), hwaits.run_step rfl, hname.run_printString, hrun, hruns, List.reverse_cons,
      List.append_assoc]
    rfl

end

end Reader

/-- A value is read back from what is printed for it. -/
theorem Value.read_print {v : Value} (hv : v.Ordered) (hn : ∀ n ∈ v.numbers, n.Fits) (hd : v.depth ≤ maxDepth) :
    Value.read v.print = .ok v := by
  obtain ⟨doc, rfl, hrun⟩ := Reader.run_printed v hv hn [] (.inl rfl) (by simpa using hd) endsNumber_nil
  rw [List.append_nil, tokens_nil, Reader.run_done] at hrun
  have hread : Doc.read (.wanted maxDepth) (tokens doc.value.print) = .ok (doc, []) := hrun
  rw [Value.read, hread]
  rfl

/-! ## How deep reading goes -/

theorem Doc.values_eq_map (docs : List Doc) : Doc.values docs = docs.map Doc.value := by
  induction docs with
  | nil => rfl
  | cons doc docs ih => rw [Doc.values, List.map_cons, ih]

theorem Doc.memberValues_eq_map (ms : List (String × Doc)) : Doc.memberValues ms = ms.map fun m => (m.1, m.2.value) := by
  induction ms with
  | nil => rfl
  | cons m ms ih => rw [Doc.memberValues, List.map_cons, ih]

variable {d n : Nat}

theorem Doc.depth_array {docs : List Doc} (hn : n + 1 ≤ d) (h : ∀ doc ∈ docs, n + 1 + doc.value.depth ≤ d) :
    n + (Doc.array docs).value.depth ≤ d := by
  have hitems : Value.itemsDepth (Doc.values docs) ≤ d - (n + 1) := by
    refine Value.itemsDepth_le_iff.mpr fun v hv => ?_
    rw [Doc.values_eq_map] at hv
    obtain ⟨doc, hdoc, rfl⟩ := List.mem_map.mp hv
    have hroom := h doc hdoc
    omega
  rw [Doc.value, Value.depth]
  omega

theorem Doc.depth_object {ms : List (String × Doc)} (hn : n + 1 ≤ d) (h : ∀ m ∈ ms, n + 1 + m.2.value.depth ≤ d) :
    n + (Doc.object ms).value.depth ≤ d := by
  have hmembers : Value.membersDepth (Members.ofList (Doc.memberValues ms)) ≤ d - (n + 1) := by
    refine Value.membersDepth_le_iff.mpr fun m hm => ?_
    have hmem := Members.mem_ofList hm
    rw [Doc.memberValues_eq_map] at hmem
    obtain ⟨k, hk, rfl⟩ := List.mem_map.mp hmem
    have hroom := h k hk
    show k.2.value.depth ≤ d - (n + 1)
    omega
  rw [Doc.value, Value.depth]
  omega

/-- What is open, with `n` lists and objects around it, has room for what it holds. -/
def Frame.Within (d n : Nat) : Frame → Prop
  | .array done => n + 1 ≤ d ∧ ∀ doc ∈ done, n + 1 + doc.value.depth ≤ d
  | .object done _ => n + 1 ≤ d ∧ ∀ m ∈ done, n + 1 + m.2.value.depth ≤ d

/-- What was read, with `n` open lists and objects around it, has room. -/
def Next.Within (d n : Nat) : Next → Prop
  | .value | .firstElement | .element => True
  | .firstMember => n + 1 ≤ d
  | .member done | .colon done _ => n + 1 ≤ d ∧ ∀ m ∈ done, n + 1 + m.2.value.depth ≤ d
  | .after doc => n + doc.value.depth ≤ d

namespace Reader

/-- All open lists and objects have room for what they hold. -/
def StackWithin (d : Nat) : List Frame → Prop
  | [] => True
  | frame :: stack => frame.Within d stack.length ∧ StackWithin d stack

/-- A reader has not gone deeper than it may. -/
structure Within (d : Nat) (r : Reader) : Prop where
  stack : StackWithin d r.stack
  next : r.next.Within d r.stack.length

variable {r r' : Reader} {stack : List Frame} {token : Token} {doc : Doc}

theorem value_within (hstack : StackWithin d stack) (hroom : stack.length ≤ d)
    (h : value (.wanted d) stack token = .ok r) : r.Within d := by
  have hdescend : ∀ {r' : Reader}, descend (.wanted d) stack token r' = .ok r → stack.length + 1 ≤ d ∧ r = r' := by
    intro r' hr
    refine ⟨?_, eq_of_descend hr⟩
    by_contra hle
    have hdeep : descend (.wanted d) stack token r' = .error _ := if_pos (by omega)
    rw [hdeep] at hr
    cases hr
  unfold value at h
  split at h
  · cases h
    exact ⟨hstack, hroom⟩
  · cases h
    exact ⟨hstack, hroom⟩
  · next n _ =>
    cases n with
    | ok n =>
      cases h
      exact ⟨hstack, hroom⟩
    | error f => cases h
  · next s _ =>
    cases s with
    | ok s =>
      cases h
      exact ⟨hstack, hroom⟩
    | error f => cases h
  · obtain ⟨hlt, rfl⟩ := hdescend h
    exact ⟨⟨⟨hlt, nofun⟩, hstack⟩, trivial⟩
  · obtain ⟨hlt, rfl⟩ := hdescend h
    exact ⟨hstack, hlt⟩
  · cases h
  · cases h

theorem memberName_within {done : List (String × Doc)} (hstack : StackWithin d stack)
    (hdone : Next.Within d stack.length (.member done)) (h : memberName (.wanted d) stack done token = .ok r) :
    r.Within d := by
  unfold memberName at h
  cases hname : token.name (.wanted d) with
  | error f =>
    rw [hname] at h
    cases h
  | ok k =>
    rw [hname] at h
    cases h
    exact ⟨hstack, hdone⟩

theorem afterValue_within (hstack : StackWithin d stack) (hdoc : stack.length + doc.value.depth ≤ d)
    (h : afterValue stack doc token = .ok r) : r.Within d := by
  unfold afterValue at h
  split at h
  · cases h
  · next done stack' =>
    obtain ⟨⟨hn, hdone⟩, hrest⟩ := hstack
    have hall : ∀ doc' ∈ doc :: done, stack'.length + 1 + doc'.value.depth ≤ d := List.forall_mem_cons.mpr ⟨hdoc, hdone⟩
    split at h
    · cases h
      exact ⟨⟨⟨hn, hall⟩, hrest⟩, trivial⟩
    · cases h
      exact ⟨hrest, Doc.depth_array hn fun doc' hdoc' => hall doc' (List.mem_reverse.mp hdoc')⟩
    · cases h
  · next done key stack' =>
    obtain ⟨⟨hn, hdone⟩, hrest⟩ := hstack
    have hall : ∀ m ∈ (key, doc) :: done, stack'.length + 1 + m.2.value.depth ≤ d :=
      List.forall_mem_cons.mpr ⟨hdoc, hdone⟩
    split at h
    · cases h
      exact ⟨hrest, hn, hall⟩
    · cases h
      exact ⟨hrest, Doc.depth_object hn fun m hm => hall m (List.mem_reverse.mp hm)⟩
    · cases h

theorem StackWithin.length_le (h : StackWithin d stack) : stack.length ≤ d := by
  cases stack with
  | nil => exact Nat.zero_le d
  | cons frame stack =>
    cases frame with
    | array done => exact h.1.1
    | object done key => exact h.1.1

theorem Within.step (hr : r.Within d) (h : r.step (.wanted d) token = .ok r') : r'.Within d := by
  obtain ⟨stack, next⟩ := r
  obtain ⟨hstack, hnext⟩ := hr
  have hroom := hstack.length_le
  unfold Reader.step at h
  dsimp only at h hstack hnext
  -- only what opens a list or an object goes deeper, and that is checked
  cases next with
  | value => exact value_within hstack hroom h
  | firstElement =>
    dsimp only at h
    split at h
    · cases h
      exact ⟨hstack.2, Doc.depth_array hroom nofun⟩
    · exact value_within hstack hroom h
  | element =>
    dsimp only at h
    split at h
    · cases h
    · exact value_within hstack hroom h
  | firstMember =>
    dsimp only at h
    split at h
    · cases h
      exact ⟨hstack, Doc.depth_object hnext nofun⟩
    · exact memberName_within hstack ⟨hnext, fun _ hm => nomatch List.not_mem_nil hm⟩ h
  | member done =>
    dsimp only at h
    split at h
    · cases h
    · exact memberName_within hstack hnext h
  | colon done key =>
    dsimp only at h
    split at h
    · cases h
      exact ⟨⟨hnext, hstack⟩, trivial⟩
    · cases h
  | after doc => exact afterValue_within hstack hnext h

theorem Within.done (h : Within d ⟨[], .after doc⟩) : doc.value.depth ≤ d := by
  have hroom : 0 + doc.value.depth ≤ d := h.next
  omega

theorem Within.run {ts left : List Token} (hr : r.Within d) (h : r.run (.wanted d) ts = .ok (doc, left)) :
    doc.value.depth ≤ d := by
  induction ts generalizing r with
  | nil =>
    by_cases hdone : ∃ doc, r = ⟨[], .after doc⟩
    · obtain ⟨doc', rfl⟩ := hdone
      cases h
      exact hr.done
    · obtain ⟨f, hf⟩ := Waits.run_nil (fun doc heq => hdone ⟨doc, heq⟩) (.wanted d)
      rw [hf] at h
      cases h
  | cons token ts ih =>
    by_cases hdone : ∃ doc, r = ⟨[], .after doc⟩
    · obtain ⟨doc', rfl⟩ := hdone
      cases h
      exact hr.done
    · rw [Waits.run_cons fun doc heq => hdone ⟨doc, heq⟩] at h
      cases hstep : r.step (.wanted d) token with
      | error f =>
        rw [hstep] at h
        cases h
      | ok r' =>
        rw [hstep] at h
        exact ih (hr.step hstep) h

end Reader

/-- A value that was read nests as deep as reading goes, or less. -/
theorem Doc.depth_of_read {ts left : List Token} {doc : Doc} (h : Doc.read (.wanted d) ts = .ok (doc, left)) :
    doc.value.depth ≤ d :=
  Reader.Within.run (r := Reader.start) ⟨trivial, trivial⟩ h

theorem Value.depth_of_read {cs : List Char} {v : Value} (h : Value.read cs = .ok v) : v.depth ≤ maxDepth := by
  unfold Value.read at h
  cases hread : Doc.read (.wanted maxDepth) (tokens cs) with
  | error f => simp [hread, bind, Except.bind] at h
  | ok r =>
    obtain ⟨doc, left⟩ := r
    cases left with
    | nil =>
      simp only [hread, onlyValue, bind, Except.bind, pure, Except.pure, Except.ok.injEq] at h
      exact h ▸ Doc.depth_of_read hread
    | cons token left => simp [hread, onlyValue, bind, Except.bind] at h

end ModGraph.Json
