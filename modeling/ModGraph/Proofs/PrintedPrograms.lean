import ModGraph.Proofs.Grammar
import ModGraph.Proofs.ReadBack
import ModGraph.Proofs.SourceLines
import ModGraph.Proofs.StoredForms

/-!
# Printed programs

Each statement has a text of its own (`Statement.print`), and a program is printed with one statement in each line. What
was scanned is scanned again from what is printed for it (`Program.scan_print`). Between the two stands what the language
can express at all (`Program.Expressible`): requests and messages without quotation marks, names that are names, literals
that do not nest too deep. What was scanned is of this kind, and what is of this kind is scanned from its text.
-/

namespace ModGraph.Source

open Text (isBlank isNameChar trimStart trimEnd trim)
open Form (isQuote)
open Json (Value Number)

/-! ## Printing -/

/-- The text of an expression. -/
def Expr.print : Expr → List Char
  | .literal v => v.print
  | .require request none => "require(\"".toList ++ (request.toList ++ "\")".toList)
  | .require request (some property) => "require(\"".toList ++ (request.toList ++ ("\").".toList ++ property.toList))

/-- The text of a statement. -/
def Statement.print : Statement → List Char
  | .imports request => "import \"".toList ++ (request.toList ++ ['"'])
  | .exports name value => "export const ".toList ++ (name.toList ++ (" = ".toList ++ value.print))
  | .assigns (some name) value => "exports.".toList ++ (name.toList ++ (" = ".toList ++ value.print))
  | .assigns none value => "module.exports = ".toList ++ value.print
  | .evaluates value => "const a = ".toList ++ value.print
  | .throws message => "throw \"".toList ++ (message.toList ++ ['"'])

/-- The text of a program, with one statement in each line. -/
def Program.print (p : Program) : String := ofLines (p.statements.map Statement.print)

/-! ## What can be expressed -/

/-- A text that can stand between quotation marks on one line. -/
def Quotable (s : String) : Prop := Run (!isQuote ·) s.toList ∧ '\n' ∉ s.toList

/-- A text that can be a name. -/
def IsName (s : String) : Prop := s.toList ≠ [] ∧ Run isNameChar s.toList

/-- An expression that can be written. -/
def Expr.Expressible : Expr → Prop
  | .literal v => v.Ordered ∧ v.depth ≤ Json.maxDepth
  | .require request property => (request.toList ≠ [] ∧ Quotable request) ∧ ∀ name ∈ property, IsName name

/-- A statement that can be written. -/
def Statement.Expressible : Statement → Prop
  | .imports request => request.toList ≠ [] ∧ Quotable request
  | .exports name value => IsName name ∧ value.Expressible
  | .assigns name value => (∀ n ∈ name, IsName n) ∧ value.Expressible
  | .evaluates value => value.Expressible
  | .throws message => Quotable message

/-- A program that can be written. -/
def Program.Expressible (p : Program) : Prop := ∀ s ∈ p.statements, s.Expressible

/-! ## Texts of lines -/

variable {s t u : List Char} {c : Char}

/-- A text that ends a line: it is on one line, and nothing is trimmed off its end. -/
structure Closes (t : List Char) : Prop where
  last : ∃ u c, t = u ++ [c] ∧ isBlank c = false ∧ c ≠ ';'
  line : '\n' ∉ t

theorem closes_concat (hu : '\n' ∉ u) (hc : isBlank c = false) (hne : c ≠ ';') : Closes (u ++ [c]) := by
  refine ⟨⟨u, c, rfl, hc, hne⟩, fun hmem => ?_⟩
  rcases List.mem_append.mp hmem with hmem | hmem
  · exact hu hmem
  · obtain rfl := List.mem_singleton.mp hmem
    cases hc

theorem Closes.append (ht : Closes t) (hs : '\n' ∉ s) : Closes (s ++ t) := by
  obtain ⟨⟨u, c, rfl, hc, hne⟩, hline⟩ := ht
  refine ⟨⟨s ++ u, c, (List.append_assoc _ _ _).symm, hc, hne⟩, fun hmem => ?_⟩
  exact (List.mem_append.mp hmem).elim hs hline

theorem Closes.tight (ht : Closes t) : Tight t := by
  obtain ⟨⟨u, c, rfl, hc, -⟩, -⟩ := ht
  intro d hd
  rw [List.getLast?_concat] at hd
  cases hd
  exact hc

theorem Closes.trim_eq (ht : Closes t) (hs : Stops isBlank t) : trim t = t := by
  rw [trim, trimStart_of_stops hs, ht.tight.trimEnd_eq]

theorem Closes.lineText_eq (ht : Closes t) (hs : Stops isBlank t) : lineText t = t := by
  obtain ⟨u, c, rfl, -, hne⟩ := ht.last
  have hdrop : dropSemicolon (u ++ [c]) = u ++ [c] := by simp [dropSemicolon, hne]
  rw [lineText, ht.trim_eq hs, hdrop, ht.tight.trimEnd_eq]

theorem closes_of_run {p : Char → Bool} (h : Run p t) (hne : t ≠ [])
    (hp : ∀ c, p c = true → isBlank c = false ∧ c ≠ ';') : Closes t := by
  obtain ⟨u, c, rfl⟩ := t.eq_nil_or_concat.resolve_left hne
  rw [List.concat_eq_append] at h hne ⊢
  obtain ⟨hc, hlast⟩ := hp c (h c (by simp))
  refine closes_concat (fun hmem => ?_) hc hlast
  cases (hp _ (h '\n' (by simp [hmem]))).1

theorem IsName.closes {name : String} (h : IsName name) : Closes name.toList := by
  refine closes_of_run h.2 h.1 fun c hc => ⟨isBlank_of_isNameChar hc, ?_⟩
  rintro rfl
  cases hc

/-! ## Texts of values -/

theorem isBlank_of_isDigit (h : Json.isDigit c = true) : isBlank c = false ∧ c ≠ ';' ∧ c ≠ 'r' := by
  have hrange : ∀ n < 58, 48 ≤ n → Text.inRanges Text.blankRanges n = false := by decide
  have hcode : 48 ≤ c.toNat ∧ c.toNat ≤ 57 := by
    simp only [Json.isDigit, Bool.and_eq_true, decide_eq_true_eq] at h
    exact h
  refine ⟨hrange c.toNat (by omega) hcode.1, ?_, ?_⟩ <;>
  · rintro rfl
    cases h

theorem closes_printNumber {n : Number} (hn : n.Fits) : Closes n.print := by
  cases n with
  | real x =>
    obtain rfl : x = Decimal.Binary64.zero true := hn
    exact closes_concat (u := ['-', '0', '.']) (by decide) (by decide) (by decide)
  | integer i =>
    obtain ⟨negative, k, hprint, -⟩ := Json.Numeral.value_integer hn
    have hdigits : Closes (Nat.toDigits 10 k) := by
      refine closes_of_run (p := Json.isDigit) Json.Numeral.isDigit_toDigits Nat.toDigits_ne_nil fun c hc => ?_
      exact ⟨(isBlank_of_isDigit hc).1, (isBlank_of_isDigit hc).2.1⟩
    show Closes (Json.printInteger i)
    rw [hprint]
    exact hdigits.append (by cases negative <;> decide)

theorem newline_not_mem_escape (c : Char) : '\n' ∉ Json.escape c := by
  have hdigit : ∀ n < 16, Text.hexDigit n ≠ '\n' := by decide
  unfold Json.escape
  split
  · decide
  · decide
  · decide
  · decide
  · decide
  · decide
  · decide
  · next hfeed _ _ =>
    split
    · next hc =>
      have hlt : c.toUInt8.toNat < 256 := c.toUInt8.toNat_lt
      simp only [Text.hexByte, List.mem_append, List.mem_cons, List.not_mem_nil, or_false, not_or]
      refine ⟨by decide, (hdigit _ (by omega)).symm, (hdigit _ (by omega)).symm⟩
    · simpa using fun h : '\n' = c => hfeed h.symm

theorem newline_not_mem_printString (s : String) : '\n' ∉ Json.printString s := by
  simp only [Json.printString, List.mem_cons, List.mem_append, List.mem_flatMap, List.not_mem_nil, or_false, not_or,
    not_exists, not_and]
  exact ⟨by decide, fun c _ => newline_not_mem_escape c, by decide⟩

theorem closes_printString (s : String) : Closes (Json.printString s) :=
  ⟨⟨'"' :: s.toList.flatMap Json.escape, '"', rfl, by decide, by decide⟩, newline_not_mem_printString s⟩

theorem closes_member (k : String) (ht : Closes t) (hu : Closes u) : Closes (Json.printString k ++ ':' :: (t ++ u)) :=
  ((hu.append ht.line).append (s := [':']) (by decide)).append (newline_not_mem_printString k)

mutual

/-- What is printed for a value closes a line. -/
theorem closes_print (v : Value) (hn : ∀ n ∈ v.numbers, n.Fits) : Closes v.print := by
  cases v with
  | null => exact closes_concat (u := ['n', 'u', 'l']) (by decide) (by decide) (by decide)
  | bool b =>
    cases b with
    | true => exact closes_concat (u := ['t', 'r', 'u']) (by decide) (by decide) (by decide)
    | false => exact closes_concat (u := ['f', 'a', 'l', 's']) (by decide) (by decide) (by decide)
  | number n => exact closes_printNumber (hn n (by simp [Value.numbers]))
  | string s => exact closes_printString s
  | array items =>
    cases items with
    | nil => exact closes_concat (u := ['[']) (by decide) (by decide) (by decide)
    | cons v vs =>
      have hv := closes_print v fun n hm => hn n (List.mem_append_left _ hm)
      have hvs := closes_printItems vs fun n hm => hn n (List.mem_append_right _ hm)
      exact (hvs.append hv.line).append (s := ['[']) (by decide)
  | object members =>
    cases members with
    | nil => exact closes_concat (u := ['{']) (by decide) (by decide) (by decide)
    | cons m ms =>
      obtain ⟨k, v⟩ := m
      have hv := closes_print v fun n hm => hn n (List.mem_append_left _ hm)
      have hms := closes_printMembers ms fun n hm => hn n (List.mem_append_right _ hm)
      exact (closes_member k hv hms).append (s := ['{']) (by decide)

theorem closes_printItems (vs : List Value) (hn : ∀ n ∈ Value.itemNumbers vs, n.Fits) : Closes (Value.printItems vs) := by
  cases vs with
  | nil => exact closes_concat (u := []) (by decide) (by decide) (by decide)
  | cons v vs =>
    have hv := closes_print v fun n hm => hn n (List.mem_append_left _ hm)
    have hvs := closes_printItems vs fun n hm => hn n (List.mem_append_right _ hm)
    exact (hvs.append hv.line).append (s := [',']) (by decide)

theorem closes_printMembers (ms : List (String × Value)) (hn : ∀ n ∈ Value.memberNumbers ms, n.Fits) :
    Closes (Value.printMembers ms) := by
  cases ms with
  | nil => exact closes_concat (u := []) (by decide) (by decide) (by decide)
  | cons m ms =>
    obtain ⟨k, v⟩ := m
    have hv := closes_print v fun n hm => hn n (List.mem_append_left _ hm)
    have hms := closes_printMembers ms fun n hm => hn n (List.mem_append_right _ hm)
    exact (closes_member k hv hms).append (s := [',']) (by decide)

end

/-- No value is printed like a request. -/
theorem print_start (v : Value) (hn : ∀ n ∈ v.numbers, n.Fits) :
    ∃ c u, v.print = c :: u ∧ isBlank c = false ∧ c ≠ 'r' := by
  cases v with
  | null => exact ⟨_, _, rfl, by decide, by decide⟩
  | bool b => cases b <;> exact ⟨_, _, rfl, by decide, by decide⟩
  | number n =>
    have hfits : n.Fits := hn n (by simp [Value.numbers])
    cases n with
    | real x =>
      obtain rfl : x = Decimal.Binary64.zero true := hfits
      exact ⟨'-', ['0', '.', '0'], rfl, by decide, by decide⟩
    | integer i =>
      obtain ⟨negative, k, hprint, -⟩ := Json.Numeral.value_integer hfits
      obtain ⟨c, rest, hcons, hc⟩ := Json.sign_cons negative Json.Numeral.isDigit_toDigits (Nat.toDigits_ne_nil (n := k)) []
      rw [List.append_nil] at hcons
      refine ⟨c, rest, hprint.trans hcons, ?_⟩
      rcases hc with rfl | hc
      · exact ⟨by decide, by decide⟩
      · exact ⟨(isBlank_of_isDigit hc).1, (isBlank_of_isDigit hc).2.2⟩
  | string s => exact ⟨_, _, rfl, by decide, by decide⟩
  | array items => cases items <;> exact ⟨_, _, rfl, by decide, by decide⟩
  | object members =>
    cases members with
    | nil => exact ⟨_, _, rfl, by decide, by decide⟩
    | cons m ms => exact ⟨_, _, rfl, by decide, by decide⟩

/-! ## Expressions -/

open Form Pattern

variable {e : Expr}

theorem closes_printExpr (he : e.Expressible) (hn : ∀ n ∈ e.numbers, n.Fits) : Closes e.print := by
  cases e with
  | literal v => exact closes_print v hn
  | require request property =>
    obtain ⟨⟨-, -, hline⟩, hproperty⟩ := he
    cases property with
    | none =>
      have hend : Closes "\")".toList := closes_concat (u := ['"']) (by decide) (by decide) (by decide)
      exact (hend.append hline).append (by decide)
    | some property =>
      have hname := (hproperty property rfl).closes
      exact ((hname.append (by decide)).append hline).append (by decide)

theorem stops_printExpr (hn : ∀ n ∈ e.numbers, n.Fits) : Stops isBlank e.print ∧ e.print ≠ [] := by
  cases e with
  | literal v =>
    obtain ⟨c, u, hprint, hc, -⟩ := print_start v hn
    show Stops isBlank v.print ∧ v.print ≠ []
    rw [hprint]
    exact ⟨stops_cons hc u, by simp⟩
  | require request property =>
    have hstart : ∃ u, (Expr.require request property).print = 'r' :: u := by
      cases property <;> exact ⟨_, rfl⟩
    obtain ⟨u, hu⟩ := hstart
    rw [hu]
    exact ⟨stops_cons (by decide) u, by simp⟩

theorem matches_printRequire {request : String} {property : Option String}
    (he : (Expr.require request property).Expressible) :
    Shape.requires.pattern.Matches (Expr.require request property).print
      ((1, request.toList) :: (property.map (2, String.toList ·)).toList) := by
  obtain ⟨⟨hne, hquotes, -⟩, hproperty⟩ := he
  simp only [Shape.pattern, sequence_word, sequence_blanks, sequence_quote, sequence_groupPlus, sequence_singleton,
    matches_maybe]
  cases property with
  | none =>
    exact ⟨_, rfl, [], _, rfl, run_nil _, '"', _, rfl, rfl, request.toList, _, [], rfl, rfl, ⟨hne, hquotes⟩, '"', _, rfl, rfl,
      [], _, rfl, run_nil _, [], rfl, .inr ⟨rfl, rfl⟩⟩
  | some property =>
    obtain ⟨hname, hrun⟩ := hproperty property rfl
    exact ⟨_, rfl, [], _, rfl, run_nil _, '"', _, rfl, rfl, request.toList, _, _, rfl, rfl, ⟨hne, hquotes⟩, '"', _, rfl, rfl,
      [], _, rfl, run_nil _, _, rfl, .inl ⟨_, rfl, .group (matches_plus.mpr ⟨hname, hrun, rfl⟩)⟩⟩

/-- An expression is scanned from its text. -/
theorem scan_printExpr (he : e.Expressible) (hn : ∀ n ∈ e.numbers, n.Fits) : Expr.scan e.print = .ok e := by
  have htrim : trim e.print = e.print := (closes_printExpr he hn).trim_eq (stops_printExpr hn).1
  cases e with
  | literal v =>
    have hnone : Shape.requires.taken (trim (Expr.literal v).print) = none := by
      obtain ⟨c, u, hprint, -, hc⟩ := print_start v hn
      have hrequire : require? (Expr.literal v).print = none := by
        refine Option.eq_none_iff_forall_ne_some.mpr fun r hr => ?_
        obtain ⟨_, _, _, _, _, heq, -⟩ := require?_eq_some_iff.mp hr
        exact hc (List.cons.inj (hprint.symm.trans heq)).1
      rw [htrim, Shape.taken, hrequire, Option.map_none]
    refine scan_literal_of_read hnone ?_
    rw [htrim]
    exact Value.read_print he.1 hn he.2
  | require request property =>
    rw [scan_request (taken_requires.mpr (htrim.symm ▸ matches_printRequire he))]
    cases property <;> simp [Captures.request, Captures.text, Captures.get, List.lookup_cons]

/-! ## Statements -/

variable {st : Statement}

theorem closes_printStatement (hs : st.Expressible) (hn : ∀ n ∈ st.numbers, n.Fits) : Closes st.print := by
  have hquote : Closes ['"'] := closes_concat (u := []) (by decide) (by decide) (by decide)
  cases st with
  | imports request => exact (hquote.append hs.2.2).append (by decide)
  | exports name value =>
    have hvalue := closes_printExpr hs.2 hn
    exact ((hvalue.append (by decide)).append hs.1.closes.line).append (by decide)
  | assigns name value =>
    have hvalue := closes_printExpr hs.2 hn
    cases name with
    | none => exact hvalue.append (by decide)
    | some name => exact ((hvalue.append (by decide)).append (hs.1 name rfl).closes.line).append (by decide)
  | evaluates value => exact (closes_printExpr hs hn).append (by decide)
  | throws message => exact (hquote.append hs.2).append (by decide)

/-- The word that a statement starts with says that its line is not skipped. -/
theorem start_printStatement (st : Statement) : Stops isBlank st.print ∧ isSkipped st.print = false := by
  cases st with
  | imports request => exact ⟨stops_cons (by decide) _, rfl⟩
  | exports name value => exact ⟨stops_cons (by decide) _, rfl⟩
  | assigns name value => cases name <;> exact ⟨stops_cons (by decide) _, rfl⟩
  | evaluates value => exact ⟨stops_cons (by decide) _, rfl⟩
  | throws message => exact ⟨stops_cons (by decide) _, rfl⟩

/-- The captures in the text of a statement, and the form that it has. -/
theorem exists_matches_print (hs : st.Expressible) (hn : ∀ n ∈ st.numbers, n.Fits) :
    ∃ (s : Shape) (cs : Captures), s.pattern.Matches st.print cs ∧ s.statement cs = .ok st := by
  have hvalue : ∀ {e : Expr}, e.Expressible → (∀ n ∈ e.numbers, n.Fits) →
      Expr.scan e.print = .ok e ∧ e.print ≠ [] ∧ Run (· != '\n') e.print := fun he hfits =>
    ⟨scan_printExpr he hfits, (stops_printExpr hfits).2, run_line (closes_printExpr he hfits).line⟩
  cases st with
  | imports request =>
    refine ⟨.imports, [(1, request.toList)], ?_, by simp [Shape.statement, Captures.text, Captures.get]⟩
    simp only [Shape.pattern, sequence_word, sequence_blanks, sequence_bare (a := maybe clause) rfl, sequence_quote,
      sequence_groupPlus, sequence_nil]
    exact ⟨_, rfl, [' '], _, rfl, by decide, [], _, rfl, matches_maybe.mpr (.inr ⟨rfl, rfl⟩), '"', _, rfl, rfl,
      request.toList, _, [], rfl, rfl, ⟨hs.1, hs.2.1⟩, '"', [], rfl, rfl, rfl, rfl⟩
  | exports name value =>
    obtain ⟨hscan, hne, hline⟩ := hvalue hs.2 hn
    refine ⟨.exportBinding, [(1, name.toList), (2, value.print)], ?_, ?_⟩
    · simp only [Shape.pattern, sequence_word, sequence_gap, sequence_binder, sequence_groupName]
      exact ⟨_, rfl, [' '], _, rfl, by decide, "const".toList, _, rfl, .inl rfl, [' '], _, rfl, by decide, name.toList, _, _,
        rfl, rfl, hs.1, sequence_assigned.mpr ⟨[' '], [' '], _, rfl, rfl, by decide, by decide, hne, hline⟩⟩
    · simp [Shape.statement, Captures.text, Captures.get, List.lookup_cons, hscan, Except.map]
  | assigns name value =>
    obtain ⟨hscan, hne, hline⟩ := hvalue hs.2 hn
    have hassigned : ∀ k, (sequence [blanks, Pattern.word "=", blanks, .group k line]).Matches
        (" = ".toList ++ value.print) [(k, value.print)] := fun k =>
      sequence_assigned.mpr ⟨[' '], [' '], _, rfl, rfl, by decide, by decide, hne, hline⟩
    cases name with
    | none =>
      refine ⟨.moduleExports, [(1, value.print)], ?_, by simp [Shape.statement, Captures.get, hscan, Except.map]⟩
      rw [Shape.pattern, sequence_word]
      exact ⟨_, rfl, hassigned 1⟩
    | some name =>
      refine ⟨.exportsAssign, [(1, name.toList), (2, value.print)], ?_, ?_⟩
      · simp only [Shape.pattern, sequence_maybeWord, sequence_word, sequence_groupName]
        exact ⟨_, .inr rfl, _, rfl, name.toList, _, _, rfl, rfl, hs.1 name rfl, hassigned 2⟩
      · simp [Shape.statement, Captures.text, Captures.get, List.lookup_cons, hscan, Except.map]
  | evaluates value =>
    obtain ⟨hscan, hne, hline⟩ := hvalue hs hn
    refine ⟨.declaration, [(1, value.print)], ?_, by simp [Shape.statement, Captures.get, hscan, Except.map]⟩
    simp only [Shape.pattern, sequence_gap, sequence_binder, sequence_name]
    exact ⟨"const".toList, _, rfl, .inl rfl, [' '], _, rfl, by decide, ['a'], _, rfl, by decide,
      sequence_assigned.mpr ⟨[' '], [' '], _, rfl, rfl, by decide, by decide, hne, hline⟩⟩
  | throws message =>
    refine ⟨.throws, [(2, message.toList)], ?_, by simp [Shape.statement, List.lookup_cons]⟩
    simp only [Shape.pattern, sequence_word, sequence_gap, sequence_singleton, matches_either]
    refine ⟨_, rfl, [' '], _, rfl, by decide, .inr ?_⟩
    simp only [sequence_quote, sequence_groupMany, sequence_nil]
    exact ⟨'"', _, rfl, rfl, message.toList, _, [], rfl, rfl, hs.1, '"', [], rfl, rfl, rfl, rfl⟩

/-- A statement is scanned from its text. -/
theorem scanLine_print (hs : st.Expressible) (hn : ∀ n ∈ st.numbers, n.Fits) : scanLine st.print = .ok (some st) := by
  obtain ⟨hstart, hskip⟩ := start_printStatement st
  have hcloses := closes_printStatement hs hn
  obtain ⟨s, cs, hmatches, hstatement⟩ := exists_matches_print hs hn
  have hscan := scan_of_matches (hcloses.trim_eq hstart) hmatches
  rw [scanLine, hcloses.lineText_eq hstart, hskip, hscan, hstatement]
  rfl

theorem scanLines_print (number : Nat) (sts : List Statement) (hs : ∀ st ∈ sts, st.Expressible)
    (hn : ∀ st ∈ sts, ∀ n ∈ st.numbers, n.Fits) : scanLines number (sts.map Statement.print) = .ok sts := by
  induction sts generalizing number with
  | nil => rfl
  | cons st sts ih =>
    obtain ⟨hst, hsts⟩ := List.forall_mem_cons.mp hs
    obtain ⟨hfits, hall⟩ := List.forall_mem_cons.mp hn
    rw [List.map_cons, scanLines, scanLine_print hst hfits, ih _ hsts hall]
    rfl

/-- A program that can be written is scanned from its text. -/
theorem Program.scan_of_expressible {p : Program} (hp : p.Expressible) (hn : ∀ n ∈ p.numbers, n.Fits) :
    Program.scan p.print = .ok p := by
  have hfits : ∀ st ∈ p.statements, ∀ n ∈ st.numbers, n.Fits := fun st hst n hmem =>
    hn n (List.mem_flatMap_of_mem hst hmem)
  obtain ⟨statements⟩ := p
  cases statements with
  | nil => rfl
  | cons st sts =>
    have hfeeds : ∀ line ∈ (st :: sts).map Statement.print, '\n' ∉ line := by
      intro line hline
      obtain ⟨st', hst', rfl⟩ := List.mem_map.mp hline
      exact (closes_printStatement (hp st' hst') (hfits st' hst')).line
    rw [Program.scan, Program.print, lines_ofLines (by simp) hfeeds, scanLines_print 1 _ hp hfits]
    rfl

/-! ## What was scanned -/

theorem mem_of_mem_trim (h : c ∈ trim t) : c ∈ t := by
  obtain ⟨s, hs, -⟩ := exists_trimStart t
  obtain ⟨s', hs', -⟩ := exists_trimEnd (trimStart t)
  rw [hs, hs']
  exact List.mem_append_right _ (List.mem_append_left _ h)

/-- The text between quotation marks. -/
theorem quotable_of_quoted? {x : List Char} (h : quoted? t = some (x, u)) (hline : '\n' ∉ t) :
    Quotable (String.ofList x) := by
  obtain ⟨q, q', rfl, -, -, hrun⟩ := quoted?_eq_some_iff.mp h
  rw [Quotable, String.toList_ofList]
  exact ⟨hrun, fun hmem => hline (by simp [hmem])⟩

theorem isName_of_binding? {x : List Char} (h : binding? t = some (x, u)) :
    IsName (String.ofList x) ∧ ('\n' ∉ t → '\n' ∉ u) := by
  obtain ⟨k, s, rfl, -, -, hx, -⟩ := binding?_eq_some_iff.mp h
  rw [IsName, String.toList_ofList]
  exact ⟨hx, fun hline hmem => hline (by simp [hmem])⟩

theorem newline_not_mem_value {v : List Char} (h : afterEquals? t = some v) (hline : '\n' ∉ t) : '\n' ∉ v := by
  obtain ⟨s, s', rfl, -⟩ := afterEquals?_eq_some_iff.mp h
  exact fun hmem => hline (by simp [hmem])

theorem Expr.expressible_of_scan (h : Expr.scan t = .ok e) (hline : '\n' ∉ t) : e.Expressible := by
  have hline' : '\n' ∉ trim t := mt mem_of_mem_trim hline
  have ho := Expr.ordered_of_scan h
  cases hrequire : require? (trim t) with
  | none =>
    have hnone : Shape.requires.taken (trim t) = none := by rw [Shape.taken, hrequire, Option.map_none]
    rw [scan_literal hnone] at h
    cases hread : Value.read (trim t) with
    | error fault =>
      rw [hread] at h
      cases h
    | ok v =>
      rw [hread] at h
      cases h
      exact ⟨ho, Value.depth_of_read hread⟩
  | some r =>
    obtain ⟨x, property⟩ := r
    have hscan : Expr.scan t = .ok (.require (String.ofList x) (property.map String.ofList)) := by
      rw [Expr.scan, hrequire]
    cases h.symm.trans hscan
    obtain ⟨s, y, z, s', tail, htext, -, hquoted, hne, -, -, htail⟩ := require?_eq_some_iff.mp hrequire
    rw [htext] at hline'
    refine ⟨⟨by rwa [String.toList_ofList], quotable_of_quoted? hquoted fun hmem => hline' (by simp [hmem])⟩, ?_⟩
    intro name hname
    obtain ⟨n, rfl, rfl⟩ := Option.map_eq_some_iff.mp hname
    rcases htail with ⟨-, hnone⟩ | ⟨n', -, hn, hsome⟩
    · cases hnone
    · cases hsome
      rw [IsName, String.toList_ofList]
      exact hn

theorem expressible_of_map {v : List Char} {f : Expr → Statement} (h : (Expr.scan v).map f = .ok st) (hline : '\n' ∉ v) :
    ∃ e, e.Expressible ∧ st = f e := by
  cases hscan : Expr.scan v with
  | error fault =>
    rw [hscan] at h
    cases h
  | ok e =>
    rw [hscan] at h
    cases h
    exact ⟨e, Expr.expressible_of_scan hscan hline, rfl⟩

theorem Statement.expressible_of_scan (h : Statement.scan t = .ok st) (htrim : trim t = t) (hline : '\n' ∉ t) :
    st.Expressible := by
  obtain ⟨s, cs, htaken, hstatement⟩ := taken_of_scan htrim h
  cases s with
  | imports =>
    obtain ⟨x, hx, rfl⟩ := Option.map_eq_some_iff.mp htaken
    obtain ⟨m, q, q', rfl, -, -, -, hne, hrun⟩ := import?_eq_some_iff.mp hx
    cases hstatement
    show (String.ofList x).toList ≠ [] ∧ Quotable (String.ofList x)
    rw [Quotable, String.toList_ofList]
    exact ⟨hne, hrun, fun hmem => hline (by simp [hmem])⟩
  | exportBinding =>
    obtain ⟨⟨x, v⟩, hx, rfl⟩ := Option.map_eq_some_iff.mp htaken
    obtain ⟨s, y, u, rfl, -, hbinding, hv⟩ := exportBinding?_eq_some_iff.mp hx
    obtain ⟨hname, hrest⟩ := isName_of_binding? hbinding
    have hline' := newline_not_mem_value hv (hrest fun hmem => hline (by simp [hmem]))
    obtain ⟨e, he, rfl⟩ := expressible_of_map hstatement hline'
    exact ⟨hname, he⟩
  | exportDefault =>
    obtain ⟨v, hv, rfl⟩ := Option.map_eq_some_iff.mp htaken
    obtain ⟨s, s', rfl, -⟩ := exportDefault?_eq_some_iff.mp hv
    obtain ⟨e, he, rfl⟩ := expressible_of_map hstatement fun hmem => hline (by simp [Captures.get] at hmem; simp [hmem])
    exact ⟨⟨by decide, by decide⟩, he⟩
  | exportsAssign =>
    obtain ⟨⟨x, v⟩, hx, rfl⟩ := Option.map_eq_some_iff.mp htaken
    obtain ⟨y, u, hmodule, rfl, hname, hv⟩ := exportsAssign?_eq_some_iff.mp hx
    have hline' := newline_not_mem_value hv fun hmem => hline (by rcases hmodule with rfl | rfl <;> simp [hmem])
    obtain ⟨e, he, rfl⟩ := expressible_of_map hstatement hline'
    refine ⟨?_, he⟩
    rintro _ ⟨⟩
    show IsName (String.ofList x)
    rw [IsName, String.toList_ofList]
    exact hname
  | moduleExports =>
    obtain ⟨v, hv, rfl⟩ := Option.map_eq_some_iff.mp htaken
    obtain ⟨u, rfl, hu⟩ := moduleExports?_eq_some_iff.mp hv
    have hline' := newline_not_mem_value hu fun hmem => hline (by simp [hmem])
    obtain ⟨e, he, rfl⟩ := expressible_of_map hstatement hline'
    exact ⟨nofun, he⟩
  | declaration =>
    obtain ⟨v, hv, rfl⟩ := Option.map_eq_some_iff.mp htaken
    obtain ⟨x, u, hbinding, hu⟩ := declaration?_eq_some_iff.mp hv
    have hline' := newline_not_mem_value hu ((isName_of_binding? hbinding).2 hline)
    obtain ⟨e, he, rfl⟩ := expressible_of_map hstatement hline'
    exact he
  | throws =>
    obtain ⟨x, hx, rfl⟩ := Option.map_eq_some_iff.mp htaken
    rw [statement_throws] at hstatement
    cases hstatement
    obtain ⟨s, u, rfl, -, h⟩ := throw?_eq_some_iff.mp hx
    rcases h with ⟨s₁, s₂, s₃, y, z, rfl, -, -, hquoted, -⟩ | hquoted
    · exact quotable_of_quoted? hquoted fun hmem => hline (by simp [hmem])
    · exact quotable_of_quoted? hquoted fun hmem => hline (by simp [hmem])
  | requires =>
    have hscan : Expr.scan t = .ok cs.request := scan_request (htrim.symm ▸ htaken)
    cases hstatement
    exact Expr.expressible_of_scan hscan hline

/-- What can be a statement of a line is the line from its first character on, up to some place. -/
theorem exists_lineText (raw : List Char) : ∃ s, trimStart raw = lineText raw ++ s := by
  have hdrop : ∃ s, trim raw = dropSemicolon (trim raw) ++ s := by
    unfold dropSemicolon
    split
    · next rest hrev => exact ⟨[';'], by rw [← List.reverse_cons, ← hrev, List.reverse_reverse]⟩
    · exact ⟨[], (List.append_nil _).symm⟩
  obtain ⟨s, hs⟩ := hdrop
  obtain ⟨s', hs', -⟩ := exists_trimEnd (dropSemicolon (trim raw))
  obtain ⟨s'', hs'', -⟩ := exists_trimEnd (trimStart raw)
  refine ⟨s' ++ (s ++ s''), ?_⟩
  rw [lineText, ← List.append_assoc, ← hs', ← List.append_assoc, ← hs, trim, ← hs'']

theorem trim_lineText (raw : List Char) : trim (lineText raw) = lineText raw := by
  obtain ⟨s, hs⟩ := exists_lineText raw
  have hstart : Stops isBlank (lineText raw) := by
    intro c hc
    refine stops_trimStart raw c ?_
    rw [hs, List.head?_append, Option.mem_def.mp hc]
    rfl
  have htight : Tight (lineText raw) := tight_trimEnd _
  rw [trim, trimStart_of_stops hstart, htight.trimEnd_eq]

theorem mem_of_mem_lineText {raw : List Char} (h : c ∈ lineText raw) : c ∈ raw := by
  obtain ⟨s, hs⟩ := exists_lineText raw
  obtain ⟨s', hs', -⟩ := exists_trimStart raw
  rw [hs', hs]
  exact List.mem_append_right _ (List.mem_append_left _ h)

/-- What was scanned can be written. -/
theorem Program.expressible_of_scan {source : String} {p : Program} (h : Program.scan source = .ok p) : p.Expressible := by
  intro st hst
  obtain ⟨raw, hraw, hscan⟩ := Program.exists_scan h st hst
  have hline : '\n' ∉ lineText raw := mt mem_of_mem_lineText (newline_not_mem hraw)
  exact Statement.expressible_of_scan hscan (trim_lineText raw) hline

/-- A program that was scanned, if its numbers are integers of 64 bits, is scanned again from what is printed for it: the
text is one in which nothing changes when it is scanned and printed. -/
theorem Program.scan_print {source : String} {p : Program} (h : Program.scan source = .ok p)
    (hn : ∀ n ∈ p.numbers, n.Fits) :
    Program.scan p.print = .ok p ∧ (Program.scan p.print).map Program.print = .ok p.print := by
  have hscan := Program.scan_of_expressible (Program.expressible_of_scan h) hn
  exact ⟨hscan, by rw [hscan]; rfl⟩

/-- A default export, and an import from which only the request is kept. -/
theorem Program.scan_print_tidied :
    let p : Program := ⟨[.exports "default" (.literal (.number (.integer 1))), .imports "x"]⟩
    Program.scan " export default  1;\r\nimport {a} from 'x'" = .ok p ∧ (∀ n ∈ p.numbers, n.Fits) ∧
      p.print = "export const default = 1\nimport \"x\"" ∧
      Program.scan "export const default = 1\nimport \"x\"" = .ok p := by
  intro p
  have hn : ∀ n ∈ p.numbers, n.Fits := by
    intro n hmem
    obtain rfl := List.mem_singleton.mp hmem
    exact ⟨by decide, by decide⟩
  have hread : Value.read ['1'] = .ok (.number (.integer 1)) :=
    Value.read_print (v := .number (.integer 1)) trivial hn (by decide)
  have hvalue : Expr.scan ['1'] = .ok (.literal (.number (.integer 1))) := scan_literal_of_read rfl hread
  have hdefault : scanLine " export default  1;\r".toList = .ok (some (.exports "default" (.literal (.number (.integer 1))))) := by
    have hline : scanLine " export default  1;\r".toList =
      ((Expr.scan ['1']).map (Statement.exports "default")).map some := rfl
    rw [hline, hvalue]
    rfl
  have hscan : Program.scan " export default  1;\r\nimport {a} from 'x'" = .ok p := by
    have hlines : lines " export default  1;\r\nimport {a} from 'x'" =
      [" export default  1;\r".toList, "import {a} from 'x'".toList] := rfl
    rw [Program.scan, hlines, scanLines, hdefault]
    rfl
  have hprint : p.print = "export const default = 1\nimport \"x\"" := by decide
  exact ⟨hscan, hn, hprint, hprint ▸ (Program.scan_print hscan hn).1⟩
end ModGraph.Source
