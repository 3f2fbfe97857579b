import Mathlib.Data.List.Forall2
import ModGraph.Proofs.CanonicalPaths
import ModGraph.Source.Scan

/-!
# Lines of sources

A source is read line by line, so that reading goes through joined texts (`scan_lines`): what is wrong in the first text
is wrong in the whole, what is wrong in the second one as well, further down, and otherwise there are the statements of
both. Lines that hold no statement (`Silent`) can stand anywhere, lines can end in a carriage return, and a fault has the
number of the first line that is wrong (`scanLines_eq_error_iff`).
-/

namespace ModGraph.Source

open Text (trim trimStart trimEnd isBlank)

variable {number k : Nat} {line : List Char} {ls ls' front back : List (List Char)} {source : String} {e : SyntaxError}

/-! ## Texts of lines -/

/-- The text of some lines, with a line feed between them. -/
def ofLines (ls : List (List Char)) : String := String.ofList (Text.join '\n' ls)

theorem lines_ofLines (hne : ls ≠ []) (h : ∀ line ∈ ls, '\n' ∉ line) : lines (ofLines ls) = ls := by
  rw [lines, ofLines, String.toList_ofList]
  exact Text.split_join hne h

theorem lines_append (a b : String) : lines (a ++ "\n" ++ b) = lines a ++ lines b := by
  have htext : (a ++ "\n" ++ b).toList = a.toList ++ '\n' :: b.toList := by simp
  rw [lines, htext]
  exact Text.split_append _ _ _

theorem length_lines (source : String) : (lines source).length = source.toList.count '\n' + 1 := Text.length_split _ _

theorem newline_not_mem (h : line ∈ lines source) : '\n' ∉ line := Text.not_mem_of_mem_split h

theorem lines_ne_nil (source : String) : lines source ≠ [] := Text.split_ne_nil _ _

/-! ## Numbers of lines -/

/-- A fault that is some lines further down. -/
def SyntaxError.below (k : Nat) (e : SyntaxError) : SyntaxError := { e with line := e.line + k }

theorem scanLines_add (number k : Nat) (ls : List (List Char)) :
    scanLines (number + k) ls = (scanLines number ls).mapError (SyntaxError.below k) := by
  induction ls generalizing number with
  | nil => rfl
  | cons line ls ih =>
    have hnext : number + k + 1 = number + 1 + k := by omega
    cases hline : scanLine line with
    | error fault => simp [scanLines, hline, Except.mapError, SyntaxError.below]
    | ok statement? =>
      simp only [scanLines, hline, hnext, ih]
      cases scanLines (number + 1) ls <;> rfl

/-- A fault has the number of the first line that is wrong. -/
theorem scanLines_eq_error_iff : scanLines number ls = .error e ↔ ∃ front line back, ls = front ++ line :: back ∧
    (∀ before ∈ front, ∃ statement?, scanLine before = .ok statement?) ∧ scanLine line = .error e.fault ∧
      e.line = number + front.length := by
  induction ls generalizing number with
  | nil => simp [scanLines]
  | cons first ls ih =>
    cases hfirst : scanLine first with
    | error fault =>
      simp only [scanLines, hfirst, Except.error.injEq]
      constructor
      · rintro rfl
        exact ⟨[], first, ls, rfl, List.forall_mem_nil _, hfirst, rfl⟩
      · rintro ⟨front, line, back, hls, hfront, hline, hnumber⟩
        cases front with
        | nil =>
          obtain ⟨rfl, rfl⟩ := List.cons.inj hls
          cases hline.symm.trans hfirst
          cases e
          simpa using hnumber.symm
        | cons before front =>
          obtain ⟨rfl, -⟩ := List.cons.inj hls
          obtain ⟨statement?, hok⟩ := hfront first List.mem_cons_self
          cases hok.symm.trans hfirst
    | ok statement? =>
      have hstep : scanLines number (first :: ls) = .error e ↔ scanLines (number + 1) ls = .error e := by
        simp only [scanLines, hfirst]
        cases scanLines (number + 1) ls <;> simp [Except.map]
      rw [hstep, ih]
      constructor
      · rintro ⟨front, line, back, rfl, hfront, hline, hnumber⟩
        refine ⟨first :: front, line, back, rfl, ?_, hline, by simp only [List.length_cons]; omega⟩
        intro before hbefore
        rcases List.mem_cons.mp hbefore with rfl | hbefore
        · exact ⟨statement?, hfirst⟩
        · exact hfront before hbefore
      · rintro ⟨front, line, back, hls, hfront, hline, hnumber⟩
        cases front with
        | nil =>
          obtain ⟨rfl, -⟩ := List.cons.inj hls
          cases hline.symm.trans hfirst
        | cons before front =>
          obtain ⟨rfl, rfl⟩ := List.cons.inj hls
          refine ⟨front, line, back, rfl, fun l hl => hfront l (List.mem_cons_of_mem _ hl), hline, ?_⟩
          simp only [List.length_cons] at hnumber
          omega

/-! ## White space at the ends of lines -/

theorem trimEnd_append_of_blank {c : Char} (hc : isBlank c = true) (cs : List Char) :
    trimEnd (cs ++ [c]) = trimEnd cs := by
  simp [trimEnd, hc]

/-- A blank behind a line makes no difference. -/
theorem lineText_append {c : Char} (hc : isBlank c = true) (line : List Char) :
    lineText (line ++ [c]) = lineText line := by
  have htrim : trim (line ++ [c]) = trim line := by
    unfold trim trimStart
    rw [List.dropWhile_append]
    split
    · next hempty => simp [List.isEmpty_iff.mp hempty, hc]
    · exact trimEnd_append_of_blank hc _
  rw [lineText, htrim]
  rfl

/-- A line with a carriage return at its end, or without it. -/
def EndsAlike (line line' : List Char) : Prop := line' = line ∨ line' = line ++ ['\r']

theorem EndsAlike.lineText (h : EndsAlike line line') : lineText line' = lineText line := by
  obtain rfl | rfl := h
  · rfl
  · exact lineText_append (by decide) line

theorem scanLines_of_endsAlike (h : List.Forall₂ EndsAlike ls ls') : scanLines number ls' = scanLines number ls := by
  induction h generalizing number with
  | nil => rfl
  | cons hline _ ih =>
    simp only [scanLines, scanLine, hline.lineText, ih]

/-- A text in which every line ends in a carriage return and a line feed. -/
def withReturns (source : String) : String :=
  String.ofList (source.toList.flatMap fun c => if c = '\n' then ['\r', '\n'] else [c])

theorem endsAlike_withReturns (source : String) : List.Forall₂ EndsAlike (lines source) (lines (withReturns source)) := by
  unfold lines withReturns
  rw [String.toList_ofList]
  induction source.toList with
  | nil => exact .cons (.inl rfl) .nil
  | cons c cs ih =>
    by_cases hc : c = '\n'
    · subst hc
      exact .cons (.inr rfl) ih
    · simp only [List.flatMap_cons, if_neg hc, List.singleton_append, Text.split]
      generalize Text.split '\n' cs = pieces at ih ⊢
      generalize Text.split '\n' (cs.flatMap _) = pieces' at ih ⊢
      cases ih with
      | nil => exact .cons (.inl rfl) .nil
      | cons hline hrest =>
        refine .cons ?_ hrest
        obtain rfl | rfl := hline
        · exact .inl rfl
        · exact .inr rfl

/-- A line without one carriage return at its end. -/
def dropReturn (line : List Char) : List Char :=
  match line.reverse with
  | '\r' :: rest => rest.reverse
  | _ => line

theorem endsAlike_dropReturn (line : List Char) : EndsAlike (dropReturn line) line := by
  unfold dropReturn
  split
  · next rest hrev => exact .inr (by rw [← List.reverse_cons, ← hrev, List.reverse_reverse])
  · exact .inl rfl

/-- The lines of a text without what ends them, which is a line feed or a carriage return and a line feed. What follows
the last line feed is a line only if there is something. -/
def bareLines (source : String) : List (List Char) :=
  let ended := (lines source).dropLast.map dropReturn
  match (lines source).getLast? with
  | some (c :: rest) => ended ++ [c :: rest]
  | _ => ended

/-! ## Lines without a statement -/

theorem trimEnd_cons_of_not_blank {c : Char} (hc : isBlank c = false) (cs : List Char) :
    trimEnd (c :: cs) = c :: trimEnd cs := by
  simp only [trimEnd, List.reverse_cons, List.dropWhile_append]
  split
  · next hempty => simp [List.isEmpty_iff.mp hempty, hc]
  · simp

theorem dropSemicolon_cons {c : Char} (hc : c ≠ ';') (cs : List Char) :
    dropSemicolon (c :: cs) = c :: dropSemicolon cs := by
  cases hrev : cs.reverse with
  | nil =>
    obtain rfl := List.reverse_eq_nil_iff.mp hrev
    simp [dropSemicolon, hc]
  | cons last rest =>
    by_cases hlast : last = ';'
    · simp [dropSemicolon, hrev, hlast]
    · simp [dropSemicolon, hrev, hlast]

/-- A line that holds no statement: it is blank, it is a comment, or it is the strict-mode directive. -/
inductive Silent (line : List Char) : Prop where
  | blank (h : ∀ c ∈ line, isBlank c = true)
  | comment {text : List Char} (h : trimStart line = '/' :: '/' :: text)
  | directive (h : lineText line = "\"use strict\"".toList ∨ lineText line = "'use strict'".toList)

theorem Silent.scanLine_eq (h : Silent line) : scanLine line = .ok none := by
  have hskip : isSkipped (lineText line) = true := by
    cases h with
    | blank h =>
      have hstart : trimStart line = [] := by
        rw [trimStart, List.dropWhile_eq_nil_iff]
        exact h
      rw [lineText, trim, hstart]
      rfl
    | comment h =>
      have hslash : isBlank '/' = false := by decide
      rw [lineText, trim, h, trimEnd_cons_of_not_blank hslash, trimEnd_cons_of_not_blank hslash,
        dropSemicolon_cons (by decide), dropSemicolon_cons (by decide), trimEnd_cons_of_not_blank hslash,
        trimEnd_cons_of_not_blank hslash]
      simp [isSkipped]
    | directive h =>
      rcases h with h | h <;> rw [h] <;> rfl
  rw [scanLine]
  exact if_pos hskip

/-- A line without a statement takes up one number and is otherwise passed over. -/
theorem scanLines_silent (h : Silent line) (number : Nat) (front back : List (List Char)) :
    scanLines number (front ++ line :: back) = (do
      let first ← scanLines number front
      let second ← scanLines (number + front.length + 1) back
      return first ++ second) := by
  have hback : ∀ k, scanLines k (line :: back) = scanLines (k + 1) back := by
    intro k
    simp only [scanLines, h.scanLine_eq]
    cases scanLines (k + 1) back <;> rfl
  rw [scanLines_append, hback]

/-- Nor does it change the statements. -/
theorem toOption_scanLines (h : Silent line) (number : Nat) (front back : List (List Char)) :
    (scanLines number (front ++ line :: back)).toOption = (scanLines number (front ++ back)).toOption := by
  rw [scanLines_silent h, scanLines_append, scanLines_add]
  cases scanLines number front with
  | error e => rfl
  | ok first => cases scanLines (number + front.length) back <;> rfl

/-! ## Programs -/

theorem scanLines_map_dropReturn (number : Nat) (ls : List (List Char)) :
    scanLines number (ls.map dropReturn) = scanLines number ls := by
  refine (scanLines_of_endsAlike (List.forall₂_map_left_iff.mpr ?_)).symm
  exact List.forall₂_same.mpr fun line _ => endsAlike_dropReturn line

/-- It makes no difference if lines are cut without what ends them. -/
theorem scanLines_bareLines (source : String) : scanLines 1 (bareLines source) = scanLines 1 (lines source) := by
  obtain ⟨init, last, hlines⟩ := (lines source).eq_nil_or_concat.resolve_left (lines_ne_nil source)
  have hsplit : ∀ front : List (List Char), scanLines 1 (front ++ [last]) = (do
      let first ← scanLines 1 front
      let second ← scanLines (1 + front.length) [last]
      return first ++ second) := fun front => scanLines_append 1 front [last]
  unfold bareLines
  rw [hlines, List.concat_eq_append, List.getLast?_concat, List.dropLast_concat, hsplit]
  cases last with
  | nil =>
    -- nothing follows the last line feed
    have hsilent : scanLines (1 + init.length) [[]] = .ok [] := rfl
    rw [hsilent]
    show scanLines 1 (init.map dropReturn) = _
    rw [scanLines_map_dropReturn]
    cases scanLines 1 init <;> simp [bind, Except.bind, pure, Except.pure]
  | cons c rest =>
    show scanLines 1 (init.map dropReturn ++ [c :: rest]) = _
    rw [hsplit, scanLines_map_dropReturn, List.length_map]

/-- Reading a program goes through its text line by line. (1) A text that is put together from two at a line feed is
read as the two are: a fault of the first is a fault of the whole, so is a fault of the second, with its line counted
from the start of the whole, and otherwise there are the statements of both. (2) Wherever a line without a statement is
put in, the statements stay the same. (3) So they do, and faults too, if the lines end in carriage returns, or some of
them do, and if lines are cut without their ends. (4) A fault is that of the first line that is wrong, and has its
number. -/
theorem scan_lines :
    (∀ a b : String, Program.scan (a ++ "\n" ++ b) = match Program.scan a, Program.scan b with
      | .error e, _ => .error e
      | .ok _, .error e => .error (e.below (a.toList.count '\n' + 1))
      | .ok p, .ok q => .ok ⟨p.statements ++ q.statements⟩) ∧
    (∀ source front back line, lines source = front ++ back → '\n' ∉ line → Silent line →
      (Program.scan (ofLines (front ++ line :: back))).toOption = (Program.scan source).toOption) ∧
    (∀ source source', List.Forall₂ EndsAlike (lines source) (lines source') →
      Program.scan source' = Program.scan source) ∧
    (∀ source, Program.scan (withReturns source) = Program.scan source ∧
      Program.scan source = (scanLines 1 (bareLines source)).map Program.mk) ∧
    (∀ source e, Program.scan source = .error e ↔ ∃ front line back, lines source = front ++ line :: back ∧
      (∀ before ∈ front, ∃ statement?, scanLine before = .ok statement?) ∧ scanLine line = .error e.fault ∧
        e.line = 1 + front.length) := by
  have halike : ∀ source source', List.Forall₂ EndsAlike (lines source) (lines source') →
      Program.scan source' = Program.scan source := by
    intro source source' h
    rw [Program.scan, scanLines_of_endsAlike h, ← Program.scan]
  refine ⟨fun a b => ?_, fun source front back line hlines hline hsilent => ?_, halike, fun source => ?_,
    fun source e => ?_⟩
  · rw [Program.scan, lines_append, scanLines_append, length_lines, scanLines_add, Program.scan, Program.scan]
    cases scanLines 1 (lines a) with
    | error e => rfl
    | ok first => cases scanLines 1 (lines b) <;> rfl
  · have hfeeds : ∀ l ∈ front ++ line :: back, '\n' ∉ l := by
      intro l hl
      rcases List.mem_append.mp hl with hl | hl
      · exact newline_not_mem (hlines ▸ List.mem_append_left _ hl)
      · rcases List.mem_cons.mp hl with rfl | hl
        · exact hline
        · exact newline_not_mem (hlines ▸ List.mem_append_right _ hl)
    have hmap : ∀ r : Except SyntaxError (List Statement), (r.map Program.mk).toOption = r.toOption.map Program.mk := by
      intro r
      cases r <;> rfl
    rw [Program.scan, Program.scan, lines_ofLines (by simp) hfeeds, hmap, hmap, hlines, toOption_scanLines hsilent]
  · exact ⟨halike _ _ (endsAlike_withReturns source), by rw [scanLines_bareLines, Program.scan]⟩
  · rw [← scanLines_eq_error_iff, Program.scan]
    cases scanLines 1 (lines source) <;> simp [Except.map]

/-- A wrong line behind an import, with a comment between them and without. -/
theorem scan_lines_noted :
    lines "import \"a\"\nx" = ["import \"a\"".toList] ++ ["x".toList] ∧ Silent "// note".toList ∧
      (Program.scan (ofLines (["import \"a\"".toList] ++ "// note".toList :: ["x".toList]))).toOption =
        (Program.scan "import \"a\"\nx").toOption ∧
      List.Forall₂ EndsAlike (lines "import \"a\"\nx") (lines "import \"a\"\r\nx") ∧
      Program.scan "import \"a\"\r\nx" = Program.scan "import \"a\"\nx" ∧
      Program.scan ("import \"a\"\r" ++ "\n" ++ "// note\nx") = .error ⟨3, .unexpectedToken ['x']⟩ ∧
      Program.scan "import \"a\"\nx" = .error ⟨2, .unexpectedToken ['x']⟩ := by
  obtain ⟨happend, hinsert, halike, -, herror⟩ := scan_lines
  have hsilent : Silent "// note".toList := .comment rfl
  have hends : List.Forall₂ EndsAlike (lines "import \"a\"\nx") (lines "import \"a\"\r\nx") :=
    .cons (.inr rfl) (.cons (.inl rfl) .nil)
  refine ⟨rfl, hsilent, hinsert _ _ _ _ rfl (by decide) hsilent, hends, halike _ _ hends, ?_, ?_⟩
  · rw [happend]
    rfl
  · refine (herror _ _).mpr ⟨["import \"a\"".toList], "x".toList, [], rfl, ?_, rfl, rfl⟩
    intro before hbefore
    obtain rfl := List.mem_singleton.mp hbefore
    exact ⟨some (.imports "a"), rfl⟩

end ModGraph.Source
