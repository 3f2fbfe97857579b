import Mathlib.Data.List.Basic
import Mathlib.Data.List.TakeWhile
import ModGraph.Proofs.FileNames

/-!
# Requests are no longer than their source

What a program asks for stands in its text. Each recogniser of a form hands on characters of its line in
their order, so a request of a scanned program is no longer than the source (`length_of_scan`), and a
source no longer than the file that it was read from (`length_of_readText`).
-/

namespace ModGraph.Source

open Text (trim trimStart trimEnd)

/-! ## Parts of lines -/

namespace Form

variable {cs w x rest : List Char}

theorem sublist_trimStart (cs : List Char) : (trimStart cs).Sublist cs := List.dropWhile_sublist _

theorem sublist_trimEnd (cs : List Char) : (trimEnd cs).Sublist cs := by
  have h := (List.dropWhile_sublist Text.isBlank (l := cs.reverse)).reverse
  rwa [List.reverse_reverse] at h

theorem sublist_trim (cs : List Char) : (trim cs).Sublist cs :=
  (sublist_trimEnd _).trans (sublist_trimStart cs)

theorem sublist_of_word (h : word? w cs = some rest) : rest.Sublist cs := by
  obtain rfl : w ++ rest = cs := List.isPrefixOf?_eq_some_iff_append_eq.mp h
  exact List.sublist_append_right _ _

theorem sublist_of_blanks (h : blanks? cs = some rest) : rest.Sublist cs := by
  unfold blanks? at h
  split at h
  · split at h
    · cases h
      exact (sublist_trimStart _).trans (List.sublist_cons_self _ _)
    · cases h
  · cases h

theorem sublist_of_name (h : name? cs = some (x, rest)) : rest.Sublist cs := by
  unfold name? at h
  split at h
  · cases h
  · cases h
    exact List.dropWhile_sublist _

theorem sublist_of_quoted (h : quoted? cs = some (x, rest)) : x.Sublist cs ∧ rest.Sublist cs := by
  unfold quoted? at h
  split at h
  · split at h
    · next q text _ =>
      split at h
      · next c after hdrop =>
        cases h
        have hafter : (c :: rest).Sublist text := hdrop ▸ List.dropWhile_sublist _
        exact ⟨(List.takeWhile_sublist _).trans (List.sublist_cons_self _ _),
          ((List.sublist_cons_self c rest).trans hafter).trans (List.sublist_cons_self q text)⟩
      · cases h
    · cases h
  · cases h

theorem sublist_of_afterEquals (h : afterEquals? cs = some rest) : rest.Sublist cs := by
  unfold afterEquals? at h
  split at h
  · next text htrim =>
    have htext : text.Sublist cs :=
      (List.sublist_cons_self _ _).trans (htrim ▸ sublist_trimStart cs)
    split at h
    · cases h
    · next c value hvalue =>
      cases h
      exact (hvalue ▸ sublist_trimStart text).trans htext
  · cases h

theorem sublist_of_binding (h : binding? cs = some (x, rest)) : rest.Sublist cs := by
  simp only [binding?, Option.bind_eq_bind, Option.bind_eq_some_iff] at h
  obtain ⟨afterWord, hword, afterBlanks, hblanks, hname⟩ := h
  have hw : afterWord.Sublist cs := by
    simp only [Option.orElse_eq_orElse, Option.orElse_eq_or, Option.or_eq_some_iff] at hword
    rcases hword with hconst | ⟨-, hlet | ⟨-, hvar⟩⟩
    · exact sublist_of_word hconst
    · exact sublist_of_word hlet
    · exact sublist_of_word hvar
  exact (sublist_of_name hname).trans ((sublist_of_blanks hblanks).trans hw)

/-! ## Values and requests -/

theorem sublist_of_import (h : import? cs = some x) : x.Sublist cs := by
  simp only [import?, Option.bind_eq_bind, Option.bind_eq_some_iff] at h
  obtain ⟨text, hword, h⟩ := h
  split at h
  · next c request clause hquoted =>
    split at h
    · cases h
      have hrequest := (sublist_of_quoted hquoted).1.reverse
      rw [List.reverse_reverse] at hrequest
      exact hrequest.trans (sublist_of_word hword)
    · cases h
  · cases h

theorem sublist_of_exportBinding (h : exportBinding? cs = some (w, x)) : x.Sublist cs := by
  simp only [exportBinding?, Option.bind_eq_bind, Option.bind_eq_some_iff] at h
  obtain ⟨_, hword, _, hblanks, ⟨_, _⟩, hbinding, _, hvalue, h⟩ := h
  cases h
  exact (sublist_of_afterEquals hvalue).trans ((sublist_of_binding hbinding).trans
    ((sublist_of_blanks hblanks).trans (sublist_of_word hword)))

theorem sublist_of_exportDefault (h : exportDefault? cs = some x) : x.Sublist cs := by
  simp only [exportDefault?, Option.bind_eq_bind, Option.bind_eq_some_iff] at h
  obtain ⟨_, hword, _, hblanks, _, hdefault, value, hvalue, h⟩ := h
  have hsub := (sublist_of_blanks hvalue).trans ((sublist_of_word hdefault).trans
    ((sublist_of_blanks hblanks).trans (sublist_of_word hword)))
  cases value with
  | nil => cases h
  | cons c value =>
    cases h
    exact hsub

theorem sublist_of_exportsAssign (h : exportsAssign? cs = some (w, x)) : x.Sublist cs := by
  simp only [exportsAssign?, Option.bind_eq_bind, Option.bind_eq_some_iff] at h
  obtain ⟨_, hword, ⟨_, _⟩, hname, _, hvalue, h⟩ := h
  cases h
  have hstart : ((word? "module.".toList cs).getD cs).Sublist cs := by
    cases hmodule : word? "module.".toList cs with
    | none => exact .refl _
    | some rest => exact sublist_of_word hmodule
  exact (sublist_of_afterEquals hvalue).trans ((sublist_of_name hname).trans
    ((sublist_of_word hword).trans hstart))

theorem sublist_of_moduleExports (h : moduleExports? cs = some x) : x.Sublist cs := by
  simp only [moduleExports?, Option.bind_eq_bind, Option.bind_eq_some_iff] at h
  obtain ⟨_, hword, hvalue⟩ := h
  exact (sublist_of_afterEquals hvalue).trans (sublist_of_word hword)

theorem sublist_of_declaration (h : declaration? cs = some x) : x.Sublist cs := by
  simp only [declaration?, Option.bind_eq_bind, Option.bind_eq_some_iff] at h
  obtain ⟨⟨_, _⟩, hbinding, hvalue⟩ := h
  exact (sublist_of_afterEquals hvalue).trans (sublist_of_binding hbinding)

theorem sublist_of_require {property : Option (List Char)} (h : require? cs = some (x, property)) :
    x.Sublist cs := by
  simp only [require?, Option.bind_eq_bind, Option.bind_eq_some_iff] at h
  obtain ⟨_, hword, ⟨request, rest⟩, hquoted, h⟩ := h
  have hsub := (sublist_of_quoted hquoted).1.trans ((sublist_trimStart _).trans (sublist_of_word hword))
  cases request with
  | nil => cases h
  | cons c request =>
    dsimp only at h
    repeat' split at h
    all_goals cases h
    all_goals exact hsub

end Form

/-! ## Statements and programs -/

theorem sublist_of_expr {text : List Char} {e : Expr} (h : Expr.scan text = .ok e) :
    ∀ request ∈ e.request?, request.toList.Sublist text := by
  intro request hr
  simp only [Expr.scan] at h
  split at h
  · next found property hrequire =>
    cases h
    cases hr
    rw [String.toList_ofList]
    exact (Form.sublist_of_require hrequire).trans (Form.sublist_trim text)
  · split at h <;> cases h
    cases hr

theorem sublist_of_value {text value : List Char} {make : Expr → Statement} {s : Statement}
    (hmake : ∀ e, (make e).request? = e.request?) (hvalue : value.Sublist text)
    (h : (Expr.scan value).map make = .ok s) : ∀ request ∈ s.request?, request.toList.Sublist text := by
  intro request hr
  cases he : Expr.scan value with
  | error fault =>
    rw [he] at h
    cases h
  | ok e =>
    rw [he] at h
    cases h
    exact (sublist_of_expr he request (hmake e ▸ hr)).trans hvalue

theorem sublist_of_statement {text : List Char} {s : Statement} (h : Statement.scan text = .ok s) :
    ∀ request ∈ s.request?, request.toList.Sublist text := by
  unfold Statement.scan at h
  split at h
  · next found himport =>
    cases h
    rintro request ⟨⟩
    rw [String.toList_ofList]
    exact Form.sublist_of_import himport
  split at h
  · next hexport => exact sublist_of_value (fun _ => rfl) (Form.sublist_of_exportBinding hexport) h
  split at h
  · next hexport => exact sublist_of_value (fun _ => rfl) (Form.sublist_of_exportDefault hexport) h
  split at h
  · next hassign => exact sublist_of_value (fun _ => rfl) (Form.sublist_of_exportsAssign hassign) h
  split at h
  · next hassign => exact sublist_of_value (fun _ => rfl) (Form.sublist_of_moduleExports hassign) h
  split at h
  · next hdecl => exact sublist_of_value (fun _ => rfl) (Form.sublist_of_declaration hdecl) h
  split at h
  · cases h
    rintro request ⟨⟩
  split at h
  · exact sublist_of_value (fun _ => rfl) (.refl _) h
  · cases h

theorem length_lineText (raw : List Char) : (lineText raw).length ≤ raw.length := by
  have hdrop : ∀ cs : List Char, (dropSemicolon cs).length ≤ cs.length := by
    intro cs
    unfold dropSemicolon
    split
    · next rest hrev =>
      have := congrArg List.length hrev
      simp only [List.length_reverse, List.length_cons] at this ⊢
      omega
    · exact Nat.le_refl _
  exact Nat.le_trans (Form.sublist_trimEnd _).length_le
    (Nat.le_trans (hdrop _) (Form.sublist_trim raw).length_le)

theorem length_of_scanLines {number n : Nat} {ls : List (List Char)} {statements : List Statement}
    (hn : ∀ raw ∈ ls, raw.length ≤ n) (h : scanLines number ls = .ok statements) :
    ∀ request ∈ statements.filterMap Statement.request?, request.length ≤ n := by
  induction ls generalizing number statements with
  | nil =>
    cases h
    simp
  | cons raw rest ih =>
    simp only [scanLines] at h
    split at h
    · cases h
    · next statement? hline =>
      cases hrest : scanLines (number + 1) rest with
      | error e =>
        rw [hrest] at h
        cases h
      | ok others =>
        rw [hrest] at h
        cases h
        intro request hr
        rw [List.filterMap_append] at hr
        rcases List.mem_append.mp hr with hr | hr
        · obtain ⟨s, hs, hrequest⟩ := List.mem_filterMap.mp hr
          obtain rfl : statement? = some s := by simpa using hs
          have hscan : Statement.scan (lineText raw) = .ok s := by
            simp only [scanLine] at hline
            split at hline
            · cases hline
            · cases hscan : Statement.scan (lineText raw) <;> rw [hscan] at hline <;> cases hline
              rfl
          have hlen := (sublist_of_statement hscan request hrequest).length_le
          rw [String.length_toList] at hlen
          exact Nat.le_trans hlen (Nat.le_trans (length_lineText raw) (hn raw List.mem_cons_self))
        · exact ih (fun raw hraw => hn raw (List.mem_cons_of_mem _ hraw)) hrest request hr

theorem length_of_mem_split {sep : Char} {cs piece : List Char} (h : piece ∈ Text.split sep cs) :
    piece.length ≤ cs.length := by
  induction cs generalizing piece with
  | nil => simp_all [Text.split]
  | cons c cs ih =>
    by_cases hc : c = sep
    · simp only [Text.split, hc, if_true, List.mem_cons] at h
      rcases h with rfl | h
      · simp
      · exact Nat.le_succ_of_le (ih h)
    · cases hl : Text.split sep cs with
      | nil => exact absurd hl (Text.split_ne_nil sep cs)
      | cons l ls =>
        rw [hl] at ih
        simp only [Text.split, hc, if_false, hl, List.mem_cons] at h
        rcases h with rfl | h
        · exact Nat.succ_le_succ (ih List.mem_cons_self)
        · exact Nat.le_succ_of_le (ih (List.mem_cons_of_mem _ h))

/-- No request of a program is longer than the program's source. -/
theorem length_of_scan {source : String} {p : Program} (h : Program.scan source = .ok p) :
    ∀ request ∈ p.requests, request.length ≤ source.length := by
  unfold Program.scan at h
  cases hlines : scanLines 1 (lines source) with
  | error e =>
    rw [hlines] at h
    cases h
  | ok statements =>
    rw [hlines] at h
    cases h
    refine length_of_scanLines (fun raw hraw => ?_) hlines
    rw [← String.length_toList]
    exact length_of_mem_split hraw

end ModGraph.Source

namespace ModGraph.FileSystem

/-- A text has no more characters than bytes. -/
theorem length_le_utf8ByteSize (text : String) : text.length ≤ text.utf8ByteSize := by
  have h : ∀ cs : List Char, cs.length ≤ (String.ofList cs).utf8ByteSize := by
    intro cs
    induction cs with
    | nil => exact Nat.zero_le _
    | cons c cs ih =>
      rw [String.ofList_cons, String.utf8ByteSize_append, String.utf8ByteSize_singleton]
      have := c.utf8Size_pos
      simp only [List.length_cons]
      omega
  have := h text.toList
  rwa [String.ofList_toList, String.length_toList] at this

/-- A text that was read is no longer than some file. -/
theorem length_of_readText {fs : FileSystem} {p : Path} {text : String} (h : fs.readText p = .ok text) :
    ∃ loc content, fs.nodes.get? loc = some (.file content) ∧ text.length ≤ content.size := by
  obtain ⟨loc, content, hfind, htext⟩ := readText_eq_ok h
  have hnode := (find_iff_locate.mp hfind).2
  refine ⟨loc, content, ?_, ?_⟩
  · cases loc with
    | nil => cases hnode
    | cons name above => exact hnode
  · unfold String.fromUTF8? at htext
    split at htext <;> cases htext
    exact length_le_utf8ByteSize _

end ModGraph.FileSystem
