import Mathlib.Algebra.Group.Int.Defs
import Mathlib.Data.List.Basic
import ModGraph.Json.Printer
import ModGraph.Json.Token

/-!
# Tokens of a printed text

What is printed is one token after the other, and a text that goes along with it (`Text.Along`) is read as the same
tokens, as far as it goes. If it ends inside of a token, then there is no token there, or a last one that is spoilt
(`Json.Begins`). Only a number can end early and still be one (`Json.tokens_number`).
-/

namespace ModGraph

namespace Text

variable {c : Char} {t u text tail : List Char}

/-- Two texts are the same as far as both of them go. -/
def Along (t text : List Char) : Prop := t <+: text ∨ text <+: t

theorem Along.cases (h : Along t (c :: text)) : t = [] ∨ ∃ u, t = c :: u ∧ Along u text := by
  rcases h with h | ⟨u, rfl⟩
  · rcases List.prefix_cons_iff.mp h with rfl | ⟨u, rfl, hu⟩
    · exact .inl rfl
    · exact .inr ⟨u, rfl, .inl hu⟩
  · exact .inr ⟨text ++ u, rfl, .inr ⟨u, rfl⟩⟩

theorem Along.left (h : Along t (text ++ tail)) : Along t text := by
  rcases h with h | h
  · exact List.prefix_or_prefix_of_prefix h (List.prefix_append text tail)
  · exact .inr ((List.prefix_append text tail).trans h)

theorem Along.right (h : Along (text ++ u) (text ++ tail)) : Along u tail := by
  rcases h with h | h
  · exact .inl ((List.prefix_append_right_inj text).mp h)
  · exact .inr ((List.prefix_append_right_inj text).mp h)

theorem Along.stop (h : Along t (text ++ c :: tail)) : Along t (text ++ [c]) := by
  rw [List.append_cons] at h
  exact h.left

theorem Along.append (h : Along t (text ++ tail)) : t <+: text ∨ ∃ u, t = text ++ u ∧ Along u tail := by
  rcases h.left with hp | ⟨u, rfl⟩
  · exact .inl hp
  · exact .inr ⟨u, rfl, h.right⟩

end Text

namespace Json

open Decimal (Binary64)
open Text (Along)

variable {c : Char} {s : String} {t u text tail : List Char} {l : Lexeme}

/-! ## Strings -/

theorem hexFour?_hexByte (hc : c < ' ') :
    ∃ a b, Text.hexByte c.toUInt8 = [a, b] ∧ hexFour? '0' '0' a b = some c.toNat := by
  have hlt : c.toNat < 32 := hc
  have hbyte : c.toUInt8.toNat = c.toNat := by
    show c.toNat % 256 = c.toNat
    omega
  refine ⟨_, _, rfl, ?_⟩
  rw [hbyte]
  unfold hexFour?
  rw [Text.hexValue?_hexDigit _ (by omega), Text.hexValue?_hexDigit _ (by omega)]
  show some (((0 * 16 + 0) * 16 + c.toNat / 16) * 16 + c.toNat % 16) = some c.toNat
  congr 1
  omega

/-- A short escape is read as the character that it stands for. -/
theorem scanString_short {e : Char} (he : unescape? e = some c) (h : Along t (['\\', e] ++ tail)) :
    (∃ f, (scanString none t).rest = .error f) ∨
      ∃ u, t = ['\\', e] ++ u ∧ Along u tail ∧ scanString none t = (scanString none u).cons c := by
  obtain rfl | ⟨u, rfl, h₁⟩ := h.cases
  · exact .inl ⟨_, rfl⟩
  obtain rfl | ⟨u, rfl, h₂⟩ := h₁.cases
  · exact .inl ⟨_, rfl⟩
  refine .inr ⟨u, rfl, h₂, ?_⟩
  have hu : e ≠ 'u' := by rintro rfl; cases he
  rw [scanString]
  · rw [he]
    rfl
  all_goals simp_all

/-- A long escape is read as the character that its digits stand for. -/
theorem scanString_long (hc : c < ' ')
    (h : Along t (['\\', 'u', '0', '0'] ++ Text.hexByte c.toUInt8 ++ tail)) :
    (∃ f, (scanString none t).rest = .error f) ∨
      ∃ u, t = ['\\', 'u', '0', '0'] ++ Text.hexByte c.toUInt8 ++ u ∧ Along u tail ∧
        scanString none t = (scanString none u).cons c := by
  obtain ⟨a, b, hab, hfour⟩ := hexFour?_hexByte hc
  rw [hab] at h ⊢
  obtain rfl | ⟨u, rfl, h₁⟩ := h.cases
  · exact .inl ⟨_, rfl⟩
  obtain rfl | ⟨u, rfl, h₂⟩ := h₁.cases
  · exact .inl ⟨_, rfl⟩
  obtain rfl | ⟨u, rfl, h₃⟩ := h₂.cases
  · exact .inl ⟨_, rfl⟩
  obtain rfl | ⟨u, rfl, h₄⟩ := h₃.cases
  · exact .inl ⟨_, rfl⟩
  obtain rfl | ⟨u, rfl, h₅⟩ := h₄.cases
  · exact .inl ⟨_, rfl⟩
  obtain rfl | ⟨u, rfl, h₆⟩ := h₅.cases
  · exact .inl ⟨_, rfl⟩
  refine .inr ⟨u, rfl, h₆, ?_⟩
  have hlt : c.toNat < 32 := hc
  rw [scanString, hfour]
  dsimp only
  rw [if_neg (by omega), if_neg (by omega), Char.ofNat_toNat]

/-- An escaped character is read as the character. -/
theorem scanString_escape (h : Along t (escape c ++ tail)) :
    (∃ f, (scanString none t).rest = .error f) ∨
      ∃ u, t = escape c ++ u ∧ Along u tail ∧ scanString none t = (scanString none u).cons c := by
  unfold escape at h ⊢
  split at h
  · exact scanString_short rfl h
  · exact scanString_short rfl h
  · exact scanString_short rfl h
  · exact scanString_short rfl h
  · exact scanString_short rfl h
  · exact scanString_short rfl h
  · exact scanString_short rfl h
  · next hquote hslash _ _ _ _ _ =>
    split at h
    · next hc =>
      rw [if_pos hc]
      exact scanString_long hc h
    · next hc =>
      rw [if_neg hc]
      obtain rfl | ⟨u, rfl, hu⟩ := h.cases
      · exact .inl ⟨_, rfl⟩
      refine .inr ⟨u, rfl, hu, ?_⟩
      rw [scanString]
      · rw [if_neg hc]
        rfl
      all_goals simp_all

/-- The inside of a string is read as what was escaped, with the quotation mark behind it. -/
theorem scanString_printed (cs : List Char) (h : Along t (cs.flatMap escape ++ '"' :: tail)) :
    (∃ f, (scanString none t).rest = .error f) ∨
      ∃ u, t = cs.flatMap escape ++ '"' :: u ∧ Along u tail ∧ scanString none t = ⟨.ok cs, .ok u⟩ := by
  induction cs generalizing t with
  | nil =>
    obtain rfl | ⟨u, rfl, hu⟩ := h.cases
    · exact .inl ⟨_, rfl⟩
    · exact .inr ⟨u, rfl, hu, rfl⟩
  | cons c cs ih =>
    rw [List.flatMap_cons, List.append_assoc] at h
    obtain hf | ⟨u, rfl, hu, hc⟩ := scanString_escape h
    · exact .inl hf
    rw [hc]
    obtain hf | ⟨u, rfl, hu, hcs⟩ := ih hu
    · exact .inl hf
    · refine .inr ⟨u, ?_, hu, ?_⟩
      · rw [List.flatMap_cons, List.append_assoc]
      · rw [hcs]
        rfl

/-! ## Words -/

theorem scanWord_printed (w : List Char) (h : Along t (w ++ tail)) :
    (∃ f, scanWord w t = .error f) ∨ ∃ u, t = w ++ u ∧ Along u tail ∧ scanWord w t = .ok u := by
  induction w generalizing t with
  | nil => exact .inr ⟨t, rfl, h, rfl⟩
  | cons c w ih =>
    obtain rfl | ⟨u, rfl, hu⟩ := h.cases
    · exact .inl ⟨_, rfl⟩
    rw [scanWord, if_pos rfl]
    obtain hf | ⟨u, rfl, hu', hw⟩ := ih hu
    · exact .inl hf
    · exact .inr ⟨u, rfl, hu', hw⟩

/-! ## Tokens with an end -/

/-- A text starts with a token and what is printed for it; or it ends before that, with a spoilt token if any. -/
inductive Begins (t text : List Char) (l : Lexeme) : Prop where
  | ends (h : tokens t = [])
  | spoilt (f g : Fault) (start : List Char) (h : tokens t = [⟨.bad f g, start⟩])
  | goesOn (u start : List Char) (ht : t = text ++ u) (h : tokens t = ⟨l, start⟩ :: tokens u)

theorem tokens_nil : tokens [] = [] := tokens_of_skipSpace_nil rfl

theorem tokens_cons {rest : List Char} (h : isSpace c = false) :
    tokens (c :: rest) = ⟨(lexeme c rest).1, c :: rest⟩ :: tokens (lexeme c rest).2 :=
  tokens_of_skipSpace_cons (List.dropWhile_cons_of_neg (by simp [h]))

/-- A mark is there or not. -/
theorem tokens_mark (hc : c ∈ ['[', ']', '{', '}', ',', ':']) (h : Along t (c :: text)) :
    tokens t = [] ∨ ∃ u start, t = c :: u ∧ Along u text ∧ tokens t = ⟨.mark c, start⟩ :: tokens u := by
  obtain rfl | ⟨u, rfl, hu⟩ := h.cases
  · exact .inl tokens_nil
  · have hl : lexeme c u = (.mark c, u) ∧ isSpace c = false := by
      simp only [List.mem_cons, List.not_mem_nil, or_false] at hc
      rcases hc with rfl | rfl | rfl | rfl | rfl | rfl <;> exact ⟨rfl, rfl⟩
    refine .inr ⟨u, c :: u, rfl, hu, ?_⟩
    rw [tokens_cons hl.2, hl.1]

theorem begins_mark (hc : c ∈ ['[', ']', '{', '}', ',', ':']) (h : Along t [c]) : Begins t [c] (.mark c) := by
  obtain hnil | ⟨u, start, rfl, -, htokens⟩ := tokens_mark hc h
  · exact .ends hnil
  · exact .goesOn u start rfl htokens

theorem begins_word (w : List Char) (hs : isSpace c = false)
    (hl : ∀ rest, lexeme c rest = match scanWord w rest with
      | .ok rest => (l, rest)
      | .error f => (.bad f f, []))
    (h : Along t (c :: w)) : Begins t (c :: w) l := by
  obtain rfl | ⟨u, rfl, hu⟩ := h.cases
  · exact .ends tokens_nil
  have htokens : tokens (c :: u) = ⟨(lexeme c u).1, c :: u⟩ :: tokens (lexeme c u).2 := tokens_cons hs
  rw [hl u] at htokens
  rw [← List.append_nil w] at hu
  obtain ⟨f, hf⟩ | ⟨u, rfl, -, hw⟩ := scanWord_printed w hu
  · rw [hf] at htokens
    exact .spoilt f f _ (htokens.trans (by rw [tokens_nil]))
  · rw [hw] at htokens
    exact .goesOn u _ rfl htokens

theorem lexeme_quote (rest : List Char) :
    lexeme '"' rest = match (scanString none rest).rest with
      | .ok after => (.string ((scanString none rest).text.map String.ofList), after)
      | .error f => (.bad (match (scanString none rest).text with | .error wanted => wanted | .ok _ => f) f, []) := rfl

theorem begins_string (s : String) (h : Along t (printString s)) : Begins t (printString s) (.string (.ok s)) := by
  obtain rfl | ⟨u, rfl, hu⟩ := h.cases
  · exact .ends tokens_nil
  have htokens : tokens ('"' :: u) = ⟨(lexeme '"' u).1, '"' :: u⟩ :: tokens (lexeme '"' u).2 := tokens_cons rfl
  rw [lexeme_quote] at htokens
  obtain ⟨f, hf⟩ | ⟨u, rfl, -, hs⟩ := scanString_printed s.toList hu
  · rw [hf] at htokens
    exact .spoilt _ f _ (htokens.trans (by rw [tokens_nil]))
  · rw [hs] at htokens
    refine .goesOn u ('"' :: (s.toList.flatMap escape ++ '"' :: u)) (by simp [printString]) ?_
    rw [htokens]
    simp [Except.map]

/-! ## Numbers -/

/-- An integer of 64 bits, signed or not; or the zero with a sign, which is written as an integer and is none. -/
def Number.Fits : Number → Prop
  | .integer i => -(2 : Int) ^ 63 ≤ i ∧ i < (2 : Int) ^ 64
  | .real x => x = Binary64.zero true

/-- No number goes on with a text. -/
def EndsNumber (u : List Char) : Prop := ∀ c ∈ u.head?, c = ',' ∨ c = ']' ∨ c = '}'

theorem endsNumber_nil : EndsNumber [] := fun _ hc => nomatch hc

theorem endsNumber_of_along {stop : Char} (hstop : stop ∈ [',', ']', '}']) (h : Along u [stop]) : EndsNumber u := by
  obtain rfl | ⟨u, rfl, -⟩ := h.cases
  · exact endsNumber_nil
  · rintro _ ⟨⟩
    simpa using hstop

namespace Numeral

/-- The sign of a numeral. -/
def sign (negative : Bool) : List Char := if negative then ['-'] else []

variable {ds after : List Char} {n : Numeral} {negative : Bool}

theorem digits_append (hds : ∀ d ∈ ds, isDigit d = true) (hu : EndsNumber u) : digits (ds ++ u) = ds := by
  unfold digits
  rw [List.takeWhile_append_of_pos hds]
  cases u with
  | nil => simp
  | cons c u =>
    have hc : isDigit c = false := by
      rcases hu c rfl with rfl | rfl | rfl <;> rfl
    simp [hc]

theorem afterDigits_append (hds : ∀ d ∈ ds, isDigit d = true) (hu : EndsNumber u) : afterDigits (ds ++ u) = u := by
  have hcut : digits (ds ++ u) ++ afterDigits (ds ++ u) = ds ++ u := List.takeWhile_append_dropWhile
  rw [digits_append hds hu] at hcut
  exact List.append_cancel_left hcut

theorem someDigits_append {faultAt : List Char → Fault} (hds : ∀ d ∈ ds, isDigit d = true) (hne : ds ≠ [])
    (hu : EndsNumber u) : someDigits faultAt (ds ++ u) = .ok (ds, u) := by
  have hd := digits_append hds hu
  have ha := afterDigits_append hds hu
  cases ds with
  | nil => exact absurd rfl hne
  | cons d ds =>
    rw [List.cons_append] at hd ha ⊢
    rw [someDigits, if_pos (hds d List.mem_cons_self), hd, ha]

/-- The digits before a point are all of them, unless there is a zero too many. -/
theorem scanWhole_append {r : List Char × List Char} (hds : ∀ d ∈ ds, isDigit d = true) (hne : ds ≠ [])
    (hu : EndsNumber u) (h : scanWhole (ds ++ u) = .ok r) : r = (ds, u) := by
  cases ds with
  | nil => exact absurd rfl hne
  | cons d ds =>
    by_cases hd : d = '0'
    · subst hd
      cases ds with
      | nil =>
        cases u with
        | nil => exact (Except.ok.inj h).symm
        | cons c u =>
          have hc : isDigit c = false := by
            rcases hu c rfl with rfl | rfl | rfl <;> rfl
          simp [scanWhole, hc] at h
          exact h.symm
      | cons d ds =>
        have hd : isDigit d = true := hds d (List.mem_cons_of_mem _ List.mem_cons_self)
        simp [scanWhole, hd] at h
    · have hwhole : scanWhole (d :: ds ++ u) = someDigits (.at .invalidNumber) (d :: ds ++ u) := by
        simp [scanWhole, hd]
      rw [hwhole, someDigits_append hds hne hu] at h
      exact (Except.ok.inj h).symm

theorem scanFraction_of_ends (hu : EndsNumber u) : scanFraction u = .ok (none, u) := by
  unfold scanFraction
  split
  · next rest => rcases hu '.' rfl with h | h | h <;> cases h
  · rfl

theorem scanExponent_of_ends (hu : EndsNumber u) : scanExponent u = .ok (none, u) := by
  cases u with
  | nil => rfl
  | cons c u =>
    have hc : ¬(c = 'e' ∨ c = 'E') := by
      rcases hu c rfl with rfl | rfl | rfl <;> decide
    rw [scanExponent, if_neg hc]

theorem scan_sign (negative : Bool) (cs : List Char) (hcs : cs.head? ≠ some '-') :
    scan (sign negative ++ cs) = (do
      let (whole, cs) ← scanWhole cs
      let (fraction, cs) ← scanFraction cs
      let (exponent, cs) ← scanExponent cs
      return (⟨negative, whole, fraction, exponent⟩, cs)) := by
  cases negative with
  | true => rfl
  | false =>
    cases cs with
    | nil => rfl
    | cons c cs =>
      have hc : c ≠ '-' := fun hc => hcs (congrArg some hc)
      simp [scan, sign, hc]

/-- A numeral of digits alone is read as they are written. -/
theorem scan_digits (hds : ∀ d ∈ ds, isDigit d = true) (hne : ds ≠ []) (hu : EndsNumber u)
    (h : scan (sign negative ++ (ds ++ u)) = .ok (n, after)) : n = ⟨negative, ds, none, none⟩ ∧ after = u := by
  have hhead : (ds ++ u).head? ≠ some '-' := by
    cases ds with
    | nil => exact absurd rfl hne
    | cons d ds =>
      rintro heq
      cases heq
      cases hds '-' List.mem_cons_self
  rw [scan_sign _ _ hhead] at h
  cases hw : scanWhole (ds ++ u) with
  | error f =>
    rw [hw] at h
    cases h
  | ok r =>
    obtain rfl := scanWhole_append hds hne hu hw
    simp only [hw, bind, Except.bind, scanFraction_of_ends hu, scanExponent_of_ends hu, pure, Except.pure,
      Except.ok.injEq, Prod.mk.injEq] at h
    exact ⟨h.1.symm, h.2.symm⟩

/-- A significand that fits 64 bits takes up all of its digits. -/
theorem accumulate_eq (cs : List Char) (m : Nat) (h : Nat.ofDigitChars 10 cs m ≤ maxWord) :
    accumulate m cs = (Nat.ofDigitChars 10 cs m, 0) := by
  induction cs generalizing m with
  | nil => rfl
  | cons c cs ih =>
    have hnext : 10 * m + (c.toNat - '0'.toNat) = m * 10 + digitValue c := by
      rw [Nat.mul_comm]
      rfl
    have hle : ∀ (cs : List Char) (k : Nat), k ≤ Nat.ofDigitChars 10 cs k := by
      intro cs
      induction cs with
      | nil => exact fun k => Nat.le_refl k
      | cons c cs ih =>
        intro k
        rw [Nat.ofDigitChars_cons]
        exact Nat.le_trans (by omega) (ih _)
    rw [Nat.ofDigitChars_cons, hnext] at h ⊢
    rw [accumulate, if_pos (Nat.le_trans (hle cs _) h), ih _ h]

theorem isDigit_toDigits {k : Nat} : ∀ d ∈ Nat.toDigits 10 k, isDigit d = true :=
  fun _ hd => Nat.isDigit_of_mem_toDigits (by decide) (by decide) hd

/-- The digits of an integer of 64 bits have it as their value. -/
theorem value_integer {i : Int} (h : (Number.integer i).Fits) : ∃ negative k,
    printInteger i = sign negative ++ Nat.toDigits 10 k ∧
      value ⟨negative, Nat.toDigits 10 k, none, none⟩ = .ok (.integer i) := by
  obtain ⟨hlow, hhigh⟩ := h
  have hdigits : ∀ k : Nat, k ≤ maxWord → accumulate 0 (Nat.toDigits 10 k) = (k, 0) := fun k hk => by
    rw [accumulate_eq _ _ (by rwa [Nat.ofDigitChars_ten_toDigits]), Nat.ofDigitChars_ten_toDigits]
  have hword : maxWord = 18446744073709551615 := rfl
  cases i with
  | ofNat k =>
    have hk : k ≤ maxWord := by
      simp only [Int.ofNat_eq_natCast] at hhigh
      omega
    refine ⟨false, k, rfl, ?_⟩
    simp [value, hdigits k hk]
  | negSucc k =>
    have hk : k + 1 ≤ 9223372036854775808 := by omega
    refine ⟨true, k + 1, rfl, ?_⟩
    have hvalue : value ⟨true, Nat.toDigits 10 (k + 1), none, none⟩ = .ok (.integer (-((k + 1 : Nat) : Int))) := by
      simp [value, hdigits (k + 1) (by omega), hk]
    exact hvalue

end Numeral

/-- Where a number starts, there is a token for as much as can be scanned. -/
theorem tokens_numeral (rest : List Char) (hc : c = '-' ∨ isDigit c = true) :
    tokens (c :: rest) = match Numeral.scan (c :: rest) with
      | .ok (n, after) => ⟨.number (n.value.mapError fun k =>
          .before .numberOutOfRange ((c :: rest).drop ((c :: rest).length - after.length - k))), c :: rest⟩ :: tokens after
      | .error f => [⟨.bad f { f with cause := .invalidNumber }, c :: rest⟩] := by
  have hspace : isSpace c = false := by
    cases hs : isSpace c with
    | false => rfl
    | true =>
      simp only [isSpace, Bool.or_eq_true, beq_iff_eq] at hs
      rcases hs with ((rfl | rfl) | rfl) | rfl <;> simp [isDigit] at hc
  rw [tokens_cons hspace]
  have hl : lexeme c rest = match Numeral.scan (c :: rest) with
      | .ok (n, after) => (.number (n.value.mapError fun k =>
          .before .numberOutOfRange ((c :: rest).drop ((c :: rest).length - after.length - k))), after)
      | .error f => (.bad f { f with cause := .invalidNumber }, []) := by
    unfold lexeme
    split
    all_goals first | (exfalso; revert hc; decide) | skip
    exact if_pos hc
  rw [hl]
  cases Numeral.scan (c :: rest) with
  | error f => exact congrArg _ tokens_nil
  | ok r => rfl

/-- A text in which a number does not end has one token. -/
theorem tokens_of_unfinished {rest : List Char} (hc : c = '-' ∨ isDigit c = true)
    (h : ∀ {n after}, Numeral.scan (c :: rest) = .ok (n, after) → after = []) :
    ∃ token, tokens (c :: rest) = [token] ∧ ∀ c, token.lexeme ≠ .mark c := by
  have htokens := tokens_numeral rest hc
  cases hscan : Numeral.scan (c :: rest) with
  | error f =>
    rw [hscan] at htokens
    exact ⟨_, htokens, nofun⟩
  | ok r =>
    obtain ⟨n, after⟩ := r
    obtain rfl := h hscan
    rw [hscan] at htokens
    exact ⟨_, htokens.trans (congrArg _ tokens_nil), nofun⟩

variable {ds : List Char} {negative : Bool} {n : Number} {stop : Char}

theorem sign_cons (negative : Bool) (hds : ∀ d ∈ ds, isDigit d = true) (hne : ds ≠ []) (u : List Char) :
    ∃ c rest, Numeral.sign negative ++ (ds ++ u) = c :: rest ∧ (c = '-' ∨ isDigit c = true) := by
  cases negative with
  | true => exact ⟨'-', ds ++ u, rfl, .inl rfl⟩
  | false =>
    cases ds with
    | nil => exact absurd rfl hne
    | cons d ds => exact ⟨d, ds ++ u, rfl, .inr (hds d List.mem_cons_self)⟩

/-- A numeral of digits alone is one token, if there is any. -/
theorem tokens_digits (negative : Bool) (hds : ∀ d ∈ ds, isDigit d = true) (hne : ds ≠ []) (hu : EndsNumber u) :
    (∃ f g start, tokens (Numeral.sign negative ++ (ds ++ u)) = [⟨.bad f g, start⟩]) ∨
      ∃ k start, tokens (Numeral.sign negative ++ (ds ++ u)) =
        ⟨.number ((Numeral.value ⟨negative, ds, none, none⟩).mapError k), start⟩ :: tokens u := by
  obtain ⟨c, rest, hcons, hc⟩ := sign_cons negative hds hne u
  have htokens := tokens_numeral rest hc
  rw [← hcons] at htokens
  cases hscan : Numeral.scan (Numeral.sign negative ++ (ds ++ u)) with
  | error f =>
    rw [hscan] at htokens
    exact .inl ⟨_, _, _, htokens⟩
  | ok r =>
    obtain ⟨n, after⟩ := r
    obtain ⟨rfl, rfl⟩ := Numeral.scan_digits hds hne hu hscan
    rw [hscan] at htokens
    exact .inr ⟨_, _, htokens⟩

/-- The first digits of a numeral are a token of their own. -/
theorem tokens_firstDigits (hds : ∀ d ∈ ds, isDigit d = true) (h : t <+: Numeral.sign negative ++ ds) :
    tokens t = [] ∨ ∃ token, tokens t = [token] ∧ ∀ c, token.lexeme ≠ .mark c := by
  have hfirst : ∀ t, t <+: ds → t ≠ [] →
      ∃ token, tokens (Numeral.sign negative ++ t) = [token] ∧ ∀ c, token.lexeme ≠ .mark c := by
    intro t ht hne
    have hdt : ∀ d ∈ t, isDigit d = true := fun d hd => hds d (ht.mem hd)
    obtain ⟨c, rest, hcons, hc⟩ := sign_cons negative hdt hne []
    rw [List.append_nil] at hcons
    rw [hcons]
    refine tokens_of_unfinished hc fun {n after} hscan => ?_
    rw [← hcons, ← List.append_nil t] at hscan
    exact (Numeral.scan_digits hdt hne endsNumber_nil hscan).2
  cases negative with
  | false =>
    by_cases hne : t = []
    · exact .inl (hne ▸ tokens_nil)
    · exact .inr (hfirst t h hne)
  | true =>
    obtain rfl | ⟨t, rfl, ht⟩ := List.prefix_cons_iff.mp h
    · exact .inl tokens_nil
    by_cases hne : t = []
    · subst hne
      exact .inr (tokens_of_unfinished (.inl rfl) fun {n after} hscan => by cases hscan)
    · exact .inr (hfirst t ht hne)

/-- The zero with a sign is printed with a point, and read as itself. -/
theorem tokens_zero (hstop : stop ∈ [',', ']', '}']) (h : Along t (['-', '0', '.', '0'] ++ [stop])) :
    Begins t ['-', '0', '.', '0'] (.number (.ok (.real (Binary64.zero true)))) ∨
      ∃ token, tokens t = [token] ∧ ∀ c, token.lexeme ≠ .mark c := by
  obtain rfl | ⟨u, rfl, h₁⟩ := h.cases
  · exact .inl (.ends tokens_nil)
  obtain rfl | ⟨u, rfl, h₂⟩ := h₁.cases
  · exact .inr (tokens_of_unfinished (.inl rfl) fun {n after} hscan => by cases hscan)
  obtain rfl | ⟨u, rfl, h₃⟩ := h₂.cases
  · refine .inr (tokens_of_unfinished (.inl rfl) fun {n after} hscan => ?_)
    cases hscan
    rfl
  obtain rfl | ⟨u, rfl, h₄⟩ := h₃.cases
  · exact .inr (tokens_of_unfinished (.inl rfl) fun {n after} hscan => by cases hscan)
  have hu : EndsNumber u := endsNumber_of_along hstop h₄
  have hdigits : Numeral.someDigits (.at .invalidNumber) ('0' :: u) = .ok (['0'], u) :=
    show Numeral.someDigits _ (['0'] ++ u) = _ from Numeral.someDigits_append (by simp [isDigit]) (by simp) hu
  have hscan : Numeral.scan ('-' :: '0' :: '.' :: '0' :: u) = .ok (⟨true, ['0'], some ['0'], none⟩, u) := by
    have hsign := Numeral.scan_sign true ('0' :: '.' :: '0' :: u) nofun
    refine hsign.trans ?_
    simp [Numeral.scanWhole, isDigit, Numeral.scanFraction, hdigits, Numeral.scanExponent_of_ends hu, bind, Except.bind,
      Except.map, pure, Except.pure]
  have htokens := tokens_numeral (c := '-') ('0' :: '.' :: '0' :: u) (.inl rfl)
  rw [hscan] at htokens
  exact .inl (.goesOn u _ rfl htokens)

/-- A number is one token, and so is what there is of it. -/
theorem tokens_number (hn : n.Fits) (hstop : stop ∈ [',', ']', '}']) (h : Along t (n.print ++ [stop])) :
    Begins t n.print (.number (.ok n)) ∨ ∃ token, tokens t = [token] ∧ ∀ c, token.lexeme ≠ .mark c := by
  cases n with
  | real x =>
    obtain rfl : x = Binary64.zero true := hn
    exact tokens_zero hstop h
  | integer i =>
    obtain ⟨negative, k, hprint, hvalue⟩ := Numeral.value_integer hn
    have hp : (Number.integer i).print = Numeral.sign negative ++ Nat.toDigits 10 k := hprint
    rw [hp] at h ⊢
    obtain hcut | ⟨u, rfl, hu⟩ := h.append
    · obtain hnil | hone := tokens_firstDigits Numeral.isDigit_toDigits hcut
      · exact .inl (.ends hnil)
      · exact .inr hone
    · have hassoc : Numeral.sign negative ++ Nat.toDigits 10 k ++ u = Numeral.sign negative ++ (Nat.toDigits 10 k ++ u) :=
        List.append_assoc _ _ _
      rw [hassoc]
      obtain ⟨f, g, start, hbad⟩ | ⟨k, start, htoken⟩ :=
        tokens_digits negative Numeral.isDigit_toDigits Nat.toDigits_ne_nil (endsNumber_of_along hstop hu)
      · exact .inr ⟨_, hbad, nofun⟩
      · rw [hvalue] at htoken
        exact .inl (.goesOn u start hassoc.symm htoken)

end Json
end ModGraph
