import LedgerClient.Json.Reader
import LedgerClient.Json.Writer
import Mathlib.Tactic.Common

/-!
# Written JSON is read back

A value that is written, in any layout of blanks, is read back as it was
(`Json.ofChars?_write`).  The argument goes by way of the tokens of a value: the written text is cut
into them (`Json.scans_write`), and a descent over them finds the value again
(`Json.value_tokens`).  A number has to stand before something that cannot belong to it
(`Token.Delimited`), and so does every number that is written within a value.
-/

namespace LedgerClient

namespace Numeral

theorem valueOf_digitsOf (n : Nat) : valueOf (digitsOf n) = n := by
  have h := Nat.ofDigitChars_ten_toDigits (n := n)
  rw [Nat.ofDigitChars_eq_foldl] at h
  exact h

theorem isDigit_of_mem_digitsOf {n : Nat} {c : Char} (h : c ∈ digitsOf n) : c.isDigit = true :=
  Nat.isDigit_of_mem_toDigits (by decide) (by decide) h

theorem digitsOf_ne_nil (n : Nat) : digitsOf n ≠ [] := Nat.toDigits_ne_nil

theorem head?_digitsOf {n : Nat} (h : 0 < n) : (digitsOf n).head? ≠ some '0' := by
  induction n using Nat.strongRecOn with
  | ind n ih =>
    rw [digitsOf, Nat.toDigits_eq_if (by decide)]
    split_ifs with hlt
    · have small : ∀ n < 10, 0 < n → [n.digitChar].head? ≠ some '0' := by decide
      exact small n hlt h
    · have hfront := ih (n / 10) (by omega) (by omega)
      rw [digitsOf] at hfront
      rw [List.head?_append]
      cases hd : Nat.toDigits 10 (n / 10) with
      | nil => exact absurd hd Nat.toDigits_ne_nil
      | cons d ds =>
        rw [hd] at hfront
        exact hfront

theorem not_padded_digitsOf (n : Nat) :
    ¬ (1 < (digitsOf n).length ∧ (digitsOf n).head? = some '0') := by
  rintro ⟨hlength, hhead⟩
  rcases Nat.eq_zero_or_pos n with rfl | hpos
  · simp [digitsOf, Nat.toDigits_zero] at hlength
  · exact head?_digitsOf hpos hhead

end Numeral

namespace Json

namespace Token

/-! ## Strings -/

theorem pieces_letter {e c : Char} (he : e ≠ 'u') (hc : escapeLetter? e = some c)
    (cs : List Char) :
    pieces ('\\' :: e :: cs) = (pieces cs).map fun p => (.char c :: p.1, p.2) := by
  rw [pieces.eq_4 _ _ fun _ _ _ _ _ h _ => he h, hc]
  cases pieces cs <;> rfl

theorem pieces_plain {c : Char} (hquote : c ≠ '"') (hslash : c ≠ '\\') (hc : ¬ c.toNat < 32)
    (cs : List Char) : pieces (c :: cs) = (pieces cs).map fun p => (.char c :: p.1, p.2) := by
  rw [pieces.eq_5 _ _ hquote (fun _ _ _ _ _ h _ => hslash h) fun _ _ h _ => hslash h,
    if_neg (not_or.2 ⟨hc, hslash⟩)]
  cases pieces cs <;> rfl

theorem fourHex?_control :
    ∀ n < 32, fourHex? '0' '0' (Bytes.hexDigit (n / 16)) (Bytes.hexDigit (n % 16)) = some n := by
  decide

theorem escaped_toNat {c : Char} (hc : c.toNat < 32) : escaped c.toNat = .char c := by
  rw [escaped, if_neg (by omega), Char.ofNat_toNat]

/-- Whatever way a character is written in a string, it is read back. -/
theorem pieces_escape (c : Char) (cs : List Char) :
    pieces (escape c ++ cs) = (pieces cs).map fun p => (.char c :: p.1, p.2) := by
  have toNat_eq : ∀ n, c.toNat = n → c = Char.ofNat n := fun n h => by
    rw [← h, Char.ofNat_toNat]
  unfold escape
  split_ifs with hquote hslash h₈ htab hline h₁₂ hreturn hcontrol
  · subst hquote
    exact pieces_letter (by decide) rfl cs
  · subst hslash
    exact pieces_letter (by decide) rfl cs
  · rw [toNat_eq 8 h₈]
    exact pieces_letter (by decide) rfl cs
  · subst htab
    exact pieces_letter (by decide) rfl cs
  · subst hline
    exact pieces_letter (by decide) rfl cs
  · rw [toNat_eq 12 h₁₂]
    exact pieces_letter (by decide) rfl cs
  · subst hreturn
    exact pieces_letter (by decide) rfl cs
  · simp only [List.cons_append, List.nil_append]
    rw [pieces, fourHex?_control _ hcontrol]
    cases pieces cs with
    | none => rfl
    | some p => exact congrArg (fun x => some (x :: p.1, p.2)) (escaped_toNat hcontrol)
  · exact pieces_plain hquote hslash hcontrol cs

theorem pieces_escapes (cs rest : List Char) :
    pieces (cs.flatMap escape ++ '"' :: rest) = some (cs.map .char, rest) := by
  induction cs with
  | nil => rfl
  | cons c cs ih =>
    rw [List.flatMap_cons, List.append_assoc, pieces_escape, ih]
    rfl

theorem join_chars (cs : List Char) : join (cs.map .char) = some cs := by
  induction cs with
  | nil => rfl
  | cons c cs ih =>
    rw [List.map_cons, join, ih]
    rfl

theorem first_quote (s : Option String) (rest : List Char) :
    first (quote s ++ rest) = some (.text s, rest) := by
  cases s with
  | none => rfl
  | some s =>
    have h := pieces_escapes s.toList rest
    simp only [quote, List.cons_append, List.append_assoc, List.nil_append, first, h,
      Option.map_some, join_chars, String.ofList_toList]

/-! ## Numbers -/

/-- What can follow a number's digits and still belong to it. -/
def prolongs (c : Char) : Bool := c.isDigit || c = '.' || c = 'e' || c = 'E'

/-- A text in front of which a number is over. -/
def Delimited (cs : List Char) : Prop := ∀ c ∈ cs.head?, prolongs c = false

theorem delimited_nil : Delimited [] := by
  intro c hc
  cases hc

theorem delimited_cons {c : Char} {cs : List Char} (h : prolongs c = false) :
    Delimited (c :: cs) := by
  intro c' hc'
  obtain rfl := Option.some.inj hc'
  exact h

/-- Digits are cut off where something else follows. -/
theorem digits_append {ds cs : List Char} (hds : ∀ c ∈ ds, c.isDigit = true)
    (hcs : ∀ c ∈ cs.head?, c.isDigit = false) : digits (ds ++ cs) = (ds, cs) := by
  have hnone : cs.takeWhile Char.isDigit = [] ∧ cs.dropWhile Char.isDigit = cs := by
    cases cs with
    | nil => exact ⟨rfl, rfl⟩
    | cons c cs =>
      have hc : c.isDigit = false := hcs c rfl
      simp [hc]
  rw [digits, List.takeWhile_append_of_pos hds, List.dropWhile_append_of_pos hds, hnone.1,
    hnone.2, List.append_nil]

theorem not_isDigit_head {cs : List Char} (h : Delimited cs) :
    ∀ c ∈ cs.head?, c.isDigit = false := by
  intro c hc
  have := h c hc
  simp only [prolongs, Bool.or_eq_false_iff] at this
  exact this.1.1.1

/-- The digits after a point, with the point if there are any. -/
def fractionText (ds : List Char) : List Char := if ds.isEmpty then [] else '.' :: ds

theorem fraction_append {ds cs : List Char} (hds : ∀ c ∈ ds, c.isDigit = true)
    (hdigit : ∀ c ∈ cs.head?, c.isDigit = false) (hpoint : cs.head? ≠ some '.') :
    fraction (fractionText ds ++ cs) = some (ds, cs) := by
  cases ds with
  | nil =>
    cases cs with
    | nil => rfl
    | cons c cs =>
      have hc : c ≠ '.' := fun h => hpoint (h ▸ rfl)
      exact fraction.eq_2 _ fun _ h => hc (List.cons.inj h).1
  | cons d ds =>
    have hcut := digits_append hds hdigit
    change fraction ('.' :: (d :: ds ++ cs)) = _
    simp only [fraction, hcut, List.isEmpty_cons, Bool.false_eq_true, if_false]

theorem exponent_append {e : Option (Bool × Nat)} {cs : List Char} (h : Delimited cs) :
    exponent (Numeral.exponentText e ++ cs) = some (e, cs) := by
  cases e with
  | none =>
    cases cs with
    | nil => rfl
    | cons c cs =>
      have hc := h c rfl
      simp only [prolongs, Bool.or_eq_false_iff, decide_eq_false_iff_not] at hc
      exact if_neg (not_or.2 ⟨hc.1.2, hc.2⟩)
  | some p =>
    obtain ⟨down, n⟩ := p
    have hcut : digits (Numeral.digitsOf n ++ cs) = (Numeral.digitsOf n, cs) :=
      digits_append (fun _ => Numeral.isDigit_of_mem_digitsOf) (not_isDigit_head h)
    have hsome : (Numeral.digitsOf n).isEmpty = false := by
      simp [Numeral.digitsOf_ne_nil n]
    cases down <;>
      simp [Numeral.exponentText, exponent, exponentSign, hcut, hsome, Numeral.valueOf_digitsOf]

/-- What stands after the whole part of a number does not begin with a digit. -/
theorem not_isDigit_tail (ds : List Char) (e : Option (Bool × Nat)) {cs : List Char}
    (h : Delimited cs) :
    ∀ c ∈ (fractionText ds ++ (Numeral.exponentText e ++ cs)).head?, c.isDigit = false := by
  cases ds with
  | cons d ds =>
    rintro c ⟨⟩
    rfl
  | nil =>
    cases e with
    | none => exact not_isDigit_head h
    | some p =>
      rintro c ⟨⟩
      rfl

theorem not_point_exponent {cs : List Char} {e : Option (Bool × Nat)} (h : Delimited cs) :
    (Numeral.exponentText e ++ cs).head? ≠ some '.' := by
  cases e with
  | none =>
    intro hc
    have := h '.' hc
    simp [prolongs] at this
  | some p => simp [Numeral.exponentText]

theorem unsigned_append (negative : Bool) (whole : Nat) (e : Option (Bool × Nat))
    {ds cs : List Char} (hds : ∀ c ∈ ds, c.isDigit = true)
    (h : Delimited cs) :
    unsigned negative
        (Numeral.digitsOf whole ++ (fractionText ds ++ (Numeral.exponentText e ++ cs))) =
      some (⟨negative, whole, ds, e⟩, cs) := by
  have hwhole := digits_append (fun _ => Numeral.isDigit_of_mem_digitsOf (n := whole))
    (not_isDigit_tail ds e h)
  have hpart : fraction (fractionText ds ++ (Numeral.exponentText e ++ cs)) =
      some (ds, Numeral.exponentText e ++ cs) :=
    fraction_append hds (not_isDigit_tail [] e h) (not_point_exponent h)
  have hok : ¬ ((Numeral.digitsOf whole).isEmpty = true ∨
      1 < (Numeral.digitsOf whole).length ∧ (Numeral.digitsOf whole).head? = some '0') := by
    simpa [Numeral.digitsOf_ne_nil whole] using Numeral.not_padded_digitsOf whole
  simp only [unsigned, hwhole, if_neg hok, hpart, Option.bind_eq_bind, Option.bind_some,
    exponent_append h, Numeral.valueOf_digitsOf]
  rfl

/-- A text that begins with a digit begins with a number without a sign. -/
theorem first_of_digit {c : Char} (hc : c.isDigit = true) (cs : List Char) :
    first (c :: cs) = (unsigned false (c :: cs)).map fun p => (.number p.1, p.2) := by
  have hbounds : 48 ≤ c.toNat ∧ c.toNat ≤ 57 := by
    simpa [Char.isDigit, UInt32.le_iff_toNat_le] using hc
  rw [← Char.ofNat_toNat c]
  generalize c.toNat = n at hbounds
  obtain rfl | rfl | rfl | rfl | rfl | rfl | rfl | rfl | rfl | rfl :
      n = 48 ∨ n = 49 ∨ n = 50 ∨ n = 51 ∨ n = 52 ∨ n = 53 ∨ n = 54 ∨ n = 55 ∨ n = 56 ∨ n = 57 := by
    omega
  all_goals rfl

/-- A number in front of a text that cannot prolong it is read back. -/
theorem first_text {n : Numeral} {cs : List Char} (hn : ∀ c ∈ n.fraction, c.isDigit = true)
    (h : Delimited cs) : first (n.text ++ cs) = some (.number n, cs) := by
  obtain ⟨negative, whole, ds, e⟩ := n
  have htext : Numeral.text ⟨negative, whole, ds, e⟩ ++ cs = (if negative then ['-'] else []) ++
      (Numeral.digitsOf whole ++ (fractionText ds ++ (Numeral.exponentText e ++ cs))) := by
    simp only [Numeral.text, fractionText, List.append_assoc]
  have hcut := unsigned_append negative whole e hn h
  rw [htext]
  cases negative with
  | true => exact congrArg (Option.map fun p => (Token.number p.1, p.2)) hcut
  | false =>
    rw [if_neg Bool.false_ne_true, List.nil_append]
    cases hd : Numeral.digitsOf whole with
    | nil => exact absurd hd (Numeral.digitsOf_ne_nil whole)
    | cons d rest =>
      have hdigit : d.isDigit = true :=
        Numeral.isDigit_of_mem_digitsOf (n := whole) (hd ▸ List.mem_cons_self)
      rw [hd, List.cons_append] at hcut
      rw [List.cons_append, first_of_digit hdigit, hcut]
      rfl

/-! ## Cutting a text into tokens -/

/-- A text is cut into the given tokens. -/
def Scans (cs : List Char) (ts : List Token) : Prop :=
  ∀ fuel, cs.length < fuel → scanWith fuel cs = some ts

theorem Scans.scan {cs : List Char} {ts : List Token} (h : Scans cs ts) : scan cs = some ts :=
  h _ (Nat.lt_succ_self _)

theorem scans_nil : Scans [] [] := by
  intro fuel h
  cases fuel with
  | zero => cases h
  | succ fuel => rfl

theorem Scans.blank {c : Char} {cs : List Char} {ts : List Token} (hc : isBlank c = true)
    (h : Scans cs ts) : Scans (c :: cs) ts := by
  intro fuel hfuel
  cases fuel with
  | zero => cases hfuel
  | succ fuel =>
    rw [scanWith, if_pos hc]
    exact h fuel (Nat.lt_of_succ_lt_succ hfuel)

theorem Scans.blanks {bs cs : List Char} {ts : List Token} (hbs : ∀ c ∈ bs, isBlank c = true)
    (h : Scans cs ts) : Scans (bs ++ cs) ts := by
  induction bs with
  | nil => exact h
  | cons c bs ih =>
    rw [List.forall_mem_cons] at hbs
    exact (ih hbs.2).blank hbs.1

theorem Scans.token {c : Char} {cs rest : List Char} {t : Token} {ts : List Token}
    (hc : isBlank c = false) (ht : first (c :: cs) = some (t, rest))
    (hlength : rest.length ≤ cs.length) (h : Scans rest ts) : Scans (c :: cs) (t :: ts) := by
  intro fuel hfuel
  cases fuel with
  | zero => cases hfuel
  | succ fuel =>
    have hrest : scanWith fuel rest = some ts :=
      h fuel (Nat.lt_of_le_of_lt hlength (Nat.lt_of_succ_lt_succ hfuel))
    rw [scanWith, if_neg (by simp [hc]), ht, Option.bind_eq_bind, Option.bind_some]
    simp only [hrest]
    rfl

/-- A token that is written with at least one character, the first of them not a blank. -/
theorem Scans.append {t : Token} {text cs : List Char} {ts : List Token}
    (htext : ∃ c rest, text = c :: rest ∧ isBlank c = false)
    (ht : first (text ++ cs) = some (t, cs)) (h : Scans cs ts) : Scans (text ++ cs) (t :: ts) := by
  obtain ⟨c, rest, rfl, hc⟩ := htext
  refine Scans.token hc ht ?_ h
  change cs.length ≤ (rest ++ cs).length
  simp

end Token

/-! ## The tokens of a value -/

mutual

/-- The tokens of a value. -/
def tokens : Json → List Token
  | .null => [.null]
  | .bool b => [.bool b]
  | .number n => [.number n]
  | .text s => [.text s]
  | .array [] => [.openArray, .closeArray]
  | .array (j :: js) => .openArray :: tokens j ++ itemTokens js
  | .object [] => [.openObject, .closeObject]
  | .object ((name, j) :: fs) => .openObject :: .text name :: .colon :: tokens j ++ fieldTokens fs

/-- The tokens of the items after the first, and the closing bracket. -/
def itemTokens : List Json → List Token
  | [] => [.closeArray]
  | j :: js => .comma :: tokens j ++ itemTokens js

/-- The tokens of the fields after the first, and the closing brace. -/
def fieldTokens : List (Option String × Json) → List Token
  | [] => [.closeObject]
  | (name, j) :: fs => .comma :: .text name :: .colon :: tokens j ++ fieldTokens fs

end

/-- A number that a text can hold: its fraction consists of digits. -/
def Token.Sound : Token → Prop
  | .number n => ∀ c ∈ n.fraction, c.isDigit = true
  | _ => True

/-- A value in which all numbers can be written. -/
def Sound (j : Json) : Prop := ∀ t ∈ tokens j, t.Sound

/-! ### Values in which all numbers can be written -/

theorem sound_null : Sound .null := by simp [Sound, tokens, Token.Sound]

theorem sound_text (s : Option String) : Sound (.text s) := by simp [Sound, tokens, Token.Sound]

theorem sound_ofNat (n : Nat) : Sound (.ofNat n) := by
  simp [Sound, ofNat, Numeral.ofNat, tokens, Token.Sound]

theorem sound_itemTokens {js : List Json} (h : ∀ j ∈ js, j.Sound) :
    ∀ t ∈ itemTokens js, t.Sound := by
  induction js with
  | nil => simp [itemTokens, Token.Sound]
  | cons j js ih =>
    rw [List.forall_mem_cons] at h
    simp only [itemTokens, List.cons_append, List.forall_mem_cons, List.forall_mem_append]
    exact ⟨trivial, h.1, ih h.2⟩

theorem sound_array {js : List Json} (h : ∀ j ∈ js, j.Sound) : Sound (.array js) := by
  cases js with
  | nil => simp [Sound, tokens, Token.Sound]
  | cons j js =>
    rw [List.forall_mem_cons] at h
    simp only [Sound, tokens, List.cons_append, List.forall_mem_cons, List.forall_mem_append]
    exact ⟨trivial, h.1, sound_itemTokens h.2⟩

theorem sound_fieldTokens {fs : List (Option String × Json)} (h : ∀ f ∈ fs, f.2.Sound) :
    ∀ t ∈ fieldTokens fs, t.Sound := by
  induction fs with
  | nil => simp [fieldTokens, Token.Sound]
  | cons f fs ih =>
    rw [List.forall_mem_cons] at h
    simp only [fieldTokens, List.cons_append, List.forall_mem_cons, List.forall_mem_append]
    exact ⟨trivial, trivial, trivial, h.1, ih h.2⟩

theorem sound_object {fs : List (Option String × Json)} (h : ∀ f ∈ fs, f.2.Sound) :
    Sound (.object fs) := by
  cases fs with
  | nil => simp [Sound, tokens, Token.Sound]
  | cons f fs =>
    rw [List.forall_mem_cons] at h
    simp only [Sound, tokens, List.cons_append, List.forall_mem_cons, List.forall_mem_append]
    exact ⟨trivial, trivial, trivial, h.1, sound_fieldTokens h.2⟩

theorem sound_ofList {α : Type} {f : α → Json} {xs : List α} (h : ∀ x ∈ xs, (f x).Sound) :
    (ofList f xs).Sound :=
  sound_array (List.forall_mem_map.2 h)

theorem sound_ofOption {α : Type} {f : α → Json} {x : Option α}
    (h : ∀ a, x = some a → (f a).Sound) : (ofOption f x).Sound := by
  cases x with
  | none => exact sound_null
  | some a => exact h a rfl

theorem sound_ofFields {fs : List (String × Json)} (h : ∀ f ∈ fs, f.2.Sound) :
    (ofFields fs).Sound :=
  sound_object (List.forall_mem_map.2 h)

/-! ### Layouts -/

/-- A layout that puts in nothing but blanks. -/
structure Layout.Blank (layout : Layout) : Prop where
  beforeItem : ∀ depth, ∀ c ∈ layout.beforeItem depth, Token.isBlank c = true
  beforeClose : ∀ depth, ∀ c ∈ layout.beforeClose depth, Token.isBlank c = true
  afterColon : ∀ c ∈ layout.afterColon, Token.isBlank c = true

theorem Layout.blank_compact : Layout.compact.Blank := by
  constructor <;> simp [Layout.compact]

theorem Layout.blank_pretty : Layout.pretty.Blank := by
  have hline : Token.isBlank '\n' = true := by decide
  have hblank : Token.isBlank ' ' = true := by decide
  constructor <;> simp [Layout.pretty, hline, hblank, List.mem_replicate]

open Token in
theorem not_prolongs_of_isBlank {c : Char} (h : isBlank c = true) : prolongs c = false := by
  simp only [isBlank, Bool.or_eq_true, decide_eq_true_eq] at h
  obtain ((rfl | rfl) | rfl) | rfl := h <;> decide

open Token in
theorem exists_text_cons (n : Numeral) :
    ∃ c rest, n.text = c :: rest ∧ isBlank c = false := by
  obtain ⟨negative, whole, ds, e⟩ := n
  cases negative with
  | true => exact ⟨_, _, rfl, by decide⟩
  | false =>
    cases hd : Numeral.digitsOf whole with
    | nil => exact absurd hd (Numeral.digitsOf_ne_nil whole)
    | cons d rest =>
      have hdigit : d.isDigit = true :=
        Numeral.isDigit_of_mem_digitsOf (n := whole) (hd ▸ List.mem_cons_self)
      refine ⟨d, _, by simp [Numeral.text, hd]; rfl, ?_⟩
      by_contra hblank
      have := not_prolongs_of_isBlank (by simpa using hblank)
      simp [prolongs, hdigit] at this

theorem delimited_blanks {bs cs : List Char} (hbs : ∀ c ∈ bs, Token.isBlank c = true)
    (h : Token.Delimited cs) : Token.Delimited (bs ++ cs) := by
  cases bs with
  | nil => exact h
  | cons c bs => exact Token.delimited_cons (not_prolongs_of_isBlank (hbs c List.mem_cons_self))

section Writing

variable {layout : Layout} (hl : layout.Blank)

include hl

/-- What stands after an item is the end of a number. -/
theorem delimited_writeItems (depth : Nat) (js : List Json) (cs : List Char) :
    Token.Delimited (writeItems layout depth js ++ cs) := by
  cases js with
  | nil =>
    rw [writeItems, List.append_assoc]
    exact delimited_blanks (hl.beforeClose depth) (Token.delimited_cons (by decide))
  | cons j js => exact Token.delimited_cons (by decide)

theorem delimited_writeFields (depth : Nat) (fs : List (Option String × Json)) (cs : List Char) :
    Token.Delimited (writeFields layout depth fs ++ cs) := by
  cases fs with
  | nil =>
    rw [writeFields, List.append_assoc]
    exact delimited_blanks (hl.beforeClose depth) (Token.delimited_cons (by decide))
  | cons f fs => exact Token.delimited_cons (by decide)

open Token in
theorem scans_name (name : Option String) {cs : List Char} {ts : List Token}
    (h : Scans cs ts) :
    Scans (quote name ++ ':' :: (layout.afterColon ++ cs)) (.text name :: .colon :: ts) := by
  refine Scans.append ?_ (first_quote name _) (.token (by decide) rfl (Nat.le_refl _)
    (h.blanks hl.afterColon))
  cases name <;> exact ⟨_, _, rfl, by decide⟩

open Token in
mutual

theorem scans_write (j : Json) (hj : ∀ t ∈ tokens j, t.Sound) (depth : Nat) {cs : List Char}
    {ts : List Token} (hcs : Delimited cs) (h : Scans cs ts) :
    Scans (write layout depth j ++ cs) (tokens j ++ ts) := by
  match j with
  | .null => exact .append ⟨_, _, rfl, by decide⟩ rfl h
  | .bool b => cases b <;> exact .append ⟨_, _, rfl, by decide⟩ rfl h
  | .number n =>
    exact .append (exists_text_cons n) (first_text (hj _ List.mem_cons_self) hcs) h
  | .text s =>
    refine .append ?_ (first_quote s cs) h
    cases s <;> exact ⟨_, _, rfl, by decide⟩
  | .array [] =>
    exact .token (by decide) rfl (Nat.le_refl _) (.token (by decide) rfl (Nat.le_refl _) h)
  | .array (j :: js) =>
    simp only [tokens, List.cons_append, List.forall_mem_cons, List.forall_mem_append] at hj
    have hitems := scans_writeItems js hj.2.2 depth h
    have hfirst := scans_write j hj.2.1 (depth + 1) (delimited_writeItems hl depth js cs) hitems
    simp only [write, tokens, List.cons_append, List.append_assoc]
    exact .token (by decide) rfl (Nat.le_refl _) (hfirst.blanks (hl.beforeItem depth))
  | .object [] =>
    exact .token (by decide) rfl (Nat.le_refl _) (.token (by decide) rfl (Nat.le_refl _) h)
  | .object ((name, j) :: fs) =>
    simp only [tokens, List.cons_append, List.forall_mem_cons, List.forall_mem_append] at hj
    have hfields := scans_writeFields fs hj.2.2.2.2 depth h
    have hfirst :=
      scans_write j hj.2.2.2.1 (depth + 1) (delimited_writeFields hl depth fs cs) hfields
    simp only [write, tokens, List.cons_append, List.append_assoc]
    exact .token (by decide) rfl (Nat.le_refl _)
      ((scans_name hl name hfirst).blanks (hl.beforeItem depth))

theorem scans_writeItems (js : List Json) (hjs : ∀ t ∈ itemTokens js, t.Sound) (depth : Nat)
    {cs : List Char} {ts : List Token} (h : Scans cs ts) :
    Scans (writeItems layout depth js ++ cs) (itemTokens js ++ ts) := by
  match js with
  | [] =>
    simp only [writeItems, itemTokens, List.append_assoc]
    exact .blanks (hl.beforeClose depth) (.token (by decide) rfl (Nat.le_refl _) h)
  | j :: js =>
    simp only [itemTokens, List.cons_append, List.forall_mem_cons, List.forall_mem_append] at hjs
    have hitems := scans_writeItems js hjs.2.2 depth h
    have hfirst := scans_write j hjs.2.1 (depth + 1) (delimited_writeItems hl depth js cs) hitems
    simp only [writeItems, itemTokens, List.cons_append, List.append_assoc]
    exact .token (by decide) rfl (Nat.le_refl _) (hfirst.blanks (hl.beforeItem depth))

theorem scans_writeFields (fs : List (Option String × Json))
    (hfs : ∀ t ∈ fieldTokens fs, t.Sound) (depth : Nat) {cs : List Char} {ts : List Token}
    (h : Scans cs ts) : Scans (writeFields layout depth fs ++ cs) (fieldTokens fs ++ ts) := by
  match fs with
  | [] =>
    simp only [writeFields, fieldTokens, List.append_assoc]
    exact .blanks (hl.beforeClose depth) (.token (by decide) rfl (Nat.le_refl _) h)
  | (name, j) :: fs =>
    simp only [fieldTokens, List.cons_append, List.forall_mem_cons, List.forall_mem_append] at hfs
    have hfields := scans_writeFields fs hfs.2.2.2.2 depth h
    have hfirst :=
      scans_write j hfs.2.2.2.1 (depth + 1) (delimited_writeFields hl depth fs cs) hfields
    simp only [writeFields, fieldTokens, List.cons_append, List.append_assoc]
    exact .token (by decide) rfl (Nat.le_refl _)
      ((scans_name hl name hfirst).blanks (hl.beforeItem depth))

end

end Writing

/-! ## Reading a value from its tokens -/

/-- The first token of a value is no bracket that closes. -/
theorem exists_tokens_cons (j : Json) : ∃ t ts, tokens j = t :: ts ∧ t ≠ .closeArray ∧
    t ≠ .closeObject := by
  match j with
  | .null | .bool _ | .number _ | .text _ | .array [] | .array (_ :: _) | .object []
  | .object ((_, _) :: _) => exact ⟨_, _, rfl, by simp, by simp⟩

theorem value_openArray {t : Token} (ht : t ≠ .closeArray) (fuel : Nat) (ts : List Token) :
    value (fuel + 1) (.openArray :: t :: ts) =
      (items fuel (t :: ts)).map fun p => (.array p.1, p.2) := by
  cases t <;> first | rfl | exact absurd rfl ht

theorem value_openObject {t : Token} (ht : t ≠ .closeObject) (fuel : Nat) (ts : List Token) :
    value (fuel + 1) (.openObject :: t :: ts) =
      (fields fuel (t :: ts)).map fun p => (.object p.1, p.2) := by
  cases t <;> first | rfl | exact absurd rfl ht

theorem length_tokens_pos (j : Json) : 0 < (tokens j).length := by
  obtain ⟨t, rest, h, -, -⟩ := exists_tokens_cons j
  rw [h]
  exact Nat.succ_pos _

mutual

/-- The descent finds a value in front of whatever follows its tokens; the induction is on the
number of steps that it may take. -/
theorem value_tokens (fuel : Nat) (j : Json) (ts : List Token)
    (hfuel : 2 * (tokens j).length ≤ fuel) : value fuel (tokens j ++ ts) = some (j, ts) := by
  match fuel, j with
  | 0, j =>
    have := length_tokens_pos j
    omega
  | _ + 1, .null | _ + 1, .bool _ | _ + 1, .number _ | _ + 1, .text _ | _ + 1, .array []
  | _ + 1, .object [] => rfl
  | fuel + 1, .array (j :: js) =>
    simp only [tokens, List.length_cons, List.length_append] at hfuel
    have hitems := items_tokens fuel j js ts (by omega)
    obtain ⟨t, rest, h, hclose, -⟩ := exists_tokens_cons j
    simp only [tokens, List.cons_append, List.append_assoc]
    rw [h, List.cons_append] at hitems ⊢
    rw [value_openArray hclose, hitems]
    rfl
  | fuel + 1, .object ((name, j) :: fs) =>
    simp only [tokens, List.length_cons, List.length_append] at hfuel
    have hfields := fields_tokens fuel name j fs ts (by omega)
    simp only [tokens, List.cons_append, List.append_assoc]
    rw [value_openObject (by simp), hfields]
    rfl

theorem items_tokens (fuel : Nat) (j : Json) (js : List Json) (ts : List Token)
    (hfuel : 2 * ((tokens j).length + (itemTokens js).length) < fuel) :
    items fuel (tokens j ++ (itemTokens js ++ ts)) = some (j :: js, ts) := by
  match fuel with
  | 0 => omega
  | fuel + 1 =>
    have hfirst := value_tokens fuel j (itemTokens js ++ ts) (by omega)
    rw [items, hfirst, Option.bind_eq_bind, Option.bind_some]
    match js with
    | [] => rfl
    | j' :: js =>
      simp only [itemTokens, List.length_cons, List.length_append] at hfuel
      have hitems := items_tokens fuel j' js ts (by omega)
      simp only [itemTokens, List.cons_append, List.append_assoc, hitems]
      rfl

theorem fields_tokens (fuel : Nat) (name : Option String) (j : Json)
    (fs : List (Option String × Json)) (ts : List Token)
    (hfuel : 2 * ((tokens j).length + (fieldTokens fs).length) < fuel) :
    fields fuel (.text name :: .colon :: (tokens j ++ (fieldTokens fs ++ ts))) =
      some ((name, j) :: fs, ts) := by
  match fuel with
  | 0 => omega
  | fuel + 1 =>
    have hfirst := value_tokens fuel j (fieldTokens fs ++ ts) (by omega)
    simp only [fields, hfirst, Option.bind_eq_bind, Option.bind_some]
    match fs with
    | [] => rfl
    | (name', j') :: fs =>
      simp only [fieldTokens, List.length_cons, List.length_append] at hfuel
      have hfields := fields_tokens fuel name' j' fs ts (by omega)
      simp only [fieldTokens, List.cons_append, List.append_assoc, hfields]
      rfl

end

theorem ofTokens?_tokens (j : Json) : ofTokens? (tokens j) = some j := by
  have h := value_tokens (2 * (tokens j).length + 1) j [] (Nat.le_succ _)
  rw [List.append_nil] at h
  rw [ofTokens?, h]

/-! ## Reading what was written -/

/-- A value is read back from its text, in whatever layout of blanks it is written. -/
theorem ofChars?_write {layout : Layout} (hl : layout.Blank) {j : Json} (hj : j.Sound)
    (depth : Nat) : ofChars? (write layout depth j) = some j := by
  have h := scans_write hl j hj depth Token.delimited_nil Token.scans_nil
  rw [List.append_nil, List.append_nil] at h
  rw [ofChars?, h.scan, Option.bind_some, ofTokens?_tokens]

theorem read_pretty {j : Json} (hj : j.Sound) : read j.pretty = some j := by
  rw [read, pretty, String.toList_ofList, ofChars?_write Layout.blank_pretty hj]

theorem read_compact {j : Json} (hj : j.Sound) : read j.compact = some j := by
  rw [read, compact, String.toList_ofList, ofChars?_write Layout.blank_compact hj]

end Json

end LedgerClient
