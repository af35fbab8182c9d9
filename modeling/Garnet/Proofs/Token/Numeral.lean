import Garnet.Proofs.Integer.Decimal
import Garnet.Proofs.Literal.RoundTrip

/-!
# Integer literals

The written forms of a number: decimal digits, octal digits behind a zero, and the digits of a base behind a
zero and the base's letter, with single underscores between the digits. With a blank or the end of the text
behind it, each is read as one token that holds the number (`Lexer.Ready.next_literal`). The lexer finds the
radix before the digits, so there is one lemma for what stands before them and one for their run.
-/

namespace Garnet

open List Byte Bool

variable {b : Byte} {base : Nat}

/-! ### Written forms -/

abbrev Digit (radix : Nat) : Type := { b : Byte // b.isDigitOf radix }

/-- Digits with single underscores between them. -/
structure DigitRow (radix : Nat) where
  first : Digit radix
  /-- The further digits, each with whether an underscore stands before it. -/
  rest : List (Bool × Digit radix)

namespace DigitRow

variable {radix : Nat}

/-- A digit behind its underscore, if there is one. -/
def mark (d : Bool × Digit radix) : Bytes := if d.1 then [95, d.2.1] else [d.2.1]

def written (row : DigitRow radix) : Bytes := row.first.1 :: row.rest.flatMap mark

def digits (row : DigitRow radix) : Bytes := row.first.1 :: row.rest.map fun d => d.2.1

end DigitRow

/-- A non-negative integer literal. -/
inductive IntLiteral where
  /-- Decimal digits; a zero stands alone. -/
  | decimal (row : DigitRow 10) (alone : row.first.1 = 48 → row.rest = [])
  /-- Octal digits behind a zero. -/
  | octal (row : DigitRow 8)
  /-- Digits behind a zero and the letter of their base. -/
  | based (letter : Byte) (base : Nat) (h : Scan.baseOf letter = some base) (row : DigitRow base)

namespace IntLiteral

def radix : IntLiteral → Nat
  | decimal .. => 10
  | octal _ => 8
  | based _ base .. => base

def lead : IntLiteral → Bytes
  | decimal .. => []
  | octal _ => [48]
  | based letter .. => [48, letter]

def row : (v : IntLiteral) → DigitRow v.radix
  | decimal row _ => row
  | octal row => row
  | based _ _ _ row => row

variable (v : IntLiteral)

def bytes : Bytes := v.lead ++ v.row.written

def text : String := String.ofList (v.bytes.map toChar)

def value : Nat := Numeral.value v.radix v.row.digits

def kind : TokenKind :=
  if Numeral.fitsWord v.value then .integer v.value else .bigInteger (Numeral.decimal v.value)

end IntLiteral

/-! ### Texts -/

lemma utf8_ofAscii {bs : Bytes} (h : ∀ b ∈ bs, b ≤ 126) :
    utf8 (String.ofList (bs.map toChar)) = bs := by
  rw [utf8_ofList, flatMap_map]
  induction bs with
  | nil => rfl
  | cons b bs ih =>
    obtain ⟨hb, hbs⟩ := forall_mem_cons.mp h
    rw [flatMap_cons, utf8EncodeChar_toChar hb, ih hbs, singleton_append]

lemma Byte.isDigitOf_eq_false (h : b.isAlphanum = false) (radix : Nat) : b.isDigitOf radix = false := by
  simp only [isAlphanum, isAlpha, or_eq_false_iff] at h
  simp [isDigitOf, digit?, h]

lemma Digit.le {radix : Nat} (d : Digit radix) : d.1 ≤ 126 := by
  refine le_of_isAlphanum (Decidable.byContradiction fun hnot => ?_)
  exact absurd (d.2.symm.trans (isDigitOf_eq_false (eq_false_iff.mpr hnot) radix)) nofun

lemma DigitRow.le_of_mem_written {radix : Nat} {row : DigitRow radix} (h : b ∈ row.written) : b ≤ 126 := by
  rcases mem_cons.mp h with rfl | hr
  · exact row.first.le
  · obtain ⟨d, -, hd⟩ := mem_flatMap.mp hr
    rw [mark] at hd
    split at hd
    · rcases mem_cons.mp hd with rfl | hd
      · decide
      · exact mem_singleton.mp hd ▸ d.2.le
    · exact mem_singleton.mp hd ▸ d.2.le

def Scan.baseLetters : Bytes := [120, 88, 98, 66, 111, 79, 100, 68]

lemma Scan.mem_of_baseOf (h : baseOf b = some base) : b ∈ baseLetters := by
  have hb {letter} (h : b.toChar = letter) (hmem : letter ∈ baseLetters.map toChar) : b ∈ baseLetters := by
    obtain ⟨c, hc, rfl⟩ := mem_map.mp hmem
    exact toChar_injective h ▸ hc
  unfold baseOf at h
  split at h
  all_goals first | exact hb ‹_› (by decide) | cases h

lemma Scan.le_of_baseOf (h : baseOf b = some base) : b ≤ 126 := by
  have hall : baseLetters.all isAlphanum := by decide
  exact le_of_isAlphanum (all_eq_true.mp hall b (mem_of_baseOf h))

lemma IntLiteral.le_of_mem_lead {v : IntLiteral} (h : b ∈ v.lead) : b ≤ 126 := by
  cases v with
  | decimal row alone => cases h
  | octal row => exact mem_singleton.mp h ▸ by decide
  | based letter base hl row =>
    rcases mem_cons.mp h with rfl | h
    · decide
    · exact mem_singleton.mp h ▸ Scan.le_of_baseOf hl

variable (v : IntLiteral)

lemma IntLiteral.utf8_text : utf8 v.text = v.bytes :=
  utf8_ofAscii fun _ hb => (mem_append.mp hb).elim le_of_mem_lead DigitRow.le_of_mem_written

/-! ### The run of digits -/

lemma Byte.isDigit_of_isDigitOf {radix : Nat} (hr : radix ≤ 10) (h : b.isDigitOf radix) :
    b.isDigit := by
  cases hd : b.isDigit with
  | true => rfl
  | false =>
    simp only [isDigitOf, digit?, isLower, isUpper, UInt8.le_iff_toNat_le] at h
    grind

def EndsWord (tail : Bytes) : Prop := tail = [] ∨ ∃ more, tail = 32 :: more

namespace Cursor

variable {radix : Nat} {tail : Bytes}

lemma digits_of_isDigitOf (h : b.isDigitOf radix) (seen : Bool) (rest : Bytes) :
    digits radix seen (b :: rest) = (b :: (digits radix true rest).1, (digits radix true rest).2 + 1) := by
  rw [digits, if_pos h]

lemma digits_underscore (h : b.isDigitOf radix) (rest : Bytes) : digits radix true (95 :: b :: rest) =
      ((digits radix true (b :: rest)).1, (digits radix true (b :: rest)).2 + 1) := by
  rw [digits, Byte.isDigitOf_eq_false rfl, if_neg Bool.false_ne_true, if_pos (by simp [h])]

lemma digits_end (h : EndsWord tail) (seen : Bool) : digits radix seen tail = ([], 0) := by
  rcases h with rfl | ⟨more, rfl⟩
  · rfl
  · rw [digits, isDigitOf_eq_false rfl]
    rfl

lemma digits_rest (rest : List (Bool × Digit radix)) (h : EndsWord tail) :
    digits radix true (rest.flatMap DigitRow.mark ++ tail) =
      (rest.map fun d => d.2.1, (rest.flatMap DigitRow.mark).length) := by
  induction rest with
  | nil => exact digits_end h true
  | cons d rest ih =>
    obtain ⟨underscore, b, hb⟩ := d
    rw [flatMap_cons, DigitRow.mark]
    cases underscore with
    | false => simp [digits_of_isDigitOf hb, ih]
    | true => simp [digits_underscore hb, digits_of_isDigitOf hb, ih]

end Cursor

/-! ### The token -/

namespace Scan

variable {rest tail : Bytes} {α : Type} {l : Lexer} {f : Option Byte → Scan α}

lemma peek_bind_eq : (peek >>= f) l = f l.cursor.rest.head? l := rfl

lemma peekAt_bind_eq {n : Nat} :
    (peekAt n >>= f) l = f l.cursor.rest[n]? l := rfl

lemma skip_bind_eq {n : Nat} {f : Unit → Scan α} : (skip n >>= f) l = f () (l.passed n) := rfl

lemma baseOf_end (ht : EndsWord tail) : tail.head?.bind baseOf = none := by
  rcases ht with rfl | ⟨more, rfl⟩
  · rfl
  · rfl

lemma radix_decimal (h : l.cursor.rest = b :: rest) (hb : b = 48 → EndsWord rest) : radix l = .ok 10 l := by
  rw [radix, peek_bind_eq, h, head?_cons]
  by_cases hz : b = 48
  · have hend := hb hz
    subst hz
    have hn : l.cursor.rest[1]? = rest.head? := by rw [h, getElem?_cons_succ, head?_eq_getElem?]
    have hd : rest.head?.any (fun b => b.isDigit || b == 95) = false := by
      rcases hend with rfl | ⟨more, rfl⟩ <;> rfl
    -- a zero alone: neither a base letter nor an octal digit follows it
    rw [if_neg (by decide), peekAt_bind_eq, hn]
    simp only [baseOf_end hend, hd]
    rw [if_neg Bool.false_ne_true, peekAt_bind_eq, hn, baseOf_end hend]
    rfl
  · rw [if_pos (by simpa using hz)]
    rfl

lemma baseOf_digit (h : b.isDigit) : baseOf b = none := by
  have hall : baseLetters.all isAlpha := by decide
  cases hb : baseOf b with
  | none => rfl
  | some base =>
    have hl := all_eq_true.mp hall b (mem_of_baseOf hb)
    simp only [isAlpha, isUpper, isLower, isDigit, or_eq_true, and_eq_true,
      decide_eq_true_eq, UInt8.le_iff_toNat_le, UInt8.reduceToNat] at h hl
    omega

lemma radix_octal (h : l.cursor.rest = 48 :: b :: rest) (hb : b.isDigit)
    (hr : rest.head?.bind baseOf = none) : radix l = .ok 8 (l.passed 1) := by
  have hn : l.cursor.rest[1]? = some b := h ▸ rfl
  have hp : (l.passed 1).cursor.rest[1]? = rest.head? := by
    rw [Lexer.passed, Cursor.skip, h, head?_eq_getElem?]
    rfl
  rw [radix, peek_bind_eq, h, head?_cons, if_neg (by decide), peekAt_bind_eq, hn]
  simp only [Option.bind_some, baseOf_digit hb, Option.any_some, hb, Bool.true_or, if_pos]
  rw [skip_bind_eq, peekAt_bind_eq, hp, hr]
  rfl

lemma radix_based {letter : Byte} (h : l.cursor.rest = 48 :: letter :: rest)
    (hl : baseOf letter = some base) : radix l = .ok base (l.passed 2) := by
  have hn : l.cursor.rest[1]? = some letter := h ▸ rfl
  rw [radix, peek_bind_eq, h, head?_cons, if_neg (by decide), peekAt_bind_eq, hn]
  simp only [Option.bind_some, hl]
  rw [peekAt_bind_eq, hn, Option.bind_some, hl]
  rfl

lemma radix_literal (v : IntLiteral) (h : l.cursor.rest = v.bytes ++ tail) (ht : EndsWord tail) :
    radix l = .ok v.radix (l.passed v.lead.length) := by
  cases v with
  | decimal row alone =>
    refine radix_decimal h fun hz => ?_
    show EndsWord (row.rest.flatMap DigitRow.mark ++ tail)
    rwa [alone hz]
  | octal row =>
    refine radix_octal h (isDigit_of_isDigitOf (by decide) row.first.2) ?_
    show (row.rest.flatMap DigitRow.mark ++ tail).head?.bind baseOf = none
    cases hr : row.rest with
    | nil => exact baseOf_end ht
    | cons d rest =>
      rw [flatMap_cons, DigitRow.mark]
      split
      · rfl
      · exact baseOf_digit (isDigit_of_isDigitOf (by decide) d.2.2)
  | based letter base hl row => exact radix_based h hl

lemma digitRun_row {radix : Nat} (row : DigitRow radix) (h : l.cursor.rest = row.written ++ tail)
    (ht : EndsWord tail) : digitRun radix l = .ok row.digits (l.passed row.written.length) := by
  rw [digitRun, get_bind_eq, h, DigitRow.written, cons_append, Cursor.digits_of_isDigitOf row.first.2,
    Cursor.digits_rest row.rest ht]
  rfl

lemma fraction_end (h : EndsWord l.cursor.rest) : fraction l = .ok none l := by
  rcases h with h | ⟨more, h⟩ <;> rw [fraction, peek_bind_eq, h] <;> rfl

lemma exponent_end (h : EndsWord l.cursor.rest) : exponent l = .ok none l := by
  rcases h with h | ⟨more, h⟩ <;> rw [exponent, peekAt_bind_eq, peek_bind_eq, peek_bind_eq, h] <;> rfl

lemma number_literal (v : IntLiteral) (h : l.cursor.rest = v.bytes ++ tail) (ht : EndsWord tail)
    (start : Pos) : number false start l = .ok v.kind (l.passed v.bytes.length) := by
  have hrow : (l.passed v.lead.length).cursor.rest = v.row.written ++ tail := by
    rw [Lexer.passed, Cursor.skip, h, IntLiteral.bytes, append_assoc, drop_left]
  have hl : v.lead.length + v.row.written.length = v.bytes.length := by
    rw [IntLiteral.bytes, length_append]
  have hend : EndsWord (l.passed v.bytes.length).cursor.rest := by
    rwa [Lexer.passed, Cursor.skip, h, drop_left]
  rw [number]
  refine bind_eq_ok.mpr ⟨_, _, radix_literal v h ht, ?_⟩
  refine bind_eq_ok.mpr ⟨_, _, digitRun_row v.row hrow ht, ?_⟩
  rw [Lexer.passed_passed, hl]
  have hd : v.row.digits.isEmpty = false := rfl
  have hn : (l.passed v.bytes.length).cursor.rest.head?.any Byte.isDigit = false := by
    rcases hend with h | ⟨more, h⟩ <;> rw [h] <;> rfl
  have hdec : Numeral.toDecimal false v.radix v.row.digits = Numeral.decimal v.value :=
    (Numeral.toDecimal_eq ..).trans String.empty_append
  simp only [hd, Bool.false_and, Bool.false_eq_true, if_false]
  rw [peek_bind_eq, hn, if_neg Bool.false_ne_true, ← IntLiteral.value, hdec, ← IntLiteral.kind]
  split
  · exact bind_eq_ok.mpr ⟨_, _, fraction_end hend, bind_eq_ok.mpr ⟨_, _, exponent_end hend, rfl⟩⟩
  · rfl

end Scan

lemma Byte.not_mem_marks_of_isDigit (h : b.isDigit) : b ∉ Gap.marks ∧ b ≠ 61 := by
  have hall : (61 :: Gap.marks).all fun c => !c.isDigit := by decide
  have hnot : b ∉ 61 :: Gap.marks := by
    intro hmem
    have hm := all_eq_true.mp hall b hmem
    rw [h] at hm
    cases hm
  exact ⟨fun hmem => hnot (mem_cons_of_mem _ hmem), fun heq => hnot (heq ▸ mem_cons_self)⟩

lemma IntLiteral.exists_bytes_eq : ∃ b rest, v.bytes = b :: rest ∧ b.isDigit := by
  cases v with
  | decimal row alone => exact ⟨_, _, rfl, isDigit_of_isDigitOf (by decide) row.first.2⟩
  | octal row | based letter base h row => exact ⟨_, _, rfl, rfl⟩

lemma IntLiteral.preceding_kind : Preceding.of v.kind = .value := by
  rw [kind]
  split <;> rfl

namespace Lexer

lemma kind_digit {l : Lexer} (hb : b.isDigit) (space : Bool) (start : Pos) :
    kind b space start l = Scan.number false start l := by
  have hide : b.isIdent := by simp [Byte.isIdent, Byte.isAlphanum, hb]
  rw [kind, get_bind_eq, hide, hb, Bool.not_true, Bool.and_false]
  rfl

namespace Ready

variable {l : Lexer} {preceding : Preceding} {tail : Bytes}

theorem next_literal (v : IntLiteral) (gap : Bytes) (hgap : gap = [] ∨ gap = [32])
    (h : l.Ready preceding (gap ++ (v.bytes ++ tail))) (hta : EndsWord tail) :
    ∃ t l', next l = .ok t l' ∧ t.kind = v.kind ∧ l'.Ready .value tail := by
  obtain ⟨b, rest, hbyt, hb⟩ := v.exists_bytes_eq
  have ht : v.bytes ++ tail = b :: (rest ++ tail) := by rw [hbyt, cons_append]
  have hk (space : Bool) (l₁ : Lexer) (start : Pos) (h₁ : l₁.Ready preceding (b :: (rest ++ tail))) :
      kind b space start l₁ = .ok v.kind (l₁.passed v.bytes.length) := by
    rw [kind_digit hb, Scan.number_literal v (h₁.rest.trans ht.symm) hta]
  rw [ht] at h
  obtain ⟨hm, hequ⟩ := not_mem_marks_of_isDigit hb
  have hn : ∃ t l', next l = .ok t l' ∧ t.kind = v.kind ∧
      l'.Ready (.of v.kind) ((b :: (rest ++ tail)).drop v.bytes.length) := by
    rcases hgap with rfl | rfl
    · exact h.next_here hm hequ (hk false)
    · exact h.next_blank hm (hk true)
  rwa [v.preceding_kind, ← ht, drop_left] at hn

end Ready

end Lexer

end Garnet
