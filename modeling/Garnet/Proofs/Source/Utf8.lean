import Garnet.Source.Utf8
import Mathlib.Tactic.Lemma

/-!
# Texts and their bytes

Decoding the bytes of a text gives the text back (`Utf8.decode_utf8`). A piece of these bytes is the bytes
of a text of its own if no character is cut in two, and none is where a cut is next to an ASCII byte
(`Utf8.Cut`): all bytes of a longer character lie above the ASCII ones. So a reader that goes by ASCII
marks does not have to look at characters.
-/

namespace Garnet

open List UInt8

lemma utf8_ofList (cs : List Char) : utf8 (String.ofList cs) = cs.flatMap String.utf8EncodeChar := by
  simp [utf8, String.toUTF8, utf8Encode]

lemma utf8_eq_flatMap (s : String) : utf8 s = s.toList.flatMap String.utf8EncodeChar := by
  rw [← utf8_ofList, String.ofList_toList]

lemma utf8_append (s t : String) : utf8 (s ++ t) = utf8 s ++ utf8 t := by simp [utf8, String.toUTF8]

lemma Byte.le_of_isAlphanum {b : Byte} (h : b.isAlphanum) : b ≤ 126 := by
  simp only [isAlphanum, isAlpha, isUpper, isLower, isDigit, Bool.or_eq_true, Bool.and_eq_true,
    decide_eq_true_eq, UInt8.le_iff_toNat_le, UInt8.reduceToNat] at h ⊢
  omega

namespace Utf8

variable {lead : Byte} {c : Char}

/-! ### The bytes of a character -/

lemma tails_two (h : 0xC2 ≤ lead.toNat) (h' : lead.toNat ≤ 0xDF) : tails lead = some (1, 0x80, 0xBF) := by
  simp only [tails, UInt8.le_iff_toNat_le, Bool.and_eq_true, decide_eq_true_eq, UInt8.reduceToNat]
  rw [if_pos ⟨h, h'⟩]

lemma tails_high (h : 0xE0 ≤ lead.toNat) (h' : lead.toNat ≤ 0xF4) :
    tails lead = if lead.toNat ≤ 0xEF then
      some (2, if lead.toNat = 0xE0 then 0xA0 else 0x80, if lead.toNat = 0xED then 0x9F else 0xBF)
    else some (3, if lead.toNat = 0xF0 then 0x90 else 0x80, if lead.toNat = 0xF4 then 0x8F else 0xBF) := by
  simp only [tails, le_iff_toNat_le, Bool.and_eq_true, decide_eq_true_eq, beq_iff_eq,
    ← UInt8.toNat_inj, UInt8.reduceToNat]
  grind

/-- The tail of a longer character that holds six bits of `x`. -/
def tailOf (x : Nat) : Byte := ofNat (x % 64 + 128)

lemma toNat_tailOf (x : Nat) : (tailOf x).toNat = x % 64 + 128 := by
  rw [tailOf, toNat_ofNat']
  omega

lemma tailCount_cons {n : Nat} {lo hi t : Byte} (hlo : lo.toNat ≤ t.toNat) (hhi : t.toNat ≤ hi.toNat)
    (bs : Bytes) : tailCount (n + 1) lo hi (t :: bs) = tailCount n 0x80 0xBF bs + 1 := by
  rw [tailCount, if_pos]
  simpa [le_iff_toNat_le] using ⟨hlo, hhi⟩

lemma tailCount_tailOf {n : Nat} (x : Nat) (bs : Bytes) :
    tailCount (n + 1) 0x80 0xBF (tailOf x :: bs) = tailCount n 0x80 0xBF bs + 1 := by
  have hx := toNat_tailOf x
  exact tailCount_cons (by rw [hx]; exact Nat.le_add_left _ _) (by rw [hx]; simp; omega) bs

/-- How the bytes of a character are laid out: one ASCII byte, or a lead byte and its tails, with which the
character is assembled again. -/
inductive Layout (c : Char) : Bytes → Prop
  | ascii (h : c.val.toNat < 0x80) : Layout c [ofNat c.val.toNat]
  | longer {lead : Byte} {ts : Bytes} {lo hi : Byte} (hlead : 0x80 ≤ lead.toNat)
      (hts : ∀ t ∈ ts, 0x80 ≤ t.toNat) (htails : tails lead = some (ts.length, lo, hi))
      (hcount : ∀ rest, tailCount ts.length lo hi (ts ++ rest) = ts.length)
      (hchar : assemble lead ts = c) : Layout c (lead :: ts)

lemma layout (c : Char) : Layout c (String.utf8EncodeChar c) := by
  have hval : c.val.toNat < 0xD800 ∨ 0xDFFF < c.val.toNat ∧ c.val.toNat < 0x110000 := c.valid
  have hchar {v : Nat} (hv : v = c.val.toNat) : Char.ofNat v = c := hv ▸ Char.ofNat_toNat c
  have ht (x : Nat) : 0x80 ≤ (tailOf x).toNat := by
    rw [toNat_tailOf]
    omega
  unfold String.utf8EncodeChar
  generalize hv : c.val.toNat = v at *
  dsimp only
  split
  · rw [← hv]
    exact .ascii (by omega)
  split
  · have hlead : (ofNat (v / 64 % 32 + 192)).toNat = v / 64 + 192 := by
      rw [toNat_ofNat']
      omega
    change Layout c (_ :: [tailOf v])
    refine .longer (by omega) (by simp [ht])
      (tails_two (by omega) (by omega)) (fun rest => tailCount_tailOf v rest) ?_
    refine hchar ?_
    simp only [foldl_cons, foldl_nil, length_cons, length_nil, hlead, toNat_tailOf, Nat.one_shiftLeft]
    omega
  split
  · have hlead : (ofNat (v / 4096 % 16 + 224)).toNat = v / 4096 + 224 := by
      rw [toNat_ofNat']
      omega
    change Layout c (_ :: [tailOf (v / 64), tailOf v])
    refine .longer (by omega) (by simp [ht])
      ((tails_high (by omega) (by omega)).trans (if_pos (by omega))) (fun rest => ?_) ?_
    · have hf := toNat_tailOf (v / 64)
      refine (tailCount_cons ?_ ?_ _).trans (congrArg (· + 1) (tailCount_tailOf v rest))
      all_goals
        rw [hf, hlead]
        split <;> simp <;> omega
    refine hchar ?_
    simp only [foldl_cons, foldl_nil, length_cons, length_nil, hlead, toNat_tailOf, Nat.one_shiftLeft]
    omega
  · have hlead : (ofNat (v / 262144 % 8 + 240)).toNat = v / 262144 + 240 := by
      rw [toNat_ofNat']
      omega
    change Layout c (_ :: [tailOf (v / 4096), tailOf (v / 64), tailOf v])
    refine .longer (by omega) (by simp [ht])
      ((tails_high (by omega) (by omega)).trans (if_neg (by omega))) (fun rest => ?_) ?_
    · have hf := toNat_tailOf (v / 4096)
      refine (tailCount_cons ?_ ?_ _).trans (congrArg (· + 1) ((tailCount_tailOf _ _).trans
        (congrArg (· + 1) (tailCount_tailOf v rest))))
      all_goals
        rw [hf, hlead]
        split <;> simp <;> omega
    refine hchar ?_
    simp only [foldl_cons, foldl_nil, length_cons, length_nil, hlead, toNat_tailOf, Nat.one_shiftLeft]
    omega

/-! ### Decoding what was encoded -/

lemma Layout.decodeChars_append {bs : Bytes} (h : Layout c bs) (rest : Bytes) :
    decodeChars (bs ++ rest) = c :: decodeChars rest := by
  cases h with
  | ascii h =>
    have hval : (ofNat c.val.toNat).toNat = c.val.toNat := by
      rw [toNat_ofNat']
      omega
    have hlt : ofNat c.val.toNat < 0x80 := by
      rwa [lt_iff_toNat_lt, hval]
    have hchar : Byte.toChar (ofNat c.val.toNat) = c := Char.ext (UInt32.toNat_inj.mp hval)
    rw [singleton_append, decodeChars, if_pos hlt, hchar]
  | @longer lead ts lo hi hlead hts htails hcount hchar =>
    have hnot : ¬lead < 0x80 := by
      rw [lt_iff_toNat_lt]
      exact Nat.not_lt.mpr hlead
    rw [cons_append, decodeChars, if_neg hnot, htails]
    simp only [hcount rest, if_true, take_left, drop_left, hchar]

lemma decodeChars_flatMap (cs : List Char) : decodeChars (cs.flatMap String.utf8EncodeChar) = cs := by
  induction cs with
  | nil => rw [flatMap_nil, decodeChars]
  | cons c cs ih => rw [flatMap_cons, (layout c).decodeChars_append, ih]

theorem decode_utf8 (s : String) : decode (utf8 s) = s := by
  rw [decode, utf8_eq_flatMap, decodeChars_flatMap, String.ofList_toList]

/-! ### Pieces of a text -/

/-- An ASCII byte stands on one side of the cut between `front` and `rear`. -/
def Cut (front rear : Bytes) : Prop := (∃ b ∈ front.getLast?, b < 0x80) ∨ ∃ b ∈ rear.head?, b < 0x80

lemma Layout.not_cut {front rear more : Bytes} (h : Layout c (front ++ rear)) (hf : front ≠ [])
    (hr : rear ≠ []) : ¬Cut front (rear ++ more) := by
  have hh : ∀ b ∈ front ++ rear, 0x80 ≤ b.toNat := by
    generalize hbs : front ++ rear = bs at h
    cases h with
    | ascii =>
      have hl := congrArg length hbs
      have hpos := length_pos_iff.mpr hf
      have hpos' := length_pos_iff.mpr hr
      rw [length_append, length_singleton] at hl
      omega
    | longer hlead hts => exact forall_mem_cons.mpr ⟨hlead, hts⟩
  have hnot {b : Byte} (hb : b ∈ front ++ rear) : ¬b < 0x80 := by
    rw [lt_iff_toNat_lt]
    exact Nat.not_lt.mpr (hh b hb)
  rintro (⟨b, hb, hlt⟩ | ⟨b, hb, hlt⟩)
  · exact hnot (mem_append_left _ (mem_of_getLast? hb)) hlt
  · obtain ⟨first, rest, rfl⟩ := exists_cons_of_ne_nil hr
    cases hb
    exact hnot (mem_append_right _ mem_cons_self) hlt

lemma exists_flatMap_of_cut {cs : List Char} {front rear : Bytes}
    (h : cs.flatMap String.utf8EncodeChar = front ++ rear) (hcut : Cut front rear) :
    ∃ cs₁ cs₂ : List Char, front = cs₁.flatMap String.utf8EncodeChar ∧
      rear = cs₂.flatMap String.utf8EncodeChar := by
  induction cs generalizing front with
  | nil =>
    obtain ⟨rfl, rfl⟩ := append_eq_nil_iff.mp h.symm
    exact ⟨[], [], rfl, rfl⟩
  | cons c cs ih =>
    rw [flatMap_cons] at h
    -- the cut is behind the first character, inside it, or before it
    rcases append_eq_append_iff.mp h with ⟨between, rfl, hr⟩ | ⟨between, hchar, rfl⟩
    · by_cases hb : between = []
      · rw [hb, append_nil]
        rw [hb, nil_append] at hr
        exact ⟨[c], cs, by rw [flatMap_singleton], hr.symm⟩
      · have hcut' : Cut between rear := by
          have hl := getLast?_eq_some_getLast hb
          rwa [Cut, getLast?_append, hl, Option.some_or, ← hl] at hcut
        obtain ⟨cs₁, cs₂, rfl, hre⟩ := ih hr hcut'
        exact ⟨c :: cs₁, cs₂, by rw [flatMap_cons], hre⟩
    · by_cases hf : front = []
      · rw [hf, nil_append] at hchar
        exact ⟨[], c :: cs, hf, by rw [flatMap_cons, hchar]⟩
      · by_cases hb : between = []
        · rw [hb, append_nil] at hchar
          exact ⟨[c], cs, by rw [flatMap_singleton, hchar], by rw [hb, nil_append]⟩
        · have hlay := layout c
          rw [hchar] at hlay
          exact absurd hcut (hlay.not_cut hf hb)

lemma utf8_decode_of_cut {s : String} {front piece rear : Bytes} (h : utf8 s = front ++ piece ++ rear)
    (hf : ∃ b ∈ front.getLast?, b < 0x80) (hr : Cut (front ++ piece) rear) :
    utf8 (decode piece) = piece := by
  rw [utf8_eq_flatMap] at h
  obtain ⟨cs, -, hcs, -⟩ := exists_flatMap_of_cut h hr
  obtain ⟨-, cs', -, rfl⟩ := exists_flatMap_of_cut hcs.symm (.inl hf)
  rw [← utf8_ofList, decode_utf8]

end Utf8

end Garnet
