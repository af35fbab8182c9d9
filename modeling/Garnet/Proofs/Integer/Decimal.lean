import Garnet.Proofs.Integer.Exact
import Mathlib

/-!
# Integers and decimal numerals

The numeral that is printed for an integer is the decimal numeral of its number, and the number that
is read from a numeral is the one its digits stand for. Printing divides by `10 ^ 9` again and again
and pads each part to nine digits; reading multiplies by ten. Both work on the limbs, and both are
compared here with numerals of numbers: `Numeral.decimal` for the one, `Numeral.number?` for the other.
-/

namespace Garnet

open List HeapInteger Numeral Option Magnitude Nat

namespace Numeral

lemma fitsWord_iff (n : Int) : fitsWord n = true ↔ -2 ^ 63 ≤ n ∧ n < 2 ^ 63 := by
  rw [fitsWord, Bool.and_eq_true, decide_eq_true_iff, decide_eq_true_iff]
  omega

/-- The number of a row of decimal digits, at least one, with underscores among them that count for
nothing. -/
def digits? (cs : List Char) : Option Nat :=
  let digits := cs.filter (· != '_')
  if digits ≠ [] ∧ ∀ c ∈ digits, c.isDigit then some (ofDigitChars 10 digits 0) else none

/-- The number of a decimal numeral: perhaps a minus sign, then digits. -/
def number? (s : String) : Option Int := match s.toList with
  | '-' :: cs => (digits? cs).map fun n : Nat => -(n : Int)
  | cs => (digits? cs).map fun n : Nat => (n : Int)

lemma digits?_toDigits (n : Nat) : digits? (toDigits 10 n) = some n := by
  have hd {c : Char} (hc : c ∈ toDigits 10 n) : c.isDigit = true :=
    isDigit_of_mem_toDigits (by decide) (by decide) hc
  have hf : (toDigits 10 n).filter (· != '_') = toDigits 10 n := by
    refine filter_eq_self.mpr fun c hc => ?_
    rw [bne_iff_ne]
    rintro rfl
    exact absurd (hd hc) (by decide)
  simp only [digits?, hf]
  rw [if_pos ⟨toDigits_ne_nil, fun c hc => hd hc⟩, ofDigitChars_ten_toDigits]

lemma number?_decimal (n : Int) : number? (decimal n) = some n := by
  unfold decimal number?
  cases n with
  | negSucc k => simp [digits?_toDigits, Int.negSucc_eq]
  | ofNat k =>
    simp only [String.toList_ofList]
    split
    · rename_i cs heq
      have hm : '-' ∈ toDigits 10 k := by simp [heq]
      exact absurd (isDigit_of_mem_toDigits (by decide) (by decide) hm) (by decide)
    · rw [digits?_toDigits]
      rfl

lemma eq_zero_of_head_toDigits {n : Nat} (h : (toDigits 10 n).head? = some '0') : n = 0 := by
  induction n using Nat.strongRecOn with
  | ind n ih =>
    rw [toDigits_eq_if (by decide)] at h
    split at h
    · clear ih
      revert n
      decide
    · rw [head?_append, head?_eq_some_head toDigits_ne_nil, some_or, ← head?_eq_some_head] at h
      have hdiv := ih (n / 10) (div_lt_self (by omega) (by decide)) h
      omega

lemma toList_decimal_eq (n : Int) :
    (decimal n).toList = (if n < 0 then ['-'] else []) ++ toDigits 10 n.natAbs := by
  cases n with
  | ofNat k => exact String.toList_ofList
  | negSucc k => exact String.toList_ofList.trans (by simp [Int.negSucc_lt_zero])

lemma eq_of_decimal_eq {m n : Int} (h : decimal m = decimal n) : m = n := by
  have hread := congrArg number? h
  rw [number?_decimal, number?_decimal] at hread
  exact some.inj hread

lemma chunksOf_zero : chunksOf 0 = [] := by rw [chunksOf, if_pos rfl]

lemma chunksOf_of_pos {n : Nat} (hn : 0 < n) :
    chunksOf n = n % 1000000000 :: chunksOf (n / 1000000000) := by
  rw [chunksOf, if_neg hn.ne']

end Numeral

namespace Magnitude

/-! ### Printing -/

/-- The last `k` decimal digits of a number. -/
def lastDigits : Nat → Nat → List Char
  | 0, _ => []
  | k + 1, n => lastDigits k (n / 10) ++ [digitChar (n % 10)]

lemma replicate_append_toDigits {k n : Nat} (hk : 0 < k) (hn : n < 10 ^ k) :
    replicate (k - (toDigits 10 n).length) '0' ++ toDigits 10 n = lastDigits k n := by
  induction k generalizing n with
  | zero => omega
  | succ k ih =>
    rcases lt_or_ge n 10 with hlt | hge
    · have hz (j : Nat) : lastDigits j 0 = replicate j '0' := by
        induction j with
        | zero => rfl
        | succ j ihj => rw [lastDigits, ihj, replicate_succ']; rfl
      rw [toDigits_of_lt_base hlt, lastDigits, div_eq_of_lt hlt, mod_eq_of_lt hlt, hz]
      rfl
    · have hk' : 0 < k := by
        rcases Nat.eq_zero_or_pos k with rfl | hpos
        · omega
        · exact hpos
      have hdiv : n / 10 < 10 ^ k := by
        rwa [div_lt_iff_lt_mul (by decide), ← pow_succ]
      rw [toDigits_of_base_le (by decide) hge, lastDigits, ← ih hk' hdiv, length_append,
        length_singleton, Nat.add_sub_add_right, append_assoc]

lemma toDigits_append_lastDigits {q : Nat} (hq : 0 < q) (k : Nat) {r : Nat} (hr : r < 10 ^ k) :
    toDigits 10 q ++ lastDigits k r = toDigits 10 (10 ^ k * q + r) := by
  induction k generalizing r with
  | zero =>
    have hzero : r = 0 := by simpa using hr
    simp [lastDigits, hzero]
  | succ k ih =>
    have hdiv : r / 10 < 10 ^ k := by
      rwa [div_lt_iff_lt_mul (by decide), ← pow_succ]
    have hpos : 0 < 10 ^ k * q := Nat.mul_pos (Nat.pow_pos (by decide)) hq
    have hmod : r % 10 < 10 := mod_lt r (by decide)
    rw [lastDigits, ← append_assoc, ih hdiv, ← toDigits_of_lt_base hmod,
      toDigits_append_toDigits (by decide) (by omega) hmod]
    congr 1
    rw [pow_succ, mul_assoc, mul_left_comm]
    omega

lemma toDigits_append_chunkText {q r : Nat} (hq : 0 < q) (hr : r < 1000000000) :
    toDigits 10 q ++ chunkText r = toDigits 10 (1000000000 * q + r) := by
  rw [chunkText, replicate_append_toDigits (k := 9) (by decide) hr, toDigits_append_lastDigits hq 9 hr]
  rfl

/-- The digits in base `10 ^ 9`, each padded but the first, are the decimal digits. -/
lemma chunksText_chunksOf (n : Nat) : chunksText (chunksOf n) = toDigits 10 n := by
  induction n using Nat.strongRecOn with
  | ind n ih =>
    rcases Nat.eq_zero_or_pos n with rfl | hn
    · rw [chunksOf_zero]
      rfl
    rw [chunksOf_of_pos hn, chunksText, reverse_cons]
    rcases Nat.eq_zero_or_pos (n / 1000000000) with hzero | hq
    · -- the quotient is zero, so this part is the number
      rw [hzero, chunksOf_zero, mod_eq_of_lt ((div_eq_zero_iff_lt (by decide)).mp hzero)]
      exact append_nil _
    · have hr := ih (n / 1000000000) (div_lt_self hn (by decide))
      rw [chunksText] at hr
      cases hc : (chunksOf (n / 1000000000)).reverse with
      | nil => simp [chunksOf_of_pos hq] at hc
      | cons c cs =>
        rw [hc] at hr
        simp only [cons_append, flatMap_append, flatMap_singleton] at hr ⊢
        rw [← append_assoc, hr, toDigits_append_chunkText hq (mod_lt n (by decide)), div_add_mod]

lemma chunks_eq (m : Magnitude) : chunks m = chunksOf (toNat m) := by
  fun_induction chunks m with
  | case1 m hzero => rw [hzero, chunksOf_zero]
  | case2 m hne ih =>
    have hmod := divMod_lt (d := 1000000000) (by decide) m
    rw [ih, chunksOf_of_pos (pos_of_ne_zero hne), ← toNat_divMod (d := 1000000000) (by decide) m,
      mul_add_mod, mul_add_div (by decide), mod_eq_of_lt hmod, div_eq_of_lt hmod, add_zero]

lemma text_eq (m : Magnitude) : text m = toDigits 10 (toNat m) := by
  rw [text, chunks_eq, chunksText_chunksOf]

end Magnitude

/-! ### Other radices -/

namespace Numeral

lemma scaleChunks_chunksOf {factor : Nat} (hf : 0 < factor) (n carry : Nat) :
    scaleChunks factor (chunksOf n) carry = chunksOf (n * factor + carry) := by
  induction n using Nat.strongRecOn generalizing carry with
  | ind n ih =>
    rcases Nat.eq_zero_or_pos n with rfl | hn
    · rw [chunksOf_zero, scaleChunks, Nat.zero_mul, Nat.zero_add]
    · have hsum : n * factor + carry =
          1000000000 * (n / 1000000000 * factor) + (n % 1000000000 * factor + carry) := by
        rw [← Nat.add_assoc, ← Nat.mul_assoc, ← Nat.add_mul, Nat.div_add_mod]
      have hpos : 0 < n * factor + carry := Nat.add_pos_left (Nat.mul_pos hn hf) _
      rw [chunksOf_of_pos hn, scaleChunks, ih _ (div_lt_self hn (by decide)),
        chunksOf_of_pos hpos, hsum, mul_add_mod, mul_add_div (by decide)]

lemma chunks_eq (radix : Nat) (ds : Bytes) : chunks radix ds =
    if value radix ds = 0 then [0] else chunksOf (value radix ds) := by
  refine foldl_rel (r := fun cs n => cs = if n = 0 then [0] else chunksOf n) rfl ?_
  rintro b - _ n rfl
  cases hb : b.digit? radix with
  | none => rfl
  | some d =>
    have hr : 0 < radix := by
      rw [Byte.digit?, Option.ite_none_right_eq_some] at hb
      exact zero_lt_of_lt hb.1
    change scaleChunks radix _ d = if n * radix + d = 0 then [0] else chunksOf (n * radix + d)
    rcases Nat.eq_zero_or_pos n with rfl | hn
    · rw [if_pos rfl, scaleChunks, scaleChunks, Nat.zero_mul, Nat.zero_add]
      rcases Nat.eq_zero_or_pos d with rfl | hd
      · rw [Nat.zero_div, chunksOf_zero]
        rfl
      · rw [if_neg hd.ne', chunksOf_of_pos hd]
    · rw [if_neg hn.ne', scaleChunks_chunksOf hr,
        if_neg (Nat.add_pos_left (Nat.mul_pos hn hr) _).ne']

lemma toDecimal_eq (negative : Bool) (radix : Nat) (ds : Bytes) :
    toDecimal negative radix ds = (if negative then "-" else "") ++ decimal (value radix ds) := by
  have htext : chunksText (chunks radix ds) = Nat.toDigits 10 (value radix ds) := by
    rw [chunks_eq]
    split
    · rename_i hzero
      rw [hzero]
      rfl
    · exact chunksText_chunksOf _
  rw [toDecimal, htext]
  rfl

lemma number?_toDecimal (negative : Bool) (radix : Nat) (ds : Bytes) :
    number? (toDecimal negative radix ds) =
      some (if negative then -(value radix ds : Int) else value radix ds) := by
  rw [toDecimal_eq]
  cases negative with
  | false => exact number?_decimal _
  | true => simp [number?, decimal, digits?_toDigits]

end Numeral

namespace Integer

variable {i : Integer}

lemma toWord?_eq (hi : i.IsNormal) :
    i.toWord? = if fitsWord i.toInt then some i.toInt else none := by
  cases i with
  | fixnum n => rw [toWord?, toLongWord?, filter_some, toInt]
  | heap h =>
    rw [toWord?, toLongWord?, toLongWord?_eq hi, toInt]
    split
    · rw [filter_some]
    · have hbig : ¬fitsWord h.toInt = true := by
        rw [fitsWord_iff]
        omega
      rw [if_neg hbig, filter_none]

lemma toLongWord?_eq_some_iff (hi : i.IsNormal) (v : Int) :
    i.toLongWord? = some v ↔ i.toInt = v ∧ v.natAbs < 2 ^ 127 := by
  cases i with
  | fixnum n =>
    have hlo := n.le_toInt
    have hhi := n.toInt_lt
    rw [toLongWord?, toInt, some_inj]
    omega
  | heap h =>
    rw [toLongWord?, HeapInteger.toLongWord?_eq hi, toInt]
    split <;> simp <;> omega

/-- A normal integer is narrowed to a word of 64 bits exactly if it fits one. To one of 128 bits it is
narrowed exactly if its magnitude has 127 bits, so only the least number that fits is refused. -/
theorem narrow_iff (hi : i.IsNormal) (v : Int) :
    (i.toWord? = some v ↔ i.toInt = v ∧ -2 ^ 63 ≤ v ∧ v < 2 ^ 63) ∧
      (i.toLongWord? = some v ↔ i.toInt = v ∧ -2 ^ 127 ≤ v ∧ v < 2 ^ 127 ∧ v ≠ -2 ^ 127) := by
  rw [toWord?_eq hi, toLongWord?_eq_some_iff hi]
  constructor
  · rw [Option.ite_none_right_eq_some, fitsWord_iff, some_inj]
    omega
  · omega

theorem narrow_iff_least : (ofInt (-2 ^ 63)).toWord? = some (-2 ^ 63) :=
  (narrow_iff (denotes_ofInt _).isNormal _).1.mpr ⟨(denotes_ofInt _).toInt_eq, by decide, by decide⟩

theorem toLongWord?_least : (heap ⟨.negative, [0, 0, 0, 0x80000000]⟩).IsNormal ∧
    (heap ⟨.negative, [0, 0, 0, 0x80000000]⟩).toInt = -2 ^ 127 ∧
    (heap ⟨.negative, [0, 0, 0, 0x80000000]⟩).toLongWord? = none := by
  refine ⟨?_, by decide, by decide⟩
  simp [IsNormal, HeapInteger.IsNormal, Magnitude.IsNormal]

lemma text_eq (hi : i.IsNormal) : i.text = Numeral.decimal i.toInt := by
  cases i with
  | fixnum n => rfl
  | heap h =>
    rw [text, toInt, HeapInteger.text, HeapInteger.toInt]
    cases hs : h.sign with
    | zero =>
      simp only [Sign.toInt, zero_mul]
      rfl
    | positive =>
      simp only [Sign.toInt, one_mul, text_eq]
      rfl
    | negative =>
      obtain ⟨k, hk⟩ : ∃ k, h.limbs.toNat = k + 1 :=
        exists_eq_succ_of_ne_zero (hi.toNat_pos (by simp [hs])).ne'
      simp only [text_eq, hk, Sign.toInt]
      rw [cast_succ, neg_one_mul]
      rfl

/-! ### Reading -/

lemma toNat_digit_lt {c : Char} (hc : c.isDigit = true) : c.toNat - '0'.toNat < 10 := by
  have h : c.toNat ≤ '9'.toNat := by
    rw [Char.isDigit, Bool.and_eq_true, decide_eq_true_iff, decide_eq_true_iff] at hc
    exact hc.2
  have h9 : '9'.toNat = 57 := rfl
  have h0 : '0'.toNat = 48 := rfl
  omega

/-- Reading one character onto the limbs read before. -/
def readDigit (limbs : Magnitude) (c : Char) : Option Magnitude := if c == '_' then some limbs
  else if c.isDigit then some (limbs.scaleAdd 10 (c.toNat - '0'.toNat))
  else none

lemma foldlM_readDigit (cs : List Char) (m : Magnitude) : (cs.foldlM readDigit m).map toNat =
      if ∀ c ∈ cs.filter (· != '_'), c.isDigit then
        some (ofDigitChars 10 (cs.filter (· != '_')) m.toNat)
      else none := by
  induction cs generalizing m with
  | nil => simp
  | cons c cs ih =>
    rw [foldlM_cons]
    by_cases hu : c = '_'
    · have hread : readDigit m c = some m := by simp [readDigit, hu]
      rw [hread, bind_eq_bind, bind_some, ih]
      simp [hu]
    · by_cases hd : c.isDigit = true
      · have hlt := toNat_digit_lt hd
        have hb : 10 < base := by decide
        have hread : readDigit m c = some (m.scaleAdd 10 (c.toNat - '0'.toNat)) := by simp [readDigit, hu, hd]
        rw [hread, bind_eq_bind, bind_some, ih,
          toNat_scaleAdd hb m (hlt.trans hb)]
        simp [hu, hd, ofDigitChars_cons, mul_comm]
      · simp [readDigit, hu, hd]

lemma toNat_parseDigits (cs : List Char) :
    (if cs.any (· != '_') then parseDigits cs else none).map toNat = digits? cs := by
  have hany : cs.any (· != '_') = true ↔ cs.filter (· != '_') ≠ [] := by simp
  have hread : (parseDigits cs).map toNat = _ := foldlM_readDigit cs []
  rw [digits?]
  by_cases hne : cs.filter (· != '_') = []
  · rw [if_neg (by rw [hany]; simp [hne]), if_neg (by simp [hne])]
    rfl
  · rw [if_pos (hany.mpr hne), hread]
    simp only [ne_eq, hne, not_false_eq_true, true_and]
    rfl

lemma denotes_demote_make {s : Sign} (hs : s ≠ .zero) (m : Magnitude) :
    (demote (.heap (.make s m))).Denotes (s.toInt * m.toNat) := by
  rw [← toInt_make]
  exact denotes_demote (isNormal_make fun hzero => absurd hzero hs)

/-- The sign of a numeral, and what stands behind it. -/
def numeralParts (cs : List Char) : Sign × List Char := match cs with
  | '-' :: rest => (.negative, rest)
  | cs => (.positive, cs)

lemma numeralParts_fst_ne_zero (cs : List Char) : (numeralParts cs).1 ≠ .zero := by
  unfold numeralParts
  split <;> simp

lemma number?_eq (s : String) :
    number? s = (digits? (numeralParts s.toList).2).map fun n : Nat =>
      (numeralParts s.toList).1.toInt * (n : Int) := by
  unfold number? numeralParts
  split
  · simp only [Sign.toInt, neg_one_mul]
  · simp only [Sign.toInt, one_mul]

lemma parse?_eq (s : String) : parse? s =
      (if (numeralParts s.toList).2.any (· != '_') then parseDigits (numeralParts s.toList).2
        else none).map fun m => demote (.heap (.make (numeralParts s.toList).1 m)) := by
  have hp : parse? s = if (numeralParts s.toList).2.any (· != '_') then
        (parseDigits (numeralParts s.toList).2).map fun m =>
          demote (.heap (.make (numeralParts s.toList).1 m))
      else none := rfl
  rw [hp]
  split <;> rfl

lemma denotes_of_parse? {s : String} (h : parse? s = some i) : i.Denotes i.toInt := by
  rw [parse?_eq] at h
  obtain ⟨m, -, rfl⟩ := map_eq_some_iff.mp h
  have hm := denotes_demote_make (numeralParts_fst_ne_zero s.toList) m
  rwa [← hm.toInt_eq] at hm

lemma toInt_parse? (s : String) : (parse? s).map toInt = Numeral.number? s := by
  rw [parse?_eq, number?_eq, ← toNat_parseDigits, Option.map_map, Option.map_map]
  congr 1
  funext m
  exact (denotes_demote_make (numeralParts_fst_ne_zero _) m).toInt_eq

/-- The text of an integer, in either form, is the canonical decimal numeral of its number: a minus sign
exactly for a negative number, then digits, of which the first is no zero unless it is the only one. Read
back, it gives the integer that is equal, in the form that fits it. -/
theorem text_reads_back (hi : i.IsNormal) :
    (∃ ds : List Char, i.text.toList = (if i.toInt < 0 then ['-'] else []) ++ ds ∧ ds ≠ [] ∧
      (∀ c ∈ ds, c.isDigit) ∧ (ds.head? = some '0' → ds = ['0']) ∧
      ofDigitChars 10 ds 0 = i.toInt.natAbs) ∧
    (i.toInt = 0 → i.text = "0") ∧
    ∃ j, parse? i.text = some j ∧ compare j i = .eq ∧ j.Denotes i.toInt := by
  rw [text_eq hi]
  refine ⟨⟨toDigits 10 i.toInt.natAbs, toList_decimal_eq _, toDigits_ne_nil, ?_, ?_,
    ofDigitChars_ten_toDigits⟩, ?_, ?_⟩
  · exact fun c => isDigit_of_mem_toDigits (by decide) (by decide)
  · intro hhead
    rw [eq_zero_of_head_toDigits hhead]
    rfl
  · intro hzero
    rw [hzero]
    rfl
  · have hread := toInt_parse? (decimal i.toInt)
    rw [number?_decimal] at hread
    obtain ⟨j, hj, hvalue⟩ := map_eq_some_iff.mp hread
    have hdenotes := denotes_of_parse? hj
    refine ⟨j, hj, ?_, hvalue ▸ hdenotes⟩
    rw [compare_eq_compare_toInt hdenotes.isNormal hi, hvalue, Int.compare_eq_eq]

/-- A number whose inner digits in base `10 ^ 9` are written with zeros in front. -/
theorem text_reads_back_padded : ∃ j, parse? "-1000000000000000001" = some j ∧
    compare j (heap ⟨.negative, [2808348673, 232830643]⟩) = .eq ∧ j.Denotes (-1000000000000000001) := by
  have hi : (heap ⟨.negative, [2808348673, 232830643]⟩).IsNormal := ⟨by simp [Magnitude.IsNormal], by decide⟩
  have htext : (heap ⟨.negative, [2808348673, 232830643]⟩).text = "-1000000000000000001" := by
    rw [text_eq hi]
    decide
  exact htext ▸ (text_reads_back hi).2.2

end Integer

end Garnet
