import Garnet.Integer.Basic
import Garnet.Proofs.Integer.Limbs
import Mathlib.Algebra.Order.Ring.Int

/-!
# Integer arithmetic is exact

Every operation on integers of the target gives the integer of the mathematical result, and the form
it comes in is settled by its value alone: a fixnum whenever it fits one, a normal heap integer
otherwise. The arguments may be in either form, a small number on the heap among them.

The law of each operation is first shown for a sign and a magnitude. Moving a result back into a
fixnum, `Integer.demote`, then settles all operations at once.
-/

namespace Garnet

variable {s : Sign}

/-! ### Signs -/

namespace Sign

@[simp]
lemma toInt_neg (s : Sign) : s.neg.toInt = -s.toInt := by cases s <;> rfl

@[simp]
lemma toInt_mul (s t : Sign) : (s.mul t).toInt = s.toInt * t.toInt := by cases s <;> cases t <;> rfl

@[simp]
lemma neg_eq_zero (s : Sign) : s.neg = .zero ↔ s = .zero := by cases s <;> decide

@[simp]
lemma mul_eq_zero (s t : Sign) : s.mul t = .zero ↔ s = .zero ∨ t = .zero := by
  cases s <;> cases t <;> decide

lemma ofInt_eq_zero (n : Int) : ofInt n = .zero ↔ n = 0 := by
  rw [ofInt]
  split
  · simpa using by omega
  · split <;> simp_all

lemma toInt_ofInt_mul_natAbs (n : Int) : (ofInt n).toInt * n.natAbs = n := by
  rw [ofInt]
  split
  · rw [toInt]
    omega
  · split
    · rw [toInt]
      omega
    · rw [toInt]
      omega

lemma eq_neg_of_ne {t : Sign} (hs : s ≠ .zero) (ht : t ≠ .zero) (h : s ≠ t) : t = s.neg := by
  cases s <;> cases t <;> first | rfl | contradiction

lemma toInt_mul_lt_toInt_mul {t : Sign} {m n : Nat} (h : s.toInt < t.toInt) (hm : s ≠ .zero → 0 < m)
    (hn : t ≠ .zero → 0 < n) : s.toInt * m < t.toInt * n := by
  cases s <;> cases t <;> simp [toInt] at h hm hn ⊢ <;> omega

lemma toInt_injective {t : Sign} (h : s.toInt = t.toInt) : s = t := by
  cases s <;> cases t <;> first | rfl | contradiction

end Sign

/-! ### Heap integers -/

namespace HeapInteger

open Magnitude

variable {a b h : HeapInteger}

@[simp]
lemma toInt_make (m : Magnitude) : (make s m).toInt = s.toInt * m.toNat := by
  rw [make, toInt]
  by_cases hm : m.trim = []
  · have hz : m.toNat = 0 := by rw [← toNat_trim, hm, toNat_nil]
    simp [hm, hz]
  · rw [if_neg (by simpa using hm), toNat_trim]

lemma isNormal_make {m : Magnitude} (h : s = .zero → m.toNat = 0) : (make s m).IsNormal := by
  refine ⟨isNormal_trim m, ?_⟩
  simp only [make]
  constructor
  · intro hs
    by_contra hm
    rw [if_neg (by simpa using hm)] at hs
    have hz := h hs
    rw [← toNat_trim, (isNormal_trim m).toNat_eq_zero] at hz
    exact hm hz
  · intro hm
    simp [hm]

@[simp]
lemma toInt_ofInt (n : Int) : (ofInt n).toInt = n := by
  rw [ofInt, toInt_make, toNat_ofNat, Sign.toInt_ofInt_mul_natAbs]

lemma isNormal_ofInt (n : Int) : (ofInt n).IsNormal := by
  refine isNormal_make fun hs => ?_
  rw [toNat_ofNat, (Sign.ofInt_eq_zero n).mp hs, Int.natAbs_zero]

lemma IsNormal.toNat_pos (hn : h.IsNormal) (hs : h.sign ≠ .zero) : 0 < toNat h.limbs := by
  rwa [Nat.pos_iff_ne_zero, Ne, hn.1.toNat_eq_zero, ← hn.2]

lemma natAbs_toInt (hn : h.IsNormal) : h.toInt.natAbs = toNat h.limbs := by
  rw [toInt]
  cases hs : h.sign with
  | negative => simp [Sign.toInt]
  | zero => simp [hn.2.mp hs]
  | positive => simp [Sign.toInt]

lemma IsNormal.eq (hn : h.IsNormal) : h = ⟨.ofInt h.toInt, ofNat h.toInt.natAbs⟩ := by
  have hsi : Sign.ofInt h.toInt = h.sign := by
    rw [toInt, Sign.ofInt]
    cases hs : h.sign with
    | negative =>
      have hl := hn.toNat_pos (by rw [hs]; decide)
      rw [Sign.toInt, if_pos (by omega)]
    | zero => rw [Sign.toInt, Int.zero_mul, if_neg (by decide), if_pos rfl]
    | positive =>
      have hl := hn.toNat_pos (by rw [hs]; decide)
      rw [Sign.toInt, if_neg (by omega), if_neg (by omega)]
  rw [hsi, natAbs_toInt hn, ← hn.1.eq_ofNat]

lemma toLongWord?_eq (hn : h.IsNormal) :
    h.toLongWord? = if h.toInt.natAbs < 2 ^ 127 then some h.toInt else none := by
  rw [toLongWord?, natAbs_toInt hn]
  split
  · have hpow : base ^ 4 ≤ toNat h.limbs :=
      calc base ^ 4 ≤ base ^ (h.limbs.length - 1) := Nat.pow_le_pow_right (by decide) (by omega)
        _ ≤ toNat h.limbs := hn.1.pow_le_toNat (List.ne_nil_of_length_pos (by omega))
    have hb : base ^ 4 = 2 ^ 128 := by decide
    rw [if_neg (by omega)]
  · rfl

@[simp]
lemma toInt_neg (h : HeapInteger) : h.neg.toInt = -h.toInt := by
  rw [neg, toInt, toInt, Sign.toInt_neg, Int.neg_mul]

lemma IsNormal.neg (hn : h.IsNormal) : h.neg.IsNormal := ⟨hn.1, (Sign.neg_eq_zero h.sign).trans hn.2⟩

/-- The sum of two numbers of opposite signs is the difference of the magnitudes, with the sign of the
larger one. -/
lemma toInt_make_sub {m n : Magnitude} (hle : toNat n ≤ toNat m) :
    (make s (m.sub n)).toInt = s.toInt * toNat m + s.neg.toInt * toNat n := by
  rw [toInt_make, toNat_sub hle, Int.ofNat_sub hle, Sign.toInt_neg, Int.mul_sub, Int.neg_mul,
    Int.sub_eq_add_neg]

lemma toInt_add (ha : a.IsNormal) (hb : b.IsNormal) : (a.add b).toInt = a.toInt + b.toInt := by
  rw [add]
  split
  · rename_i hz
    simp [toInt, hz, Sign.toInt]
  · rename_i hpos
    split
    · rename_i hz
      simp [toInt, hz, Sign.toInt]
    · rename_i hpos'
      split
      · rename_i hs
        rw [toInt_make, toNat_add, Int.natCast_add, Int.mul_add, toInt, toInt, hs]
      · rename_i hd
        have hopp : b.sign = a.sign.neg := Sign.eq_neg_of_ne hpos hpos' hd
        rw [cmp_eq ha.1 hb.1, show a.toInt = a.sign.toInt * a.limbs.toNat from rfl,
          show b.toInt = b.sign.toInt * b.limbs.toNat from rfl]
        split
        · rename_i hcmp
          rw [toInt_make_sub (Nat.le_of_lt (Nat.compare_eq_gt.mp hcmp)), hopp]
        · rename_i hcmp
          have hba : b.sign.neg = a.sign := by
            rw [hopp]
            cases a.sign <;> rfl
          rw [toInt_make_sub (Nat.le_of_lt (Nat.compare_eq_lt.mp hcmp)), hba, Int.add_comm]
        · rename_i hcmp
          rw [toInt_make, Nat.compare_eq_eq.mp hcmp, hopp, Sign.toInt_neg, Int.neg_mul,
            Int.add_right_neg, Sign.toInt, Int.zero_mul]

lemma IsNormal.add (ha : a.IsNormal) (hb : b.IsNormal) : (a.add b).IsNormal := by
  rw [HeapInteger.add]
  split
  · exact hb
  · rename_i hpos
    split
    · exact ha
    · rename_i hpos'
      split
      · exact isNormal_make fun hz => absurd hz hpos
      · split
        · exact isNormal_make fun hz => absurd hz hpos
        · exact isNormal_make fun hz => absurd hz hpos'
        · exact isNormal_make fun _ => toNat_nil

lemma toInt_mul (a b : HeapInteger) : (a.mul b).toInt = a.toInt * b.toInt := by
  rw [mul, toInt_make, toNat_mul, Sign.toInt_mul, toInt, toInt, Int.natCast_mul, mul_mul_mul_comm]

lemma IsNormal.mul (ha : a.IsNormal) (hb : b.IsNormal) : (a.mul b).IsNormal := by
  refine isNormal_make fun hz => ?_
  rw [toNat_mul]
  rcases (Sign.mul_eq_zero a.sign b.sign).mp hz with hs | hs
  · rw [ha.2.mp hs, toNat_nil, Nat.zero_mul]
  · rw [hb.2.mp hs, toNat_nil, Nat.mul_zero]

lemma compare_sign_mul {m n : Nat} (h : s = .zero → m = n) :
    compare (s.toInt * m) (s.toInt * n) = if s = .negative then (compare m n).swap else compare m n := by
  rcases Nat.lt_trichotomy m n with hlt | rfl | hgt
  · rw [Nat.compare_eq_lt.mpr hlt]
    cases s with
    | negative => simpa [Sign.toInt, Int.compare_eq_gt] using hlt
    | zero => exact absurd (h rfl) (Nat.ne_of_lt hlt)
    | positive => simpa [Sign.toInt, Int.compare_eq_lt] using hlt
  · simp
  · rw [Nat.compare_eq_gt.mpr hgt]
    cases s with
    | negative => simpa [Sign.toInt, Int.compare_eq_lt] using hgt
    | zero => exact absurd (h rfl) (Nat.ne_of_gt hgt)
    | positive => simpa [Sign.toInt, Int.compare_eq_gt] using hgt

lemma cmp_eq_compare (ha : a.IsNormal) (hb : b.IsNormal) : a.cmp b = compare a.toInt b.toInt := by
  rw [HeapInteger.cmp, toInt, toInt]
  split
  · -- one sign: the magnitudes decide, the other way round below zero
    rename_i hs
    rw [cmp_eq ha.1 hb.1, ← hs, compare_sign_mul]
    intro hz
    rw [ha.2.mp hz, hb.2.mp (hs ▸ hz)]
  · rename_i hd
    rcases Int.lt_trichotomy a.sign.toInt b.sign.toInt with hlt | heq | hgt
    · rw [Int.compare_eq_lt.mpr hlt,
        Int.compare_eq_lt.mpr (Sign.toInt_mul_lt_toInt_mul hlt ha.toNat_pos hb.toNat_pos)]
    · exact absurd (Sign.toInt_injective heq) hd
    · rw [Int.compare_eq_gt.mpr hgt,
        Int.compare_eq_gt.mpr (Sign.toInt_mul_lt_toInt_mul hgt hb.toNat_pos ha.toNat_pos)]

end HeapInteger

/-! ### Integers in either form -/

namespace Integer

variable {h : HeapInteger}

/-- A heap integer is normal; a fixnum may be any word. -/
def IsNormal : Integer → Prop
  | .fixnum _ => True
  | .heap h => h.IsNormal

/-- The integer `i` is the one result that stands for `n`: it has the value `n`, it is normal, and it
is a fixnum exactly if `n` fits one. -/
structure Denotes (i : Integer) (n : Int) : Prop where
  toInt_eq : i.toInt = n
  isNormal : i.IsNormal
  isFixnum_iff : i.isFixnum = true ↔ -2 ^ 30 ≤ n ∧ n ≤ 2 ^ 30 - 1

lemma isSmall_iff (n : Int) : isSmall n = true ↔ -2 ^ 30 ≤ n ∧ n ≤ 2 ^ 30 - 1 := by
  rw [isSmall, Bool.and_eq_true, decide_eq_true_iff, decide_eq_true_iff]
  omega

lemma toInt_word {n : Int} (h : isSmall n = true) : (Int32.ofInt n).toInt = n := by
  rw [isSmall_iff] at h
  exact Int32.toInt_ofInt_of_le (by omega) (by omega)

lemma denotes_fixnum {n : Int} (h : isSmall n = true) : (fixnum (.ofInt n)).Denotes n where
  toInt_eq := toInt_word h
  isNormal := trivial
  isFixnum_iff := by simpa [isFixnum] using (isSmall_iff n).mp h

lemma denotes_heap (hn : h.IsNormal) (hbig : ¬isSmall h.toInt = true) : (heap h).Denotes h.toInt where
  toInt_eq := rfl
  isNormal := hn
  isFixnum_iff := by
    rw [← isSmall_iff]
    simpa [isFixnum] using hbig

lemma denotes_ofInt (n : Int) : (ofInt n).Denotes n := by
  rw [ofInt]
  split
  · rename_i hs
    exact denotes_fixnum hs
  · have hh := denotes_heap (HeapInteger.isNormal_ofInt n) (by rwa [HeapInteger.toInt_ofInt])
    rwa [HeapInteger.toInt_ofInt] at hh

lemma filter_toLongWord? (hn : h.IsNormal) :
    h.toLongWord?.filter isSmall = if isSmall h.toInt then some h.toInt else none := by
  rw [HeapInteger.toLongWord?_eq hn]
  split
  · rw [Option.filter_some]
  · have hbig : ¬isSmall h.toInt = true := by
      rw [isSmall_iff]
      omega
    rw [if_neg hbig, Option.filter_none]

lemma denotes_demote (hn : h.IsNormal) : (demote (.heap h)).Denotes h.toInt := by
  rw [demote, filter_toLongWord? hn]
  by_cases hs : isSmall h.toInt = true
  · rw [if_pos hs]
    exact denotes_fixnum hs
  · rw [if_neg hs]
    exact denotes_heap hn hs

lemma Denotes.eq_ofInt {i : Integer} {n : Int} (h : i.Denotes n) : i = ofInt n := by
  have hf := h.isFixnum_iff.trans (isSmall_iff n).symm
  rw [ofInt]
  cases i with
  | fixnum k => rw [if_pos (hf.mp rfl), ← h.toInt_eq, toInt, Int32.ofInt_toInt]
  | heap k =>
    have hk := (HeapInteger.isNormal_ofInt k.toInt).eq
    rw [HeapInteger.toInt_ofInt, ← HeapInteger.IsNormal.eq h.isNormal] at hk
    rw [if_neg fun hs => Bool.false_ne_true (hf.mpr hs), ← h.toInt_eq]
    exact congrArg heap hk.symm

variable {a b : Integer}

section

variable (ha : a.IsNormal)
include ha

lemma IsNormal.toHeap : a.toHeap.IsNormal := by
  cases a with
  | fixnum n => exact HeapInteger.isNormal_ofInt n.toInt
  | heap h => exact ha

omit ha in
@[simp]
lemma toInt_toHeap : a.toHeap.toInt = a.toInt := by
  cases a with
  | fixnum n => exact HeapInteger.toInt_ofInt n.toInt
  | heap h => rfl

variable (hb : b.IsNormal)
include hb

lemma denotes_sums : (a + b).Denotes (a.toInt + b.toInt) ∧ (a - b).Denotes (a.toInt - b.toInt) ∧
    (a * b).Denotes (a.toInt * b.toInt) := by
  have hadd := denotes_demote (ha.toHeap.add hb.toHeap)
  have hsub := denotes_demote (ha.toHeap.add hb.toHeap.neg)
  have hmul := denotes_demote (ha.toHeap.mul hb.toHeap)
  rw [HeapInteger.toInt_add ha.toHeap hb.toHeap] at hadd
  rw [HeapInteger.toInt_add ha.toHeap hb.toHeap.neg] at hsub
  simp only [HeapInteger.toInt_mul, HeapInteger.toInt_neg, toInt_toHeap, ← Int.sub_eq_add_neg] at hadd hsub hmul
  cases a with
  | fixnum m =>
    cases b with
    | fixnum n =>
      exact ⟨denotes_ofInt (m.toInt + n.toInt), denotes_ofInt (m.toInt - n.toInt),
        denotes_ofInt (m.toInt * n.toInt)⟩
    | heap h => exact ⟨hadd, hsub, hmul⟩
  | heap h => exact ⟨hadd, hsub, hmul⟩

omit hb in
lemma denotes_neg : (-a).Denotes (-a.toInt) := by
  cases a with
  | fixnum n => exact denotes_ofInt (-n.toInt)
  | heap h =>
    have hneg := denotes_demote (HeapInteger.IsNormal.neg ha)
    rwa [HeapInteger.toInt_neg] at hneg

lemma compare_eq_compare_toInt : compare a b = compare a.toInt b.toInt := by
  have hh : a.toHeap.cmp b.toHeap = compare a.toInt b.toInt := by
    rw [HeapInteger.cmp_eq_compare ha.toHeap hb.toHeap, toInt_toHeap, toInt_toHeap]
  cases a with
  | fixnum m =>
    cases b with
    | fixnum n => rfl
    | heap h => exact hh
  | heap h => exact hh

end

/-- Arithmetic on integers is the arithmetic of their numbers, and so is their order, in whatever form
the arguments come. -/
theorem denotes_arithmetic (ha : a.IsNormal) (hb : b.IsNormal) :
    (a + b).Denotes (a.toInt + b.toInt) ∧ (a - b).Denotes (a.toInt - b.toInt) ∧
      (a * b).Denotes (a.toInt * b.toInt) ∧ (-a).Denotes (-a.toInt) ∧
      compare a b = compare a.toInt b.toInt ∧
      ((compare a b).isEq = true ↔ a.toInt = b.toInt) ∧
      ((compare a b).isLT = true ↔ a.toInt < b.toInt) ∧
      ((compare a b).isLE = true ↔ a.toInt ≤ b.toInt) ∧
      ((compare a b).isGT = true ↔ b.toInt < a.toInt) ∧
      ((compare a b).isGE = true ↔ b.toInt ≤ a.toInt) := by
  obtain ⟨hadd, hsub, hmul⟩ := denotes_sums ha hb
  refine ⟨hadd, hsub, hmul, denotes_neg ha, compare_eq_compare_toInt ha hb, ?_⟩
  rw [compare_eq_compare_toInt ha hb]
  rcases Int.lt_trichotomy a.toInt b.toInt with hlt | heq | hgt
  · rw [Int.compare_eq_lt.mpr hlt]
    simp [Ordering.isEq, Ordering.isLT, Ordering.isLE, Ordering.isGT, Ordering.isGE]
    omega
  · rw [Int.compare_eq_eq.mpr heq]
    simp [Ordering.isEq, Ordering.isLT, Ordering.isLE, Ordering.isGT, Ordering.isGE, heq]
  · rw [Int.compare_eq_gt.mpr hgt]
    simp [Ordering.isEq, Ordering.isLT, Ordering.isLE, Ordering.isGT, Ordering.isGE]
    omega

/-- The greatest fixnum and a boxed one: the sum leaves the fixnums, the difference comes back. -/
theorem denotes_arithmetic_boxed_one : (fixnum 1073741823 + heap ⟨.positive, [1]⟩).Denotes (2 ^ 30) ∧
      (fixnum 1073741823 - heap ⟨.positive, [1]⟩).Denotes (2 ^ 30 - 2) ∧
      (compare (fixnum 1) (heap ⟨.positive, [1]⟩)).isEq = true := by
  have hone : (heap ⟨.positive, [1]⟩).IsNormal := ⟨by simp [Magnitude.IsNormal], by decide⟩
  exact ⟨(denotes_arithmetic (a := fixnum 1073741823) trivial hone).1,
    (denotes_arithmetic (a := fixnum 1073741823) trivial hone).2.1,
    (denotes_arithmetic (a := fixnum 1) trivial hone).2.2.2.2.2.1.mpr (by decide)⟩

end Integer

end Garnet
