import Garnet.Integer.Magnitude
import Mathlib.Tactic.Ring

/-!
# Arithmetic on limbs

What each operation on magnitudes does to the numbers they stand for. Carries and borrows are part of
the statements: a carry of an addition is at most one, and one of a multiplication is below the base.
Comparison is the only operation that asks its arguments to be normal.
-/

namespace Garnet

open List Nat UInt32

namespace Magnitude

variable {m : Magnitude} {carry : Nat} {a b : Magnitude}

@[simp]
lemma toNat_nil : toNat [] = 0 := rfl

@[simp]
lemma toNat_cons (x : UInt32) (xs : Magnitude) : toNat (x :: xs) = x.toNat + base * toNat xs := rfl

lemma toNat_limb_lt (x : UInt32) : x.toNat < base := x.toNat_lt

lemma toNat_limb_add (n : Nat) : (UInt32.ofNat n).toNat + base * (n / base) = n := by
  rw [UInt32.toNat_ofNat']
  exact Nat.mod_add_div n base

lemma toNat_limb_of_lt {n : Nat} (h : n < base) : (UInt32.ofNat n).toNat = n := UInt32.toNat_ofNat_of_lt' h

lemma toNat_ofNat (n : Nat) : toNat (ofNat n) = n := by
  fun_induction ofNat n with
  | case1 => rfl
  | case2 n _ ih => rw [toNat_cons, ih, toNat_limb_add]

lemma toNat_lt (m : Magnitude) : toNat m < base ^ m.length := by
  induction m with
  | nil => exact Nat.one_pos
  | cons x xs ih =>
    have hx := toNat_limb_lt x
    have hxs : base * (toNat xs + 1) ≤ base * base ^ xs.length := mul_le_mul_left base ih
    rw [toNat_cons, length_cons, pow_succ']
    rw [mul_succ] at hxs
    omega

/-! ### Normal magnitudes -/

lemma toNat_trim : toNat (trim m) = toNat m := by
  induction m with
  | nil => rfl
  | cons x xs ih =>
    rw [toNat_cons, ← ih, trim]
    split
    · rename_i hxs
      split
      · rename_i hx
        simp [hx, hxs]
      · simp [hxs]
    · rfl

lemma isNormal_trim (m : Magnitude) : (trim m).IsNormal := by
  induction m with
  | nil => simp [trim, IsNormal]
  | cons x xs ih =>
    rw [trim]
    split
    · split
      · simp [IsNormal]
      · rename_i hx
        simpa [IsNormal] using hx
    · rename_i hys
      obtain ⟨y, ys, hc⟩ := exists_cons_of_ne_nil hys
      rw [hc] at ih ⊢
      rwa [IsNormal, getLast?_cons_cons]

lemma IsNormal.pow_le_toNat (h : m.IsNormal) (hm : m ≠ []) : base ^ (m.length - 1) ≤ toNat m := by
  induction m with
  | nil => exact absurd rfl hm
  | cons x xs ih =>
    cases xs with
    | nil =>
      have hx : x ≠ 0 := by simpa [IsNormal] using h
      have hpos : x.toNat ≠ 0 := fun hz => hx (UInt32.toNat_inj.mp hz)
      simp only [length_singleton, Nat.sub_self, Nat.pow_zero, toNat_cons, toNat_nil]
      omega
    | cons y ys =>
      have hr : base ^ ys.length ≤ toNat (y :: ys) :=
        ih (by rwa [IsNormal, getLast?_cons_cons] at h) (cons_ne_nil y ys)
      have hmul := Nat.mul_le_mul_left base hr
      rw [toNat_cons, length_cons, length_cons, Nat.add_sub_cancel, Nat.pow_succ']
      omega

lemma IsNormal.toNat_eq_zero (h : m.IsNormal) : toNat m = 0 ↔ m = [] := by
  constructor
  · intro hz
    by_contra hm
    have hle := h.pow_le_toNat hm
    have hpos : 0 < base ^ (m.length - 1) := Nat.pow_pos (by decide)
    omega
  · rintro rfl
    rfl

lemma IsNormal.eq_ofNat (h : m.IsNormal) : m = ofNat (toNat m) := by
  induction m with
  | nil => simp [ofNat]
  | cons x xs ih =>
    have hxs : IsNormal xs := by
      cases xs with
      | nil => simp [IsNormal]
      | cons y ys => simpa [IsNormal] using h
    have hne : toNat (x :: xs) ≠ 0 := fun hz => absurd (h.toNat_eq_zero.mp hz) (cons_ne_nil _ _)
    have hx := toNat_limb_lt x
    rw [ofNat, if_neg hne, toNat_cons, add_mul_div_left _ _ (by decide), div_eq_of_lt hx, zero_add,
      ← ih hxs]
    congr 1
    rw [← UInt32.toNat_inj, UInt32.toNat_ofNat']
    exact ((add_mul_mod_self_left _ _ _).trans (mod_eq_of_lt hx)).symm

/-! ### Sums and differences -/

variable (a b)

lemma toNat_addCarry (h : carry ≤ 1) : toNat (addCarry a b carry) = toNat a + toNat b + carry := by
  fun_induction addCarry a b carry with
  | case1 => rfl
  | case2 carry hz =>
    rw [toNat_cons, toNat_nil, toNat_limb_of_lt (Nat.lt_of_le_of_lt h (by decide))]
    simp
  | case3 x xs carry n ih =>
    have hx := toNat_limb_lt x
    have hn := toNat_limb_add n
    rw [toNat_cons, toNat_cons, toNat_nil, ih (Nat.div_le_of_le_mul (by omega)), toNat_nil,
      Nat.add_zero, Nat.mul_add]
    omega
  | case4 y ys carry n ih =>
    have hy := toNat_limb_lt y
    have hn := toNat_limb_add n
    rw [toNat_cons, toNat_cons, toNat_nil, ih (Nat.div_le_of_le_mul (by omega)), toNat_nil,
      Nat.zero_add, Nat.mul_add]
    omega
  | case5 x xs y ys carry n ih =>
    have hx := toNat_limb_lt x
    have hy := toNat_limb_lt y
    have hn := toNat_limb_add n
    have hne : n / base < 2 := Nat.div_lt_of_lt_mul (by omega)
    rw [toNat_cons, toNat_cons, toNat_cons, ih (Nat.le_of_lt_succ hne), Nat.mul_add, Nat.mul_add]
    omega

lemma toNat_add : toNat (add a b) = toNat a + toNat b :=
  toNat_addCarry a b (Nat.zero_le 1)

lemma toNat_head_tail (m : Magnitude) : toNat m = m.head?.elim 0 UInt32.toNat + base * toNat m.tail := by
  cases m <;> simp

lemma toNat_subBorrow {borrow : Nat} (hb : borrow ≤ 1) (h : toNat b + borrow ≤ toNat a) :
    toNat (subBorrow a b borrow) + toNat b + borrow = toNat a := by
  induction a generalizing b borrow with
  | nil =>
    rw [toNat_nil] at h
    rw [subBorrow, toNat_nil]
    omega
  | cons x xs ih =>
    have hx := toNat_limb_lt x
    have hy : b.head?.elim 0 UInt32.toNat < base := by
      cases b with
      | nil => decide
      | cons y ys => exact toNat_limb_lt y
    rw [toNat_head_tail b] at h ⊢
    rw [subBorrow, toNat_cons, toNat_cons]
    rw [toNat_cons] at h
    generalize b.head?.elim 0 UInt32.toNat = y at h hy ⊢
    generalize hn : base + x.toNat - y - borrow = n
    have hl := toNat_limb_add n
    by_cases hlt : n < base
    · -- the limb is too small, so one is borrowed from the next
      have hdiv : n / base = 0 := div_eq_of_lt hlt
      have hr : toNat b.tail + 1 ≤ toNat xs := by
        by_contra hcon
        have hle := Nat.mul_le_mul_left base (Nat.le_of_lt_succ (Nat.lt_of_not_le hcon))
        omega
      have hih := congrArg (base * ·) (ih b.tail le_rfl hr)
      simp only [Nat.mul_add, Nat.mul_one] at hih
      rw [if_pos hlt]
      rw [hdiv] at hl
      omega
    · have hdiv : n / base = 1 := by
        have hle : n < 2 * base := by omega
        exact Nat.div_eq_of_lt_le (by omega) (by omega)
      have hr : toNat b.tail + 0 ≤ toNat xs := by
        by_contra hcon
        have hle : base * (toNat xs + 1) ≤ base * toNat b.tail :=
          Nat.mul_le_mul_left base (Nat.lt_of_not_le hcon)
        rw [mul_succ] at hle
        omega
      have hih := congrArg (base * ·) (ih b.tail (zero_le 1) hr)
      simp only [Nat.mul_add, Nat.mul_zero] at hih
      rw [if_neg hlt]
      rw [hdiv] at hl
      omega

lemma toNat_sub {a b : Magnitude} (h : toNat b ≤ toNat a) : toNat (sub a b) = toNat a - toNat b := by
  have hsub := toNat_subBorrow a b (zero_le 1) h
  rw [sub, toNat_trim]
  omega

/-! ### Products -/

lemma toNat_scaleAdd {factor : Nat} (hf : factor < base) (m : Magnitude) (hc : carry < base) :
    toNat (scaleAdd factor m carry) = toNat m * factor + carry := by
  induction m generalizing carry with
  | nil =>
    rw [scaleAdd]
    split
    · rename_i hz
      simp [hz]
    · simp [toNat_limb_of_lt hc]
  | cons x xs ih =>
    have hx := toNat_limb_lt x
    have hn := toNat_limb_add (x.toNat * factor + carry)
    have hne : (x.toNat * factor + carry) / base < base := by
      rw [div_lt_iff_lt_mul (by decide)]
      calc x.toNat * factor + carry < x.toNat * factor + base := by omega
        _ ≤ x.toNat * base + base := by
          have hle := mul_le_mul_left x.toNat (le_of_lt hf)
          omega
        _ = (x.toNat + 1) * base := by ring
        _ ≤ base * base := mul_le_mul_right base hx
    rw [scaleAdd, toNat_cons, toNat_cons, ih hne, mul_add]
    calc (UInt32.ofNat (x.toNat * factor + carry)).toNat +
          (base * (toNat xs * factor) + base * ((x.toNat * factor + carry) / base))
        = x.toNat * factor + carry + base * (toNat xs * factor) := by omega
      _ = (x.toNat + base * toNat xs) * factor + carry := by ring

lemma toNat_mulLimbs : toNat (mulLimbs a b) = toNat a * toNat b := by
  induction a with
  | nil => simp [mulLimbs]
  | cons x xs ih =>
    rw [mulLimbs, toNat_add, toNat_scaleAdd (toNat_limb_lt x) b (by decide), toNat_cons, ih,
      toNat_cons, UInt32.toNat_zero]
    ring

lemma toNat_mul : toNat (mul a b) = toNat a * toNat b := by
  rw [mul, toNat_trim, toNat_mulLimbs]

variable {a b}

/-! ### Comparison -/

lemma compare_limb_add {x y a b : Nat} (hx : x < base) (hy : y < base) :
    compare (x + base * a) (y + base * b) = (compare a b).then (compare x y) := by
  rcases lt_trichotomy a b with h | rfl | h
  · have hle := mul_le_mul_left base (succ_le_of_lt h)
    rw [mul_succ] at hle
    rw [Nat.compare_eq_lt.mpr h, Ordering.lt_then, Nat.compare_eq_lt]
    omega
  · rw [Nat.compare_eq_eq.mpr rfl, Ordering.eq_then]
    rcases Nat.lt_trichotomy x y with h | rfl | h
    · rw [Nat.compare_eq_lt.mpr h, Nat.compare_eq_lt]
      omega
    · rw [Nat.compare_eq_eq.mpr rfl, Nat.compare_eq_eq.mpr rfl]
    · rw [Nat.compare_eq_gt.mpr h, Nat.compare_eq_gt]
      omega
  · have hle := Nat.mul_le_mul_left base (Nat.succ_le_of_lt h)
    rw [Nat.mul_succ] at hle
    rw [Nat.compare_eq_gt.mpr h, Ordering.gt_then, Nat.compare_eq_gt]
    omega

lemma cmpLimbs_eq (h : a.length = b.length) : cmpLimbs a b = compare (toNat a) (toNat b) := by
  induction a generalizing b with
  | nil =>
    cases length_eq_zero_iff.mp h.symm
    rfl
  | cons x xs ih =>
    cases b with
    | nil => cases h
    | cons y ys =>
      rw [cmpLimbs, ih (succ.inj h), toNat_cons, toNat_cons,
        compare_limb_add (toNat_limb_lt x) (toNat_limb_lt y)]

lemma IsNormal.toNat_lt_toNat (hb : b.IsNormal) (h : a.length < b.length) : toNat a < toNat b := by
  have hne : b ≠ [] := ne_nil_of_length_pos (zero_lt_of_lt h)
  calc toNat a < base ^ a.length := toNat_lt a
    _ ≤ base ^ (b.length - 1) := Nat.pow_le_pow_right (by decide) (Nat.le_sub_one_of_lt h)
    _ ≤ toNat b := hb.pow_le_toNat hne

lemma cmp_eq (ha : a.IsNormal) (hb : b.IsNormal) : cmp a b = compare (toNat a) (toNat b) := by
  rw [cmp]
  rcases lt_trichotomy a.length b.length with h | h | h
  · rw [Nat.compare_eq_lt.mpr h, Ordering.lt_then, Nat.compare_eq_lt.mpr (hb.toNat_lt_toNat h)]
  · rw [Nat.compare_eq_eq.mpr h, Ordering.eq_then, cmpLimbs_eq h]
  · rw [Nat.compare_eq_gt.mpr h, Ordering.gt_then, Nat.compare_eq_gt.mpr (ha.toNat_lt_toNat h)]

end Magnitude

end Garnet
