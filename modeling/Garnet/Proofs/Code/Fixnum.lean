import Garnet.Proofs.Code.Leveling
import Garnet.Proofs.Code.Machine

/-!
# Arithmetic in line agrees with the integers

A fixnum `n` is the word `2 * n + 1`. The code in line works on such words without untagging them first, and
the machine's overflow flag has to say exactly when the result is no fixnum. The main statement,
`inline_agrees`, is that it does.
-/

namespace Garnet

variable {n : Int} {cc : String}

open List Reg Machine ArithOp BitVec Int
open Integer (isSmall isSmall_iff)

/-! ### Words of fixnums -/

namespace Fixnum

def word (n : Int) : BitVec 32 := .ofInt 32 (2 * n + 1)

lemma toInt_ofInt_of_fits (h : -2 ^ 31 ≤ n ∧ n < 2 ^ 31) : (BitVec.ofInt 32 n).toInt = n := by
  rw [toInt_ofInt]
  exact bmod_eq_of_le (by omega) (by omega)

lemma toInt_word (h : isSmall n) : (word n).toInt = 2 * n + 1 := by
  rw [isSmall_iff] at h
  exact toInt_ofInt_of_fits (by omega)

lemma word_sshiftRight (h : isSmall n) : (word n).sshiftRight 1 = .ofInt 32 n := by
  rw [isSmall_iff] at h
  refine eq_of_toInt_eq ?_
  rw [toInt_sshiftRight, toInt_word (by rwa [isSmall_iff]),
    toInt_ofInt_of_fits (by omega), shiftRight_eq_div_pow]
  omega

lemma word_add_neg_one (n : Int) : word n + 4294967295#32 = .ofInt 32 (2 * n) := by
  have hone : 4294967295#32 = .ofInt 32 (-1) := rfl
  rw [word, hone, ← ofInt_add]
  congr 1
  omega

lemma ofInt_or_one (n : Int) : BitVec.ofInt 32 (2 * n) ||| 1#32 = word n := by
  have hev : BitVec.ofInt 32 (2 * n) &&& 1#32 = 0#32 := by
    refine eq_of_toNat_eq ?_
    have hone : (1#32).toNat = 1 := rfl
    rw [toNat_and, toNat_ofInt, hone, Nat.and_one_is_mod, toNat_ofNat]
    omega
  have hone : 1#32 = .ofInt 32 1 := rfl
  rw [← add_eq_or_of_and_eq_zero _ _ hev, hone, ← ofInt_add, word]

lemma toInt_sshiftRight_append (w : BitVec 32) : (w.sshiftRight 31 ++ w).toInt = w.toInt := by
  have hext : w.sshiftRight 31 ++ w = w.signExtend 64 := by
    ext i hi
    rw [BitVec.getElem_append, BitVec.getElem_signExtend]
    split
    · rfl
    · rw [getElem_sshiftRight]
      split
      · congr 1
        omega
      · rfl
  rw [hext, toInt_signExtend_of_le (by decide)]

lemma extractLsb'_append_setWidth (w : BitVec 64) : w.extractLsb' 32 32 ++ w.setWidth 32 = w := by
  ext i hi
  rw [BitVec.getElem_append]
  split
  · simp [*]
  · have hi' : 32 + (i - 32) = i := by omega
    rw [getElem_extractLsb', hi', getLsbD_eq_getElem]

lemma add_word (x y : Int) : BitVec.ofInt 32 (2 * x) + word y = word (x + y) := by
  rw [word, ← ofInt_add]
  congr 1
  omega

lemma sub_word (x y : Int) : word x - word y = .ofInt 32 (2 * (x - y)) := by
  have hadd := add_word (x - y) y
  rw [Int.sub_add_cancel] at hadd
  rw [← hadd, add_sub_cancel]

lemma mul_word (x y : Int) : BitVec.ofInt 32 x * .ofInt 32 (2 * y) = .ofInt 32 (2 * (x * y)) := by
  rw [← ofInt_mul, mul_left_comm]

end Fixnum

open Fixnum

lemma Integer.tagged?_ofInt (n : Int) :
    (Integer.ofInt n).tagged?.map UInt32.toBitVec = if isSmall n then some (word n) else none := by
  rw [ofInt]
  split
  · have hword : ((Int32.ofInt n).toUInt32 <<< 1 ||| 1).toBitVec = word n :=
      calc ((Int32.ofInt n).toUInt32 <<< 1 ||| 1).toBitVec
        _ = BitVec.ofInt 32 n <<< 1 ||| 1#32 := rfl
        _ = BitVec.ofInt 32 (2 * n) ||| 1#32 := by
            rw [shiftLeft_eq_mul_twoPow, mul_comm, ofInt_mul]
            rfl
        _ = word n := ofInt_or_one n
    simp [tagged?, hword]
  · rfl

/-! ### The operations -/

namespace ArithOp

/-- What an operation that is no comparison gives. -/
def compute? {α : Type} [Add α] [Sub α] [Mul α] (op : ArithOp) (a b : α) : Option α := match op with
  | .add => some (a + b)
  | .sub => some (a - b)
  | .mul => some (a * b)
  | _ => none

def holds? (op : ArithOp) (a b : Integer) : Option Bool := match op with
  | .lt => some (compare a b).isLT
  | .le => some (compare a b).isLE
  | .gt => some (compare a b).isGT
  | .ge => some (compare a b).isGE
  | .eq => some (compare a b).isEq
  | _ => none

lemma holds?_ofInt (op : ArithOp) (x y : Int) : op.holds? (.ofInt x) (.ofInt y) = match op with
      | .lt => some (decide (x < y))
      | .le => some (decide (x ≤ y))
      | .gt => some (decide (y < x))
      | .ge => some (decide (y ≤ x))
      | .eq => some (decide (x = y))
      | _ => none := by
  have hx := Integer.denotes_ofInt x
  have hy := Integer.denotes_ofInt y
  have hc : compare (Integer.ofInt x) (.ofInt y) = compare x y := by
    rw [Integer.compare_eq_compare_toInt hx.isNormal hy.isNormal, hx.toInt_eq, hy.toInt_eq]
  rcases Int.lt_trichotomy x y with hlt | rfl | hgt
  · rw [Int.compare_eq_lt.mpr hlt] at hc
    cases op <;> simp [holds?, hc, hlt, le_of_lt hlt, ne_of_lt hlt]
  · cases op <;> simp [holds?, hc]
  · rw [Int.compare_eq_gt.mpr hgt] at hc
    cases op <;> simp [holds?, hc]
    all_goals omega

lemma compute?_ofInt (op : ArithOp) {x y : Int} (hx : isSmall x) (hy : isSmall y) :
    op.compute? (Integer.ofInt x) (Integer.ofInt y) = (op.compute? x y).map Integer.ofInt := by
  have hax : Integer.ofInt x = .fixnum (.ofInt x) := if_pos hx
  have hay : Integer.ofInt y = .fixnum (.ofInt y) := if_pos hy
  cases op with
  | add | sub | mul =>
    rw [hax, hay]
    show some (Integer.ofInt _) = some (Integer.ofInt _)
    rw [Integer.toInt_word hx, Integer.toInt_word hy]
  | _ => rfl

end ArithOp

/-! ### When the words overflow -/

section

variable {x y : Int} (hx : isSmall x) (hy : isSmall y)
include hx hy

lemma saddOverflow_word : (BitVec.ofInt 32 (2 * x)).saddOverflow (word y) = !isSmall (x + y) := by
  have hword := toInt_word hy
  rw [isSmall_iff] at hx hy
  rw [BitVec.saddOverflow, toInt_ofInt_of_fits (by omega), isSmall]
  simp only [Bool.not_and, ← decide_not, Bool.or_comm]
  congr 2 <;> simp only [eq_iff_iff] <;> omega

lemma ssubOverflow_word : (word x).ssubOverflow (word y) = !isSmall (x - y) := by
  rw [ssubOverflow, toInt_word hx, toInt_word hy, isSmall]
  simp only [Bool.not_and, ← decide_not, Bool.or_comm]
  congr 2 <;> simp only [eq_iff_iff] <;> omega

lemma smulOverflow_word :
    (BitVec.ofInt 32 x).smulOverflow (.ofInt 32 (2 * y)) = !isSmall (x * y) := by
  rw [isSmall_iff] at hx hy
  have hd : x * (2 * y) = 2 * (x * y) := by rw [mul_left_comm]
  rw [BitVec.smulOverflow, toInt_ofInt_of_fits (by omega), toInt_ofInt_of_fits (by omega), isSmall]
  simp only [Bool.not_and, ← decide_not, Bool.or_comm]
  congr 2 <;> simp only [eq_iff_iff] <;> omega

lemma msb_sub_word : ((word x - word y).msb != (word x).ssubOverflow (word y)) = decide (x < y) := by
  rw [ssubOverflow_word hx hy, sub_word, msb_eq_toInt, toInt_ofInt]
  rw [isSmall_iff] at hx hy
  -- the remainder has the sign of the number unless the number is no fixnum
  have hs : decide ((2 * (x - y)).bmod (2 ^ 32) < 0) = decide (x < y ↔ isSmall (x - y)) := by
    rw [decide_eq_decide, isSmall_iff, bmod_def]
    split <;> omega
  rw [hs]
  by_cases hlt : x < y <;> by_cases hsmall : isSmall (x - y) = true <;> simp [hlt]

lemma sub_word_eq_zero : (word x - word y == 0) = decide (x = y) := by
  rw [Bool.eq_iff_iff, beq_iff_eq, decide_eq_true_iff]
  constructor
  · intro h
    have hword : word x = word y := by simpa [sub_eq_iff_eq_add] using h
    have hint := congrArg BitVec.toInt hword
    rw [toInt_word hx, toInt_word hy] at hint
    omega
  · rintro rfl
    exact sub_self (word x)

lemma satisfies?_ofResult (op : ArithOp) (hcc : op.condition? = some cc) :
    (Flags.ofResult ((word x).ssubOverflow (word y)) (word x - word y)).satisfies? cc =
      op.holds? (.ofInt x) (.ofInt y) := by
  have hlt := msb_sub_word hx hy
  have hge : ((word x - word y).msb == (word x).ssubOverflow (word y)) = decide (y ≤ x) := by
    rw [← Bool.not_not (_ == _), ← bne, hlt, ← decide_not]
    simp only [not_lt]
  rw [holds?_ofInt, Flags.ofResult, sub_word_eq_zero hx hy]
  cases op <;> cases hcc
  · exact congrArg some hlt
  · refine congrArg some ?_
    rw [hlt, ← Bool.decide_or, decide_eq_decide]
    omega
  · refine congrArg some ?_
    rw [hge, ← decide_not, ← Bool.decide_and, decide_eq_decide]
    omega
  · exact congrArg some hge
  · rfl

end

/-! ### Running the code -/

section

variable {x y : Int} (hx : isSmall x) (hy : isSmall y) {m : Machine}
  (hecx : m.reg ecx = word x) (hedx : m.reg edx = word y)
include hx hy hecx hedx

/-- The code for fixnums. If the result is one, it ends with its word; if not, it goes to its label, with both
operands in place. -/
lemma run?_fast (op : ArithOp) (hn : op.compute? x y = some n) (overflow : String) :
    if isSmall n then ∃ m', m.run? (op.fast overflow) = some (.falls m') ∧
      m'.flags.overflow = some false ∧ m'.reg eax = word n
    else ∃ m', m.run? (op.fast overflow) = some (.jumps overflow m') ∧
      m'.flags.overflow = some true ∧ m'.reg ecx = word x ∧ m'.reg edx = word y := by
  cases op with
  | add =>
    cases hn
    have hover := saddOverflow_word hx hy
    rw [fast, run?_cons_of_falls rfl, run?_cons_of_falls rfl,
      run?_cons_jumpIf rfl]
    split <;> rename_i hsmall
    · rw [hsmall] at hover
      rw [if_neg (by simp [hecx, hedx, word_add_neg_one, hover])]
      exact ⟨_, rfl, by simp [Flags.ofResult, hecx, hedx, word_add_neg_one, hover],
        by simp [hecx, hedx, word_add_neg_one, add_word]⟩
    · rw [Bool.eq_false_of_not_eq_true hsmall] at hover
      rw [if_pos (by simp [hecx, hedx, word_add_neg_one, hover])]
      exact ⟨_, rfl, by simp [Flags.ofResult, hecx, hedx, word_add_neg_one, hover], by simp [hecx, hedx]⟩
  | sub =>
    cases hn
    have hover := ssubOverflow_word hx hy
    rw [fast, run?_cons_of_falls rfl, run?_cons_of_falls rfl,
      run?_cons_jumpIf rfl]
    split <;> rename_i hsmall
    · rw [hsmall] at hover
      rw [if_neg (by simp [hecx, hedx, hover])]
      exact ⟨_, rfl, rfl, by simp [hecx, hedx, sub_word, ofInt_or_one]⟩
    · rw [Bool.eq_false_of_not_eq_true hsmall] at hover
      rw [if_pos (by simp [hecx, hedx, hover])]
      exact ⟨_, rfl, by simp [Flags.ofResult, hecx, hedx, hover], by simp [hecx, hedx]⟩
  | mul =>
    cases hn
    have hover := smulOverflow_word hx hy
    rw [fast, run?_cons_of_falls rfl, run?_cons_of_falls rfl,
      run?_cons_of_falls rfl, run?_cons_of_falls rfl, run?_cons_jumpIf rfl]
    split <;> rename_i hsmall
    · rw [hsmall] at hover
      rw [if_neg (by simp [hecx, hedx, word_add_neg_one, word_sshiftRight hx, hover])]
      refine ⟨_, rfl, rfl, ?_⟩
      simp [hecx, hedx, word_add_neg_one, word_sshiftRight hx, mul_word, ofInt_or_one]
    · rw [Bool.eq_false_of_not_eq_true hsmall] at hover
      rw [if_pos (by simp [hecx, hedx, word_add_neg_one, word_sshiftRight hx, hover])]
      exact ⟨_, rfl, by simp [hecx, hedx, word_add_neg_one, word_sshiftRight hx, hover], by simp [hecx, hedx]⟩
  | _ => cases hn

lemma run?_untag : ∃ m' : Machine, m'.reg eax = .ofInt 32 x ∧ m'.reg ebx = .ofInt 32 y ∧
    ∀ lines, m.run? ([.movl ecx eax, .ins "sarl" [.imm 1, eax], .movl edx ebx,
      .ins "sarl" [.imm 1, ebx]] ++ lines) = m'.run? lines := by
  refine ⟨?_, ?_, ?_, fun lines => ?_⟩
  rotate_left 3
  · rw [List.cons_append, run?_cons_of_falls rfl, List.cons_append,
      run?_cons_of_falls rfl, List.cons_append, run?_cons_of_falls rfl,
      List.cons_append, run?_cons_of_falls rfl, nil_append]
  · simp [hecx, word_sshiftRight hx]
  · simp [hedx, word_sshiftRight hy]

lemma run?_wide (op : ArithOp) (hn : op.compute? x y = some n) :
    ∃ m', m.run? op.wide = some (.falls m') ∧ (m'.reg edx ++ m'.reg eax).toInt = n := by
  obtain ⟨m', hax, hbx, hrun⟩ := run?_untag hx hy hecx hedx
  rw [isSmall_iff] at hx hy
  have hnx : (BitVec.ofInt 32 x).toInt = x := toInt_ofInt_of_fits (by omega)
  have hny : (BitVec.ofInt 32 y).toInt = y := toInt_ofInt_of_fits (by omega)
  cases op with
  | add =>
    cases hn
    rw [show add.wide = _ ++ [.addl ebx eax, .ins "cltd" []] from rfl, hrun]
    refine ⟨_, rfl, ?_⟩
    simp only [reg_set, hax, hbx, reduceIte, reduceCtorEq,
      toInt_sshiftRight_append, ← ofInt_add]
    exact toInt_ofInt_of_fits (by omega)
  | sub =>
    cases hn
    rw [show sub.wide = _ ++ [.subl ebx eax, .ins "cltd" []] from rfl, hrun]
    refine ⟨_, rfl, ?_⟩
    simp only [reg_set, reg_withFlags, hax, hbx, reduceIte, reduceCtorEq,
      toInt_sshiftRight_append]
    rw [toInt_sub, hnx, hny]
    exact bmod_eq_of_le (by omega) (by omega)
  | mul =>
    cases hn
    rw [show mul.wide = _ ++ [.ins "imull" [ebx]] from rfl, hrun]
    refine ⟨_, rfl, ?_⟩
    simp only [reg_set, reg_withFlags, hax, hbx, reduceIte, reduceCtorEq,
      extractLsb'_append_setWidth]
    rw [toInt_mul, toInt_signExtend_of_le (by decide),
      toInt_signExtend_of_le (by decide), hnx, hny]
    have hle : (x * y).natAbs ≤ 2 ^ 30 * 2 ^ 30 := by
      rw [natAbs_mul]
      exact Nat.mul_le_mul (by omega) (by omega)
    exact bmod_eq_of_le (by omega) (by omega)
  | _ => cases hn

lemma run?_compare (op : ArithOp) (hcc : op.condition? = some cc) (yes : String) :
    ∃ m' holds, op.holds? (.ofInt x) (.ofInt y) = some holds ∧
      m.run? [.cmpl edx ecx, .jumpIf cc yes] = some (if holds then .jumps yes m' else .falls m') ∧
      m'.flags.satisfies? cc = some holds := by
  have hf := satisfies?_ofResult hx hy op hcc
  cases hh : op.holds? (.ofInt x) (.ofInt y) with
  | none => cases op <;> cases hcc <;> cases hh
  | some holds =>
    rw [hh, ← hecx, ← hedx] at hf
    rw [run?_cons_of_falls rfl, run?_cons_jumpIf hf]
    refine ⟨m.withFlags _, holds, rfl, ?_, hf⟩
    cases holds <;> rfl

end

/-! ### The code that is written -/

/-- The lines with which the code of an operation on fixnums starts. -/
def Emit.inlineStart (op : ArithOp) (overflow done yes : String) : List Line := match op.condition? with
  | some cc => [.cmpl edx ecx, .jumpIf cc yes]
  | none => op.fast overflow ++ [.jmp done, .label overflow] ++ op.wide

lemma Emit.lines_arithFixnum {x : Exits} {op : ArithOp} {done overflow : String} {s s' : Emitter}
    {a : Unit} (h : arithFixnum x op done overflow s = .ok a s') :
    ∃ yes, s.lines ++ inlineStart op overflow done yes <+: s'.lines := by
  unfold arithFixnum at h
  unfold inlineStart
  cases hcc : op.condition? with
  | some cc =>
    simp only [hcc] at h
    obtain ⟨u, t, hc, h⟩ := bind_eq_ok.mp h
    obtain ⟨yes, t', hyes, h⟩ := bind_eq_ok.mp h
    have hl : t'.lines = t.lines := by
      cases hyes
      rfl
    refine ⟨yes, ?_⟩
    rw [(writeAll_eq_ok h).1, hl, lines_write hc, append_assoc s.lines]
    exact (prefix_append_right_inj _).mpr (prefix_append [_, _] _)
  | none =>
    simp only [hcc] at h
    obtain ⟨u, t, hl, h⟩ := bind_eq_ok.mp h
    refine ⟨"", ?_⟩
    rw [← (writeAll_eq_ok hl).1]
    obtain ⟨_, t', hca, hj⟩ := bind_eq_ok.mp h
    obtain ⟨code, hco, -⟩ := levels_callRuntime x _ _ hca
    rw [lines_write hj, hco, List.append_assoc]
    exact prefix_append _ _

/-- The code `lines` leaves the word of `i` in `%eax` and reports no overflow. -/
def Machine.GivesWord (m : Machine) (lines : List Line) (i : Integer) : Prop :=
  ∃ m', m.run? lines = some (.falls m') ∧ m'.flags.overflow = some false ∧ i.tagged? = some ⟨m'.reg eax⟩

/-- The code `lines` reports an overflow and goes to `overflow`, from where the code `rest` leaves the
number `n` in `%edx` and `%eax`. -/
def Machine.GivesWide (m : Machine) (lines : List Line) (overflow : String) (rest : List Line)
    (n : Int) : Prop :=
  ∃ m', m.run? lines = some (.jumps overflow m') ∧ m'.flags.overflow = some true ∧
    ∃ m'', m'.run? rest = some (.falls m'') ∧ (m''.reg edx ++ m''.reg eax).toInt = n

/-- Arithmetic in line on two fixnums agrees with the integers: an operation gives the word of the
integer, or that integer is no fixnum and the code for the other case gives the exact number; a comparison
jumps just when it holds. This is the code that is emitted. -/
theorem inline_agrees {x y : Int} (hx : isSmall x) (hy : isSmall y) {m : Machine}
    (hecx : m.reg ecx = word x) (hedx : m.reg edx = word y) (op : ArithOp) (overflow yes : String) :
    (op.condition? = none →
      ∃ i n, op.compute? (Integer.ofInt x) (Integer.ofInt y) = some i ∧ op.compute? x y = some n ∧
        (m.GivesWord (op.fast overflow) i ∨
          i.isFixnum = false ∧ m.GivesWide (op.fast overflow) overflow op.wide n)) ∧
      (∀ cc, op.condition? = some cc → ∃ m' holds, op.holds? (.ofInt x) (.ofInt y) = some holds ∧
          m.run? [.cmpl edx ecx, .jumpIf cc yes] = some (if holds then .jumps yes m' else .falls m') ∧
          m'.flags.satisfies? cc = some holds) ∧
      ∀ ctx done s a s', Emit.arithFixnum ctx op done overflow s = .ok a s' →
        ∃ yes, s.lines ++ Emit.inlineStart op overflow done yes <+: s'.lines := by
  refine ⟨fun hop => ?_, fun cc hcc => run?_compare hx hy hecx hedx op hcc yes,
    fun ctx done s a s' h => Emit.lines_arithFixnum h⟩
  obtain ⟨n, hn⟩ : ∃ n, op.compute? x y = some n := by
    cases op <;> first | exact ⟨_, rfl⟩ | cases hop
  refine ⟨.ofInt n, n, by rw [compute?_ofInt op hx hy, hn]; rfl, hn, ?_⟩
  have htagged := Integer.tagged?_ofInt n
  have hfast := run?_fast hx hy hecx hedx op hn overflow
  by_cases hsmall : isSmall n = true
  · left
    rw [if_pos hsmall] at hfast
    obtain ⟨m', hrun, hover, hax⟩ := hfast
    rw [if_pos hsmall, ← hax] at htagged
    obtain ⟨w, hw, hword⟩ := Option.map_eq_some_iff.mp htagged
    exact ⟨m', hrun, hover, by rw [hw, ← hword]⟩
  · right
    rw [if_neg hsmall] at hfast
    obtain ⟨m', hrun, hover, hecx', hedx'⟩ := hfast
    obtain ⟨m'', hwide, hint⟩ := run?_wide hx hy hecx' hedx' op hn
    refine ⟨?_, m', hrun, hover, m'', hwide, hint⟩
    rw [Integer.ofInt, if_neg hsmall]
    rfl

/-- The product of the greatest fixnum and the least one is no fixnum. -/
theorem inline_agrees_mul_extremes :
    ∃ m : Machine, m.reg ecx = word (2 ^ 30 - 1) ∧ m.reg edx = word (-2 ^ 30) ∧
      ∃ i n, mul.compute? (Integer.ofInt (2 ^ 30 - 1)) (Integer.ofInt (-2 ^ 30)) = some i ∧
        mul.compute? (2 ^ 30 - 1 : Int) (-2 ^ 30) = some n ∧
          (m.GivesWord (mul.fast ".Lbig") i ∨ i.isFixnum = false ∧
              m.GivesWide (mul.fast ".Lbig") ".Lbig" mul.wide n) :=
  ⟨⟨fun r => if r = ecx then word (2 ^ 30 - 1) else word (-2 ^ 30), ⟨none, none, none⟩⟩, rfl, rfl,
    (inline_agrees (by decide) (by decide) rfl rfl .mul ".Lbig" ".Lyes").1 rfl⟩

end Garnet
