import Garnet.Proofs.Code.Fixnum
import Garnet.Proofs.Integer.Decimal

/-!
# Integer literals in the text of a program

The number of a literal passes through three bases. Its digits are brought to decimal text, the text is
read into limbs of 32 bits where the code is written, and the limbs are the words of the data. No step
changes the number, whatever its size (`literal_exact`): a heap integer is normal, and a number has one
normal form only, so its words are settled by its value.
-/

namespace Garnet

open List Reg Numeral

namespace Integer

lemma fixnumWord?_ofInt (n : Int) : fixnumWord? (ofInt n) = if isSmall n then some (2 * n + 1) else none := by
  have hw (w : UInt32) : wrap32 w.toNat = w.toBitVec.toInt := (BitVec.toInt_eq_toNat_bmod _).symm
  have ht := congrArg (Option.map BitVec.toInt) (tagged?_ofInt n)
  rw [Option.map_map] at ht
  simp only [fixnumWord?, hw]
  refine ht.trans ?_
  split
  · rename_i hs
    rw [Option.map_some, Fixnum.toInt_word hs]
  · rfl

lemma toHeap_ofInt (n : Int) : (ofInt n).toHeap = ⟨.ofInt n, .ofNat n.natAbs⟩ := by
  have hh := (denotes_ofInt n).isNormal.toHeap.eq
  rwa [toInt_toHeap, (denotes_ofInt n).toInt_eq] at hh

lemma parse?_toDecimal (negative : Bool) (radix : Nat) (ds : Bytes) :
    parse? (toDecimal negative radix ds) =
      some (ofInt (if negative then -(value radix ds : Int) else value radix ds)) := by
  have hr := toInt_parse? (toDecimal negative radix ds)
  rw [number?_toDecimal] at hr
  obtain ⟨i, hi, hv⟩ := Option.map_eq_some_iff.mp hr
  rw [hi, ← hv, ← (denotes_of_parse? hi).eq_ofInt]

end Integer

lemma Data.integer_infix_lines {l : Literals} {k : Nat} {h : HeapInteger}
    (hk : l.integers.toList[k]? = some h) (p : Program) :
    integer (decimal k) h <:+: lines p l := by
  have hmem : (decimal k, h) ∈ numbered l.integers.toList := by
    obtain ⟨hlt, rfl⟩ := List.getElem?_eq_some_iff.mp hk
    exact mem_mapIdx.mpr ⟨k, hlt, rfl⟩
  obtain ⟨before, after, hs⟩ := append_of_mem hmem
  have hint : integer (decimal k) h <:+:
      (numbered l.integers.toList).flatMap fun q => integer q.1 q.2 := by
    rw [hs, flatMap_append, flatMap_cons]
    exact ⟨_, _, append_assoc _ _ _⟩
  refine hint.trans ?_
  rw [lines]
  iterate 5 refine .trans ?_ (prefix_append _ _).isInfix
  exact (suffix_append _ _).isInfix

/-- The code of a tree is one line that loads the number `n`: a fixnum as its word, and any other number by
the address of its sign and its limbs in the data, whatever code is written behind. -/
def Emit.Loads (e : Tree) (n : Int) : Prop :=
  ∀ (x : Exits) (s : Emitter), ∃ s', expr x e s = .ok () s' ∧
    if Integer.isSmall n then s'.lines = s.lines ++ [.movl (.imm (2 * n + 1)) eax]
    else ∃ k : Nat, s'.lines = s.lines ++ [.movl (.addr (".Lint" ++ decimal k)) eax] ∧
      ∀ (p : Program) (t : Shared), s'.shared.Grows t →
        Data.integer (decimal k) ⟨.ofInt n, .ofNat n.natAbs⟩ <:+: Data.lines p t.literals

lemma Emit.loads_of_loadInteger {e : Tree} {n : Int}
    (h : ∀ x s, expr x e s = loadInteger (.ofInt n) s) : Loads e n := by
  intro x s
  rw [h, loadInteger, Integer.fixnumWord?_ofInt, Integer.toHeap_ofInt]
  split
  · exact ⟨_, rfl, by simp [Emitter.lines]⟩
  · refine ⟨_, rfl, s.shared.literals.integers.size, by simp [Emitter.lines], fun p t ht => ?_⟩
    obtain ⟨more, hm⟩ := ht.integers
    refine Data.integer_infix_lines ?_ p
    rw [← hm]
    simp

/-- The digits of a number of any size, in any radix, become its decimal text, with a minus sign if there is
one; only a zero behind a minus sign is not the decimal numeral of its number. The text is read as the integer
of the number, with its sign and its limbs, and the code of the literal loads this integer, whether it comes
as text or as a number. -/
theorem literal_exact (negative : Bool) (radix : Nat) (ds : Bytes) :
    let size := value radix ds
    let n : Int := if negative then -(size : Int) else size
    let text := toDecimal negative radix ds
    text = (if negative ∧ size = 0 then "-0" else decimal n) ∧
      (∃ i, Integer.parse? text = some i ∧ i.Denotes n ∧ i.toHeap = ⟨.ofInt n, .ofNat n.natAbs⟩) ∧
      Emit.Loads (.big text) n ∧ Emit.Loads (.int n) n := by
  intro size n text
  have hparse : Integer.parse? text = some (.ofInt n) := Integer.parse?_toDecimal negative radix ds
  refine ⟨?_, ⟨_, hparse, Integer.denotes_ofInt n, Integer.toHeap_ofInt n⟩,
    Emit.loads_of_loadInteger fun x s => ?_, Emit.loads_of_loadInteger fun x s => ?_⟩
  · have htext : text = (if negative then "-" else "") ++ decimal size := toDecimal_eq ..
    rw [htext]
    cases negative with
    | false => exact String.empty_append
    | true =>
      change "-" ++ decimal size =
        if true = true ∧ size = 0 then "-0" else decimal (-(size : Int))
      cases size with
      | zero => rfl
      | succ k => exact String.ofList_append.symm.trans (if_neg fun h => Nat.succ_ne_zero k h.2).symm
  · rw [Emit.expr, recurseOn_eq]
    simp only [Emit.step, hparse]
    rfl
  · rw [Emit.expr, recurseOn_eq]
    rfl

/-- A zero behind a minus sign keeps the sign, and its word is no datum but stands in the code. -/
theorem literal_negative_zero : toDecimal true 16 [48] = "-0" ∧ decimal (-(value 16 [48] : Int)) = "0" ∧
    fixnumWord? (.ofInt 0) = some 1 := by
  refine ⟨(toDecimal_eq ..).trans (by decide), by decide, ?_⟩
  rw [Integer.fixnumWord?_ofInt]
  decide

end Garnet
