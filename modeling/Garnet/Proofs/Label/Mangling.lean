import Garnet.Label.Mangling
import Garnet.Literal.Numeral
import Mathlib.Tactic.Lemma

/-!
# Labels can be read back

The label of a name is a code in which every character has its own word, and the words of two
characters are never confused, whatever follows. So names with the same label are equal, and the label
of a name that is followed by something else still tells the name.

Underscores come in pairs: each word holds none or two of them.
-/

namespace Garnet

open List Option

variable {c : Char} {n : Nat}

/-! ### Numerals -/

lemma mem_toDigits_sixteen (h : c ∈ Nat.toDigits 16 n) : ∃ d < 16, c = Nat.digitChar d := by
  induction n using Nat.strongRecOn with
  | ind n ih =>
    rw [Nat.toDigits_eq_if (by decide)] at h
    split at h
    · rename_i hlt
      exact ⟨n, hlt, mem_singleton.mp h⟩
    · rcases mem_append.mp h with h | h
      · exact ih (n / 16) (Nat.div_lt_self (by omega) (by decide)) h
      · exact ⟨n % 16, Nat.mod_lt n (by decide), mem_singleton.mp h⟩

namespace Numeral

lemma toList_decimal : (decimal n).toList = Nat.toDigits 10 n := String.toList_ofList

lemma decimal_injective {m : Nat} (h : decimal m = decimal n) : m = n := by
  have hd : Nat.toDigits 10 m = Nat.toDigits 10 n := by rw [← toList_decimal, ← toList_decimal, h]
  rw [← Nat.ofDigitChars_ten_toDigits (n := m), hd, Nat.ofDigitChars_ten_toDigits]

lemma isDigit_of_mem_decimal (h : c ∈ (decimal n).toList) : c.isDigit = true := by
  rw [toList_decimal] at h
  exact Nat.isDigit_of_mem_toDigits (by decide) (by decide) h

lemma underscore_notMem_decimal (n : Nat) : '_' ∉ (decimal n).toList := fun h =>
  absurd (isDigit_of_mem_decimal h) (by decide)

lemma toList_decimal_ne_nil (n : Nat) : (decimal n).toList ≠ [] := by
  rw [toList_decimal]
  exact Nat.toDigits_ne_nil

end Numeral

namespace Label

/-! ### The code of a character -/

lemma digitChar_spec : ∀ d < 16, (Nat.digitChar d).isAlphanum ∧ Nat.digitChar d ≠ '+' ∧
    Nat.digitChar d ≠ 'o' ∧
    (if (Nat.digitChar d).isDigit then some ((Nat.digitChar d).toNat - '0'.toNat)
      else if 'a' ≤ Nat.digitChar d && Nat.digitChar d ≤ 'f' then
        some ((Nat.digitChar d).toNat - 'a'.toNat + 10)
      else if 'A' ≤ Nat.digitChar d && Nat.digitChar d ≤ 'F' then
        some ((Nat.digitChar d).toNat - 'A'.toNat + 10)
      else none) = some d := by
  decide

lemma codes_spec : ∀ p ∈ codes, (∃ c ∈ p.2.toList.head?, c.isDigit = false) ∧
    (∀ c ∈ p.2.toList, c.isAlphanum) ∧ codes.find? (·.2.toList == p.2.toList) = some p := by
  have hall : codes.all (fun p => p.2.toList.head?.any (fun c => !c.isDigit) &&
      p.2.toList.all Char.isAlphanum && codes.find? (·.2.toList == p.2.toList) == some p) = true := by
    decide
  intro p hp
  have h := all_eq_true.mp hall p hp
  rw [Bool.and_eq_true, Bool.and_eq_true] at h
  obtain ⟨⟨hh, ha⟩, hf⟩ := h
  refine ⟨?_, all_eq_true.mp ha, by simpa using hf⟩
  cases hcode : p.2.toList.head? with
  | none =>
    rw [hcode] at hh
    cases hh
  | some c =>
    rw [hcode] at hh
    exact ⟨c, rfl, by simpa using hh⟩

lemma head_code (c : Char) : ∃ a ∈ (code c).head?, a.isDigit = false := by
  rw [code]
  split
  · rename_i p hp
    exact (codes_spec _ (mem_of_find?_eq_some hp)).1
  · exact ⟨'x', rfl, by decide⟩

lemma isAlphanum_of_mem_code {a : Char} (h : a ∈ code c) : a.isAlphanum := by
  rw [code] at h
  split at h
  · rename_i hp
    exact (codes_spec _ (mem_of_find?_eq_some hp)).2.1 a h
  · rcases mem_cons.mp h with rfl | h
    · decide
    · obtain ⟨d, hd, rfl⟩ := mem_toDigits_sixteen h
      exact (digitChar_spec d hd).1

lemma underscore_notMem_code (c : Char) : '_' ∉ code c := fun h =>
  absurd (isAlphanum_of_mem_code h) (by decide)

lemma foldlM_toDigits {f : Nat → Char → Option Nat}
    (hf : ∀ n, ∀ d < 16, f n (Nat.digitChar d) = some (n * 16 + d)) (n : Nat) :
    (Nat.toDigits 16 n).foldlM f 0 = some n := by
  induction n using Nat.strongRecOn with
  | ind n ih =>
    rw [Nat.toDigits_eq_if (by decide)]
    split
    · rename_i hlt
      simp [hf 0 n hlt]
    · have hmod := Nat.mod_lt n (by decide : 0 < 16)
      rw [foldlM_append, ih (n / 16) (Nat.div_lt_self (by omega) (by decide))]
      simp only [bind_eq_bind, bind_some, foldlM_cons, foldlM_nil,
        hf (n / 16) (n % 16) hmod, Option.pure_def]
      congr 1
      omega

lemma hexValue?_toDigits : hexValue? (Nat.toDigits 16 n) = some n := by
  obtain ⟨c, cs, hcs⟩ := exists_cons_of_ne_nil (Nat.toDigits_ne_nil (n := n) (b := 16))
  have hc : c ≠ '+' := by
    obtain ⟨d, hd, rfl⟩ := mem_toDigits_sixteen (n := n) (c := c) (by simp [hcs])
    exact (digitChar_spec d hd).2.1
  rw [hexValue?]
  · rw [if_neg (by simp [hcs])]
    refine foldlM_toDigits (fun m d hd => ?_) n
    simp only [(digitChar_spec d hd).2.2.2, map_some]
  · intro rest heq
    exact hc (head_eq_of_cons_eq (hcs.symm.trans heq))

lemma decode?_code (c : Char) : decode? (code c) = some c := by
  rw [code]
  split
  · rename_i p hp
    have hmem := mem_of_find?_eq_some hp
    unfold decode?
    rw [(codes_spec _ hmem).2.2]
    simpa using find?_some hp
  · rename_i hp
    have hn : codes.find? (·.2.toList == 'x' :: Nat.toDigits 16 c.toNat) = none := by
      -- among the words only one starts with an `x`, and it goes on with an `o`
      have hw : ∀ p ∈ codes, p.2.toList.head? = some 'x' → 'o' ∈ p.2.toList.tail := by decide
      refine find?_eq_none.mpr fun p hp heq => ?_
      have heq : p.2.toList = 'x' :: Nat.toDigits 16 c.toNat := by simpa using heq
      have ho := hw p hp (heq ▸ rfl)
      rw [heq] at ho
      obtain ⟨d, hd, hc⟩ := mem_toDigits_sixteen ho
      exact (digitChar_spec d hd).2.2.1 hc.symm
    rw [decode?, hn]
    simp only [hexValue?_toDigits, bind_some, charOf?]
    rw [if_pos (show c.toNat.isValidChar from c.valid), Char.ofNat_toNat]

/-! ### Reading a label back -/

lemma demangleFrom_code {code : List Char} (h : '_' ∉ code) (read rest : List Char) :
    demangleFrom (some read) (code ++ '_' :: rest) =
      demangleFrom (some (code.reverse ++ read)) ('_' :: rest) := by
  induction code generalizing read with
  | nil => rfl
  | cons c code ih =>
    rw [mem_cons, not_or] at h
    rw [cons_append, demangleFrom]
    simp only [bne_iff_ne, ne_eq, Ne.symm h.1, not_false_eq_true, if_true]
    rw [ih h.2 (c :: read), reverse_cons, append_assoc]
    rfl

/-- The words that are read as a character: the character itself, unless it is an underscore, two underscores
for one, and a code of the character between underscores. -/
inductive Reads : Char → List Char → Prop
  | plain {c : Char} (h : c ≠ '_') : Reads c [c]
  | underscore : Reads '_' ['_', '_']
  | escape {c : Char} {code : List Char} (hne : code ≠ []) (hcode : '_' ∉ code) (h : decode? code = some c) :
      Reads c ('_' :: (code ++ ['_']))

lemma demangleFrom_of_reads {word : List Char} (h : Reads c word) (rest : List Char) :
    demangleFrom none (word ++ rest) = (demangleFrom none rest).map (c :: ·) := by
  cases h with
  | plain h => simp [demangleFrom, h]
  | underscore => cases h : demangleFrom none rest <;> simp [demangleFrom, h]
  | @escape _ code hne hcode h =>
    have ho : demangleFrom none ('_' :: (code ++ ['_']) ++ rest) =
        demangleFrom (some []) (code ++ '_' :: rest) := by
      simp [demangleFrom]
    rw [ho, demangleFrom_code hcode, append_nil, demangleFrom]
    cases demangleFrom none rest <;> simp [h, hne]

lemma reads_mangleChar (c : Char) : Reads c (mangleChar c) := by
  rw [mangleChar]
  split
  · rename_i haln
    refine .plain ?_
    rintro rfl
    exact absurd haln (by decide)
  · split
    · rename_i hc
      obtain rfl : c = '_' := by simpa using hc
      exact .underscore
    · refine .escape ?_ (underscore_notMem_code c) (decode?_code c)
      obtain ⟨a, ha, -⟩ := head_code c
      rintro hnil
      rw [hnil] at ha
      cases ha

lemma demangleFrom_mangle (cs rest : List Char) :
    demangleFrom none (cs.flatMap mangleChar ++ rest) = (demangleFrom none rest).map (cs ++ ·) := by
  induction cs with
  | nil => simp
  | cons c cs ih =>
    rw [flatMap_cons, append_assoc, demangleFrom_of_reads (reads_mangleChar c), ih, Option.map_map]
    rfl

lemma toList_mangle (name : String) : (mangle name).toList = name.toList.flatMap mangleChar :=
  String.toList_ofList

lemma demangle?_mangle_append (name rest : String) :
    demangle? (mangle name ++ rest) = (demangle? rest).map (name ++ ·) := by
  rw [demangle?, String.toList_append, toList_mangle, demangleFrom_mangle, Option.map_map, demangle?,
    Option.map_map]
  congr 1
  funext cs
  simp

lemma demangle?_mangle (name : String) : demangle? (mangle name) = some name := by
  have h := demangle?_mangle_append name ""
  rwa [String.append_empty, show demangle? "" = some "" from rfl, map_some, String.append_empty] at h

lemma mangle_injective {a b : String} (h : mangle a = mangle b) : a = b :=
  some.inj ((demangle?_mangle a).symm.trans (h ▸ demangle?_mangle b))

lemma append_mangle_injective (start : String) : Function.Injective fun name => start ++ mangle name :=
  fun _ _ h => mangle_injective (String.append_right_inj start |>.mp h)

/-! ### The characters of a label -/

lemma Reads.count {word : List Char} (h : Reads c word) : word.count '_' = 0 ∨ word.count '_' = 2 := by
  cases h with
  | plain h => exact .inl (by simp [h])
  | underscore => exact .inr rfl
  | escape _ hcode _ => exact .inr (by simp [count_eq_zero.mpr hcode])

lemma count_mangle (cs : List Char) : (cs.flatMap mangleChar).count '_' % 2 = 0 := by
  induction cs with
  | nil => rfl
  | cons c cs ih =>
    rw [flatMap_cons, count_append]
    rcases (reads_mangleChar c).count with h | h <;> omega

lemma isAlphanum_or_underscore_of_mem_mangle {name : String} (h : c ∈ (mangle name).toList) :
    c.isAlphanum ∨ c = '_' := by
  rw [toList_mangle] at h
  obtain ⟨a, -, h⟩ := mem_flatMap.mp h
  rw [mangleChar] at h
  split at h
  · rw [mem_singleton.mp h]
    exact .inl ‹_›
  · split at h
    · exact .inr (by simpa using h)
    · rcases mem_cons.mp h with h | h
      · exact .inr h
      · exact (mem_append.mp h).imp isAlphanum_of_mem_code mem_singleton.mp

/-- The label of a name holds ASCII letters, digits and underscores only, and the name can be read back,
whatever follows. So names have symbols of their own, and the methods of a class have labels of their
own. -/
theorem mangle_readable :
    (∀ name, (∀ c ∈ (mangle name).toList, c.isAlphanum ∨ c = '_') ∧ demangle? (mangle name) = some name ∧
      ∀ rest, demangle? (mangle name ++ rest) = (demangle? rest).map (name ++ ·)) ∧
    Function.Injective methodOffset ∧ Function.Injective missingMethod ∧
    ∀ classLabel, Function.Injective (method classLabel) := by
  refine ⟨fun name => ⟨fun c => isAlphanum_or_underscore_of_mem_mangle, demangle?_mangle name,
    demangle?_mangle_append name⟩, append_mangle_injective _, append_mangle_injective _, fun classLabel => ?_⟩
  exact append_mangle_injective ("__method_" ++ classLabel ++ "_")

/-! ### What else is read -/

/-- The label `l` is a row of words, one for each character of a name. -/
inductive Spells : List Char → List Char → Prop
  | nil : Spells [] []
  | cons {c : Char} {w l name : List Char} (h : Reads c w) (hs : Spells l name) : Spells (w ++ l) (c :: name)

/-- Inside an escape, its underscore and the code read so far stand before the rest. -/
lemma spells_of_demangleFrom {o : Option (List Char)} {l name : List Char} (hcode : ∀ cs ∈ o, '_' ∉ cs)
    (h : demangleFrom o l = some name) : Spells (o.elim [] (fun cs => '_' :: cs.reverse) ++ l) name := by
  induction l generalizing o name with
  | nil =>
    cases o with
    | none =>
      cases h
      exact .nil
    | some code => cases h
  | cons c l ih =>
    cases o with
    | none =>
      rw [demangleFrom] at h
      split at h
      · rename_i hc
        obtain rfl : c = '_' := by simpa using hc
        exact ih (by simp) h
      · rename_i hc
        obtain ⟨name, hn, rfl⟩ := map_eq_some_iff.mp h
        exact .cons (w := [c]) (.plain (by simpa using hc)) (ih (o := none) (by simp) hn)
    | some code =>
      have hcode := hcode code rfl
      rw [demangleFrom] at h
      split at h
      · rename_i hc
        have hre : ∀ cs ∈ some (c :: code), '_' ∉ cs := by
          rintro _ ⟨⟩
          exact not_mem_cons_of_ne_of_not_mem (bne_iff_ne.mp hc).symm hcode
        simpa using ih hre h
      · rename_i hc
        obtain rfl : c = '_' := by simpa using hc
        have hr {d : Char} (h : ((demangleFrom none l).bind fun ds => some (d :: ds)) = some name) :
            ∃ ds, name = d :: ds ∧ Spells l ds := by
          obtain ⟨ds, hds, h⟩ := bind_eq_some_iff.mp h
          cases h
          exact ⟨ds, rfl, ih (o := none) (by simp) hds⟩
        dsimp only at h
        split at h
        · rename_i hnil
          obtain rfl : code = [] := by simpa using hnil
          obtain ⟨ds, rfl, hds⟩ := hr h
          exact .cons (w := ['_', '_']) .underscore hds
        · rename_i hne
          obtain ⟨d, hd, h⟩ := bind_eq_some_iff.mp h
          obtain ⟨ds, rfl, hds⟩ := hr h
          have hw := Spells.cons (.escape (by simpa using hne) (by simpa using hcode) hd) hds
          simpa using hw

lemma demangleFrom_of_spells {l name : List Char} (h : Spells l name) :
    demangleFrom none l = some name := by
  induction h with
  | nil => rfl
  | cons h _ ih => rw [demangleFrom_of_reads h, ih, map_some]

/-- A text is read as a name if it is a row of words that are read as the characters of the name. They need
not be the words of the label: any character but the underscore is also read where it stands for itself, and
so are other hexadecimal codes. -/
theorem demangle?_eq_some_iff (l name : String) :
    demangle? l = some name ↔ Spells l.toList name.toList := by
  rw [demangle?, map_eq_some_iff]
  constructor
  · rintro ⟨cs, hcs, rfl⟩
    rw [String.toList_ofList]
    exact spells_of_demangleFrom (o := none) (by simp) hcs
  · intro h
    exact ⟨_, demangleFrom_of_spells h, String.ofList_toList⟩

/-- Texts that are read as a name, but are not its label. -/
theorem demangle?_hyphen : demangle? "a-b" = some "a-b" ∧ mangle "a-b" ≠ "a-b" ∧
    demangle? "_x41_" = some "A" ∧ mangle "A" ≠ "_x41_" := by
  decide

end Label

end Garnet
