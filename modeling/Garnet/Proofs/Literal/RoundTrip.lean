import Garnet.Proofs.Source.Utf8
import Garnet.Proofs.Token.Forward

/-!
# Written literals read back

`Escape.encode` writes bytes so that they can stand between double quotes. A byte is written as itself, or as a
backslash and what the lexer decodes to it (`Escape.Writes`). Neither form has a byte that could close the literal
or start interpolated code, and an escape of digits has all three that it can take, so it takes no digit that
follows. So the search for the closing quote passes over the form of a byte as a whole, and the split into parts
gives the byte back.
-/

namespace Garnet

open List Escape Byte UInt8 Interpolation

variable {b : Byte} {l : Lexer} {form : Bytes}

/-! ### Bytes of texts -/

lemma Byte.utf8EncodeChar_toChar (h : b ≤ 126) : String.utf8EncodeChar b.toChar = [b] := by
  have hval : b.toChar.val.toNat = b.toNat := rfl
  have hle : b.toNat ≤ 126 := le_iff_toNat_le.mp h
  unfold String.utf8EncodeChar
  simp only [hval]
  rw [if_pos (by omega), UInt8.ofNat_toNat]

/-! ### The written form of a byte -/

/-- The byte has no meaning of its own between double quotes. -/
def Byte.isPlain (b : Byte) : Bool := b != 34 && b != 35 && b != 92

namespace Escape

variable {a : Byte}

/-- How the byte `b` can be written between double quotes. -/
inductive Writes (b : Byte) : Bytes → Prop
  | plain (h : b.isPlain) : Writes b [b]
  | escape {c : Byte} {more : Bytes} (hmore : ∀ d ∈ more, d.isPlain)
      (hdecode : ∀ rest, decode (c :: (more ++ rest)) = .ok ([b], more.length + 1)) :
      Writes b (92 :: c :: more)

lemma mem_of_isDigitOf_eight (h : a.isDigitOf 8) : a ∈ ([48, 49, 50, 51, 52, 53, 54, 55] : Bytes) := by
  simp only [isDigitOf, digit?, isDigit, isLower, isUpper, le_iff_toNat_le] at h
  have hr : 48 ≤ a.toNat ∧ a.toNat ≤ 55 := by grind
  simp only [mem_cons, ← UInt8.toNat_inj, UInt8.reduceToNat]
  omega

lemma isPlain_of_isDigitOf (h : a.isDigitOf 8) : a.isPlain := by
  have hall : ([48, 49, 50, 51, 52, 53, 54, 55] : Bytes).all isPlain := by decide
  exact all_eq_true.mp hall a (mem_of_isDigitOf_eight h)

lemma decode_octal {c : Byte} (ha : a.isDigitOf 8) (hb : b.isDigitOf 8) (hc : c.isDigitOf 8) (rest : Bytes) :
    decode (a :: b :: c :: rest) = .ok ([ofNat (value 8 [a, b, c])], 3) := by
  have hd : ((a :: b :: c :: rest).take 3).takeWhile (isDigitOf 8) = [a, b, c] := by
    simp [ha, hb, hc]
  have hdecode : decode (a :: b :: c :: rest) =
      let digits := ((a :: b :: c :: rest).take 3).takeWhile (isDigitOf 8)
      .ok ([ofNat (value 8 digits)], digits.length) := by
    have hmem := mem_of_isDigitOf_eight ha
    simp only [mem_cons, not_mem_nil, or_false] at hmem
    unfold decode
    rcases hmem with rfl | rfl | rfl | rfl | rfl | rfl | rfl | rfl <;> rfl
  rw [hdecode, hd]
  rfl

lemma writes_octal {c : Byte} (ha : a.isDigitOf 8) (hb : b.isDigitOf 8) (hc : c.isDigitOf 8) :
    Writes (ofNat (value 8 [a, b, c])) [92, a, b, c] := by
  refine .escape (fun d hd => ?_) (decode_octal ha hb hc)
  simp only [mem_cons, not_mem_nil, or_false] at hd
  rcases hd with rfl | rfl
  · exact isPlain_of_isDigitOf hb
  · exact isPlain_of_isDigitOf hc

lemma writes_octal_byte (b : Byte) : Writes b (92 :: (octal b).flatMap String.utf8EncodeChar) := by
  have hall : ∀ n : Fin 256, (octal (.ofFin n)).flatMap String.utf8EncodeChar =
      [(ofFin n >>> 6) + 48, ((ofFin n >>> 3) &&& 7) + 48, (ofFin n &&& 7) + 48] ∧
      isDigitOf 8 ((ofFin n >>> 6) + 48) ∧ isDigitOf 8 (((ofFin n >>> 3) &&& 7) + 48) ∧
      isDigitOf 8 ((ofFin n &&& 7) + 48) ∧
      ofNat (value 8 [(ofFin n >>> 6) + 48, ((ofFin n >>> 3) &&& 7) + 48,
        (ofFin n &&& 7) + 48]) = .ofFin n := by
    decide +kernel
  obtain ⟨hd, hx, hy, hz, hv⟩ := hall b.toFin
  have hw := writes_octal hx hy hz
  rw [hv] at hw
  exact hd ▸ hw

lemma writes_encodeByte (b : Byte) : Writes b ((encodeByte b).flatMap String.utf8EncodeChar) := by
  have hb {c : Byte} (h : b.toChar = c.toChar) : b = c := toChar_injective h
  unfold encodeByte
  split
  · obtain rfl : b = 34 := hb ‹_›
    exact .escape nofun fun rest => by unfold decode; rfl
  · obtain rfl : b = 92 := hb ‹_›
    exact .escape nofun fun rest => by unfold decode; rfl
  · obtain rfl : b = 10 := hb ‹_›
    exact .escape nofun fun rest => by unfold decode; rfl
  · obtain rfl : b = 9 := hb ‹_›
    exact .escape nofun fun rest => by unfold decode; rfl
  · obtain rfl : b = 35 := hb ‹_›
    exact writes_octal (a := 48) (b := 52) (c := 51) rfl rfl rfl
  -- every byte that means something between quotes is dealt with above
  · rename_i hq hbac hl htab hh
    split
    · rename_i hp
      have hle : b ≤ 126 := by
        rw [Bool.and_eq_true, decide_eq_true_iff, decide_eq_true_iff] at hp
        exact hp.2
      rw [flatMap_singleton, utf8EncodeChar_toChar hle]
      have hpla : b.isPlain := by
        simp only [isPlain, Bool.and_eq_true, bne_iff_ne]
        refine ⟨⟨?_, ?_⟩, ?_⟩
        · rintro rfl
          exact hq rfl
        · rintro rfl
          exact hh rfl
        · rintro rfl
          exact hbac rfl
      exact .plain hpla
    · exact writes_octal_byte b

lemma utf8_encode (bs : Bytes) :
    utf8 (encode bs) = bs.flatMap fun b => (encodeByte b).flatMap String.utf8EncodeChar := by
  rw [encode, utf8_ofList, flatMap_assoc]

end Escape

/-! ### The closing quote -/

namespace Quotation

lemma find_plain (h : b.isPlain) (n : Nat) (rest : Bytes) :
    find 34 34 true 0 n (b :: rest) = find 34 34 true 0 (n + 1) rest := by
  simp only [isPlain, Bool.and_eq_true, bne_iff_ne] at h
  obtain ⟨⟨hq, hh⟩, hb⟩ := h
  rw [find.eq_def]
  simp [hq, hh, hb]

lemma find_plains {bs : Bytes} (h : ∀ b ∈ bs, b.isPlain) (n : Nat) (rest : Bytes) :
    find 34 34 true 0 n (bs ++ rest) = find 34 34 true 0 (n + bs.length) rest := by
  induction bs generalizing n with
  | nil => rfl
  | cons b bs ih =>
    obtain ⟨hb, hbs⟩ := forall_mem_cons.mp h
    rw [cons_append, find_plain hb, ih hbs, length_cons, Nat.add_assoc, Nat.add_comm 1]

lemma find_writes (h : Escape.Writes b form) (n : Nat) (rest : Bytes) :
    find 34 34 true 0 n (form ++ rest) = find 34 34 true 0 (n + form.length) rest := by
  cases h with
  | plain hp => exact find_plain hp n rest
  | @escape c more hmore hdecode =>
    have hesc : find 34 34 true 0 n (92 :: c :: (more ++ rest)) =
        find 34 34 true 0 (n + 2) (more ++ rest) := by
      rw [find]
      rfl
    rw [cons_append, cons_append, hesc, find_plains hmore, length_cons, length_cons]
    congr 1
    omega

end Quotation

/-! ### The parts -/

lemma Interpolation.split_writes (h : Escape.Writes b form) (pos : Pos) (lit rest : Bytes) :
    split pos lit (form ++ rest) = split (pos.advance form) (b :: lit) rest := by
  cases h with
  | plain hp =>
    simp only [isPlain, Bool.and_eq_true, bne_iff_ne] at hp
    obtain ⟨⟨hq, hh⟩, hb⟩ := hp
    rw [singleton_append, split]
    simp [hh, hb]
  | @escape c more hmore hdecode =>
    have ht : (c :: (more ++ rest)).take (more.length + 1) = c :: more := by rw [take_succ_cons, take_left]
    have hd : (c :: (more ++ rest)).drop (more.length + 1) = rest := by rw [drop_succ_cons, drop_left]
    rw [cons_append, cons_append, split, hdecode rest]
    simp only [ht, hd]
    rfl

/-! ### Texts -/

section

variable {code : Byte → Bytes} (hcode : ∀ b, Escape.Writes b (code b))

include hcode

lemma Quotation.find_flatMap (bs : Bytes) (n : Nat) (rest : Bytes) :
    find 34 34 true 0 n (bs.flatMap code ++ 34 :: rest) = .closed (n + (bs.flatMap code).length) := by
  induction bs generalizing n with
  | nil =>
    rw [flatMap_nil, find.eq_def]
    rfl
  | cons b bs ih => rw [flatMap_cons, append_assoc, find_writes (hcode b), ih, length_append, Nat.add_assoc]

lemma Interpolation.split_flatMap (bs : Bytes) (pos : Pos) (lit : Bytes) :
    split pos lit (bs.flatMap code) = .ok (flush (bs.reverse ++ lit) []) := by
  induction bs generalizing pos lit with
  | nil =>
    rw [flatMap_nil, split]
    rfl
  | cons b bs ih =>
    rw [flatMap_cons, split_writes (hcode b), ih, reverse_cons, append_assoc]
    rfl

lemma Scan.doubleQuoted_flatMap (bs : Bytes) (pos : Pos) (l : Lexer) :
    doubleQuoted (bs.flatMap code) pos l = .ok (.str bs) l := by
  have hp : plain? (flush (bs.reverse ++ []) []) = some bs := by
    rw [flush]
    cases bs with
    | nil => rfl
    | cons b bs => simp [plain?]
  rw [doubleQuoted, parts, split_flatMap hcode]
  simp only [hp]
  rfl

end

/-! ### The token of a written text -/

def Escape.quoted (bs : Bytes) : String := "\"" ++ encode bs ++ "\""

lemma Escape.utf8_quoted (bs : Bytes) : utf8 (quoted bs) = 34 :: (utf8 (encode bs) ++ [34]) := by
  rw [quoted]
  rfl

lemma Lexer.kind_quoted (bs : Bytes) {preceding : Preceding} {rest : Bytes}
    (h : l.Ready preceding (34 :: (utf8 (encode bs) ++ 34 :: rest))) (hdef : preceding ≠ .definition)
    (space : Bool) (start : Pos) :
    kind 34 space start l = .ok (.str bs) (l.passed ((utf8 (encode bs)).length + 2)) := by
  have hs : (l.passed 1).cursor.rest = utf8 (encode bs) ++ 34 :: rest := by
    rw [passed, Cursor.skip, h.rest, drop_succ_cons, drop_zero]
  have hf : Quotation.find 34 34 true 0 0 (l.passed 1).cursor.rest =
      .closed (utf8 (encode bs)).length := by
    rw [hs, utf8_encode, Quotation.find_flatMap writes_encodeByte, Nat.zero_add]
  have ht : (l.passed 1).cursor.rest.take (utf8 (encode bs)).length = utf8 (encode bs) := by
    rw [hs, take_left]
  have hd : Scan.delimited 34 34 true start (l.passed 1) = .ok (utf8 (encode bs), (l.passed 1).cursor.pos)
      (l.passed (1 + ((utf8 (encode bs)).length + 1))) := by
    rw [Scan.delimited, get_bind_eq]
    simp only [hf]
    rw [ht, ← passed_passed]
    rfl
  rw [kind, get_bind_eq, beq_eq_false_iff_ne.mpr (h.preceding ▸ hdef), Nat.add_comm _ 2, Nat.add_assoc 1 1,
    Nat.add_comm 1 (utf8 (encode bs)).length]
  refine bind_eq_ok.mpr ⟨(), l.passed 1, rfl, bind_eq_ok.mpr ⟨_, _, hd, ?_⟩⟩
  exact utf8_encode bs ▸ Scan.doubleQuoted_flatMap writes_encodeByte bs _ _

/-- The lexer gives tokens of these kinds and no fault. -/
def Lexer.Yields (l : Lexer) (kinds : List TokenKind) : Prop :=
  l.tokens.1.map Token.kind = kinds ∧ l.tokens.2 = none

lemma Lexer.yields_quoted (bs : Bytes) : (ofString (quoted bs)).Yields [.str bs, .eof] := by
  have hr := ready_ofString (quoted bs)
  rw [utf8_quoted] at hr
  obtain ⟨t, l₁, hn, hk, hr₁⟩ := hr.next_here (by decide) (by decide)
    fun l₁ start h => kind_quoted bs h (by decide) false start
  have hd : (34 :: (utf8 (encode bs) ++ [34])).drop ((utf8 (encode bs)).length + 2) = [] :=
    drop_eq_nil_of_le (by simp)
  rw [hd] at hr₁
  obtain ⟨t', l₂, hn', hk', hdo⟩ := hr₁.next_eof
  obtain ⟨fuel, hf⟩ : ∃ fuel, (ofString (quoted bs)).bound = fuel + 1 + 1 := by
    refine ⟨(ofString (quoted bs)).bound - 2, ?_⟩
    have hfo : 2 * 2 ≤ (ofString (quoted bs)).bound :=
      Nat.mul_le_mul (Nat.le_add_left 2 _) (Nat.le_add_left 2 _)
    omega
  have ht : (ofString (quoted bs)).tokens = ([t, t'], none) := by
    rw [tokens, hf, collect_succ (hr.running.iterate_of_next hn),
      collect_succ (hr₁.running.iterate_of_next hn'), hdo.collect_eq]
  rw [Yields, ht]
  exact ⟨by rw [map_cons, map_singleton, hk, hk'], rfl⟩

end Garnet
