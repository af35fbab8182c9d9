import Garnet.Literal.Interpolation
import Mathlib

/-!
# Reading an escape moves on

The operand of a meta or control sequence can be an escape itself, to any depth that the text has room for. Each
escape takes at least one byte, and none that is not there (`Escape.advances_decode`), so the calls for those
inside it come to an end (`Escape.stacked_eq`).
-/

namespace Garnet

open List

lemma eq_ok_of_map {ε α β : Type} {x : Except ε α} {g : α → β} {b : β} (h : x.map g = .ok b) :
    ∃ a, x = .ok a ∧ g a = b := by
  cases x with
  | error => cases h
  | ok a => exact ⟨a, rfl, Except.ok.inj h⟩

namespace Escape

variable {src : Bytes}

/-- What is read at the start of a text, and how many bytes it takes. -/
abbrev Reader (α : Type) := Bytes → Except EscapeError (α × Nat)

/-- One call of `decode`, with `operand` for the calls inside it. -/
def decodeBy (operand : Reader Byte) : Reader Bytes
  | [] => .error .unterminated
  | c :: rest =>
    match c.toChar with
    | '\n' => .ok ([], 1)
    | 'n' => .ok ([10], 1)
    | 't' => .ok ([9], 1)
    | 'r' => .ok ([13], 1)
    | 'e' => .ok ([27], 1)
    | 's' => .ok ([32], 1)
    | 'a' => .ok ([7], 1)
    | 'b' => .ok ([8], 1)
    | 'f' => .ok ([12], 1)
    | 'v' => .ok ([11], 1)
    | 'x' =>
      let digits := (rest.take 2).takeWhile (Byte.isDigitOf 16)
      if digits.isEmpty then .error .hex
      else .ok ([UInt8.ofNat (value 16 digits)], digits.length + 1)
    | 'u' => (unicode rest).map fun r => (r.1, r.2 + 1)
    | 'M' =>
      match rest with
      | 45 :: key => (operand key).map fun r => ([r.1 ||| 0x80], r.2 + 2)
      | _ => .error .metaKey
    | 'C' =>
      match rest with
      | 45 :: key => (operand key).map fun r => ([control r.1], r.2 + 2)
      | _ => .error .control
    | 'c' => (operand rest).map fun r => ([control r.1], r.2 + 1)
    | _ =>
      if c.isDigitOf 8 then
        let digits := ((c :: rest).take 3).takeWhile (Byte.isDigitOf 8)
        .ok ([UInt8.ofNat (value 8 digits)], digits.length)
      else
        let char := (c :: rest).take c.charLength
        .ok (char, char.length)

/-- One call of `operand`, with `decode` for the call inside it. -/
def operandBy (decode : Reader Bytes) : Reader Byte
  | [] => .error .unterminated
  | b :: rest =>
    if b == 92 then
      match decode rest with
      | .ok ([b], n) => .ok (b, n + 1)
      | .ok _ => .error .operand
      | .error e => .error e
    else .ok (b, 1)

lemma decode_eq : decode src = decodeBy operand src := by
  rw [decode.eq_def]
  cases src <;> rfl

lemma operand_eq : operand src = operandBy decode src := by
  rw [operand.eq_def]
  rfl

lemma le_length_of_unicode {bytes : Bytes} {n : Nat} (h : unicode src = .ok (bytes, n)) : n ≤ src.length := by
  unfold unicode at h
  split at h
  · rename_i rest
    split at h
    · rename_i hc
      obtain ⟨_, -, hn⟩ := eq_ok_of_map h
      -- the closing brace is not among the digits
      have hrear : rest.dropWhile (· != 125) ≠ [] := fun hnil => by
        simpa using dropWhile_eq_nil_iff.mp hnil 125 (by simpa using hc)
      have hpos := length_pos_of_ne_nil hrear
      have hl := congrArg length (takeWhile_append_dropWhile (p := (· != 125)) (l := rest))
      grind
    · cases h
  · obtain ⟨_, -, hn⟩ := eq_ok_of_map h
    grind

/-- A call reads the whole escape by itself, or its first bytes only, and leaves the others to the operand. -/
lemma decodeBy_cases (src : Bytes) :
    (∃ r, (∀ f, decodeBy f src = r) ∧ ∀ bytes n, r = .ok (bytes, n) → 0 < n ∧ n ≤ src.length) ∨
      ∃ key k g, (∀ f, decodeBy f src = (f key).map g) ∧ (∀ r, (g r).2 = r.2 + (k + 1)) ∧
        src.length = key.length + (k + 1) := by
  have hd (radix : Nat) (bs : Bytes) : ((bs.take 2).takeWhile (Byte.isDigitOf radix)).length ≤ bs.length :=
    ( takeWhile_prefix _).length_le.trans (length_take_le' ..)
  cases src with
  | nil => exact .inl ⟨_, fun _ => rfl, by simp⟩
  | cons c rest =>
    dsimp only [decodeBy]
    split
    case h_11 =>
      split
      · exact .inl ⟨_, fun _ => rfl, by simp⟩
      · exact .inl ⟨_, fun _ => rfl, by grind⟩
    case h_12 =>
      refine .inl ⟨_, fun _ => rfl, fun bytes n h => ?_⟩
      obtain ⟨r, hr, hn⟩ := eq_ok_of_map h
      have hle := le_length_of_unicode hr
      grind
    case h_13 | h_14 =>
      split
      · exact .inr ⟨_, 1, _, fun _ => rfl, fun _ => rfl, rfl⟩
      · exact .inl ⟨_, fun _ => rfl, by simp⟩
    case h_15 => exact .inr ⟨_, 0, _, fun _ => rfl, fun _ => rfl, rfl⟩
    case h_16 =>
      split
      · rename_i hc
        rw [take_succ_cons, takeWhile_cons_of_pos hc]
        exact .inl ⟨_, fun _ => rfl, by grind⟩
      · exact .inl ⟨_, fun _ => rfl, by grind [Byte.charLength]⟩
    all_goals exact .inl ⟨_, fun _ => rfl, by simp +contextual⟩

/-- Calls of `decode` up to `depth` inside one another, with `stub` for those that are deeper. -/
def stacked (stub : Reader Bytes) : Nat → Reader Bytes
  | 0 => stub
  | depth + 1 => decodeBy (operandBy (stacked stub depth))

/-- No call is deeper than the text is long. -/
theorem stacked_eq (stub : Reader Bytes) {depth : Nat} (h : src.length < depth) :
    stacked stub depth src = decode src := by
  induction depth generalizing src with
  | zero => cases h
  | succ depth ih =>
    rw [stacked, decode_eq]
    rcases decodeBy_cases src with ⟨r, hr, -⟩ | ⟨key, k, g, hr, -, hk⟩
    · rw [hr, hr]
    · rw [hr, hr, operand_eq]
      cases key with
      | nil => rfl
      | cons b rest =>
        rw [length_cons] at hk
        rw [operandBy, operandBy, ih (by omega)]

/-- What is read takes at least one byte, and none that is not there. -/
def Advances {α : Type} (read : Reader α) : Prop := ∀ src a n, read src = .ok (a, n) → 0 < n ∧ n ≤ src.length

lemma advances_operandBy {f : Reader Bytes} (hf : Advances f) : Advances (operandBy f) := by
  intro src b n h
  unfold operandBy at h
  split at h
  · cases h
  · split at h
    · split at h
      · rename_i hd
        cases h
        have hn := hf _ _ _ hd
        grind
      · cases h
      · cases h
    · cases h
      simp

lemma advances_stacked (depth : Nat) : Advances (stacked (fun _ => .error .unterminated) depth) := by
  induction depth with
  | zero =>
    intro src bytes n h
    cases h
  | succ depth ih =>
    intro src bytes n h
    rw [stacked] at h
    rcases decodeBy_cases src with ⟨r, hr, hn⟩ | ⟨key, k, g, hr, hg, hk⟩
    · exact hn bytes n ((hr _).symm.trans h)
    · rw [hr] at h
      obtain ⟨r, hm, hn⟩ := eq_ok_of_map h
      have hle := advances_operandBy ih _ _ _ hm
      grind

theorem advances_decode : Advances decode := by
  intro src bytes n h
  rw [← stacked_eq _ (Nat.lt_succ_self _)] at h
  exact advances_stacked _ _ _ _ h

end Escape

end Garnet
