import Garnet.Proofs.Integer.Decimal
import Garnet.Proofs.Outcome
import Garnet.Token.Stream

/-!
# How reading moves through a text

Reading a token passes over bytes and does nothing else to a lexer, except that a heredoc also moves the place
where reading goes on behind the next line end. `GoesFrom l Q m` says how many bytes a reading `m` passes over from
state `l`, and what it gives; `Lexer.takes_kind` says so of all tokens. Each token that is written out takes a byte.

The place that a heredoc leaves lies behind the body, which starts on the next line or, if another
heredoc was opened on the same line, behind that one's body (`Lexer.bodyStart?`).
-/

namespace Garnet

open List Cursor Numeral

variable {b : Byte} {n : Nat} {indented : Bool} {id : List Char} {bytes : Bytes}

/-! ### Places of a text -/

lemma Byte.toChar_injective {a : Byte} (h : a.toChar = b.toChar) : a = b :=
  UInt8.toNat_inj.mp (congrArg (fun c : Char => c.val.toNat) h)

lemma Pos.advance_of_not_mem {bs : Bytes} (h : 10 ∉ bs) (p : Pos) :
    p.advance bs = ⟨p.offset + bs.length, p.line, p.column + bs.length⟩ := by
  induction bs generalizing p with
  | nil => rfl
  | cons b bs ih =>
    rw [mem_cons, not_or] at h
    rw [advance_cons, ih h.2, next, if_neg (Ne.symm h.1), length_cons]
    simp only [Nat.add_assoc, Nat.add_comm 1]

lemma Pos.advance_take_take (p : Pos) {text rest : Bytes} (h : rest <:+ text) (hn : n ≤ rest.length) :
    (p.advance (text.take (text.length - rest.length))).advance (rest.take (rest.length - n)) =
      p.advance (text.take (text.length - n)) := by
  have hl := h.length_le
  have hs : text.length - n = (text.length - rest.length) + (rest.length - n) := by omega
  rw [← advance_append, hs, take_add, ← suffix_iff_eq_drop.mp h]

namespace Cursor

variable {c : Cursor}

lemma skip_skip (c : Cursor) (m n : Nat) : (c.skip m).skip n = c.skip (m + n) := by
  simp only [skip, drop_drop, take_add, Pos.advance_append]

lemma bump_eq_skip (c : Cursor) : c.bump = c.skip 1 := by
  obtain ⟨rest, pos⟩ := c
  cases rest <;> rfl

lemma peek_eq_some (h : c.peek = some b) : ∃ rest, c.rest = b :: rest :=
  ⟨_, (head?_eq_some_iff.mp h).choose_spec⟩

/-- `d` is a place at or behind `c` in the same text. Its position follows from that of `c`; of the end
of the text only the offset does, since `__END__` and the last line of a heredoc do not count lines. -/
structure Leads (c d : Cursor) : Prop where
  suffix : d.rest <:+ c.rest
  offset : d.pos.offset + d.rest.length = c.pos.offset + c.rest.length
  pos : d.rest ≠ [] → d.pos = c.pos.advance (c.rest.take (c.rest.length - d.rest.length))

namespace Leads

variable {c d e : Cursor}

lemma refl (c : Cursor) : c.Leads c :=
  ⟨suffix_refl _, rfl, fun _ => by rw [Nat.sub_self, take_zero, Pos.advance_nil]⟩

lemma trans (h : c.Leads d) (h' : d.Leads e) : c.Leads e := by
  refine ⟨h'.suffix.trans h.suffix, h'.offset.trans h.offset, fun he => ?_⟩
  have hd : d.rest ≠ [] := fun hnil => he (suffix_nil.mp (hnil ▸ h'.suffix))
  rw [h'.pos he, h.pos hd, Pos.advance_take_take c.pos h.suffix h'.suffix.length_le]

lemma length_le (h : c.Leads d) : d.rest.length ≤ c.rest.length := h.suffix.length_le

lemma offset_le (h : c.Leads d) : c.pos.offset ≤ d.pos.offset := by
  have hl := h.length_le
  have ho := h.offset
  omega

lemma skip (c : Cursor) (n : Nat) : c.Leads (c.skip n) := by
  refine ⟨drop_suffix n c.rest, ?_, fun _ => ?_⟩
  · rw [Cursor.skip, Pos.offset_advance, length_take, length_drop]
    omega
  · have hc : c.rest.length - (c.rest.length - n) = min n c.rest.length := by omega
    rw [Cursor.skip, length_drop, hc, take_eq_take_min]

lemma bump (c : Cursor) : c.Leads c.bump := c.bump_eq_skip ▸ skip c 1

end Leads

lemma length_skip_lt (h : c.peek = some b) (hn : 0 < n) : (c.skip n).rest.length < c.rest.length := by
  obtain ⟨rest, hr⟩ := peek_eq_some h
  rw [skip, length_drop, hr, length_cons]
  omega

/-- `d` is the start of a line behind `c`, or the end of the text. -/
structure Crosses (c d : Cursor) : Prop extends c.Leads d where
  length_lt : d.rest.length < c.rest.length
  lineStart : d.rest = [] ∨ ∃ lines, c.rest = lines ++ 10 :: d.rest

lemma Leads.trans_crosses {d e : Cursor} (h : c.Leads d) (h' : d.Crosses e) : c.Crosses e := by
  refine ⟨h.trans h'.toLeads, Nat.lt_of_lt_of_le h'.length_lt h.length_le, h'.lineStart.imp_right ?_⟩
  rintro ⟨lines, hl⟩
  obtain ⟨front, hf⟩ := h.suffix
  exact ⟨front ++ lines, by rw [← hf, hl, append_assoc]⟩

lemma line_free (c : Cursor) : 10 ∉ c.run (· != 10) := by
  intro hmem
  simpa using all_eq_true.mp all_takeWhile 10 hmem

lemma rest_skip_line (c : Cursor) : (c.skip ((c.run (· != 10)).length + 1)).rest = [] ∨
      c.rest = c.run (· != 10) ++ 10 :: (c.skip ((c.run (· != 10)).length + 1)).rest := by
  have hr : c.run (· != 10) ++ c.rest.dropWhile (· != 10) = c.rest := takeWhile_append_dropWhile
  have hdr : c.rest.drop (c.run (· != 10)).length = c.rest.dropWhile (· != 10) := by
    conv => lhs; rw [← hr]
    exact drop_left
  rw [skip, ← drop_drop, hdr]
  cases hl : c.rest.dropWhile (· != 10) with
  | nil => exact .inl rfl
  | cons d rest =>
    have hd : d = 10 := by simpa [hl] using head?_dropWhile_not (· != 10) c.rest
    right
    conv => lhs; rw [← hr, hl, hd]
    rfl

lemma crosses_line (h : c.peek = some b) : c.Crosses (c.skip ((c.run (· != 10)).length + 1)) :=
  ⟨.skip c _, length_skip_lt h (Nat.succ_pos _), c.rest_skip_line.imp_right fun hr => ⟨_, hr⟩⟩

lemma pos_skip_line (h : (c.skip ((c.run (· != 10)).length + 1)).rest ≠ []) :
    (c.skip ((c.run (· != 10)).length + 1)).pos =
      ⟨(c.skip ((c.run (· != 10)).length + 1)).pos.offset, c.pos.line + 1, 1⟩ := by
  have hr := c.rest_skip_line.resolve_left h
  have ht : c.rest.take ((c.run (· != 10)).length + 1) = c.run (· != 10) ++ [10] := by
    rw [hr, take_length_add_append]
    rfl
  rw [skip, ht, Pos.advance_append, Pos.advance_of_not_mem c.line_free]
  rfl

end Cursor

/-! ### Readings -/

/-- The lexer when `n` more bytes are read. -/
def Lexer.passed (l : Lexer) (n : Nat) : Lexer := { l with cursor := l.cursor.skip n }

lemma Lexer.passed_passed (l : Lexer) (m n : Nat) : (l.passed m).passed n = l.passed (m + n) := by
  simp only [passed, skip_skip]

/-- A reading that starts in state `l` passes over `n` bytes and gives `a` with `Q a n`, or it passes
over bytes and fails. -/
structure GoesFrom {α : Type} (l : Lexer) (Q : α → Nat → Prop) (m : Scan α) : Prop where
  ok : ∀ ⦃a l'⦄, m l = .ok a l' → ∃ n, l' = l.passed n ∧ Q a n
  error : ∀ ⦃e l'⦄, m l = .error e l' → ∃ n, l' = l.passed n

/-- A reading passes over bytes and gives a value that satisfies `P`. -/
abbrev Goes {α : Type} (P : α → Prop) (m : Scan α) : Prop := ∀ l, GoesFrom l (fun a _ => P a) m

abbrev Roams {α : Type} (m : Scan α) : Prop := Goes (fun _ => True) m

/-- The token is neither a line end nor the end of the text. -/
def TokenKind.isWritten : TokenKind → Bool
  | .newline | .eof => false
  | _ => true

/-- The token is written out and holds no code, and a constant starts with a capital letter. -/
def TokenKind.isSimple : TokenKind → Bool
  | .newline | .eof | .interp _ => false
  | .const name => VarName.isConstant name
  | _ => true

/-- A reading gives a token that is written out and holds no code. -/
abbrev Inner (m : Scan TokenKind) : Prop := Goes (fun kind => kind.isSimple = true) m

/-- A token that is written out takes at least one byte; this one holds no code. -/
abbrev Taken (kind : TokenKind) (n : Nat) : Prop := 0 < n ∧ kind.isSimple

namespace GoesFrom

variable {α β : Type} {l : Lexer} {R : α → Nat → Prop} {Q : β → Nat → Prop} {m : Scan α} {f : α → Scan β}

lemma mono {Q' : β → Nat → Prop} {m : Scan β} (h : GoesFrom l Q m) (hQ : ∀ b n, Q b n → Q' b n) :
    GoesFrom l Q' m := by
  refine ⟨fun b l' hl => ?_, h.error⟩
  obtain ⟨n, hl', hb⟩ := h.ok hl
  exact ⟨n, hl', hQ b n hb⟩

lemma of_ok {m : Scan β} {b : β} {n : Nat} (h : m l = .ok b (l.passed n)) (hQ : Q b n) : GoesFrom l Q m := by
  refine ⟨fun a l' hl => ?_, fun e l' hl => by cases h.symm.trans hl⟩
  cases h.symm.trans hl
  exact ⟨n, rfl, hQ⟩

lemma pure {b : β} (h : Q b 0) : GoesFrom l Q (pure b) := of_ok rfl h

lemma bind (hm : GoesFrom l R m)
    (hf : ∀ a n, R a n → GoesFrom (l.passed n) (fun b k => Q b (n + k)) (f a)) :
    GoesFrom l Q (m >>= f) := by
  constructor
  · intro b l' hl
    obtain ⟨a, t, ha, hb⟩ := bind_eq_ok.mp hl
    obtain ⟨n, rfl, hR⟩ := hm.ok ha
    obtain ⟨k, rfl, hQ⟩ := (hf a n hR).ok hb
    exact ⟨n + k, l.passed_passed n k, hQ⟩
  · intro e l' hl
    rcases bind_eq_error.mp hl with ha | ⟨a, t, ha, hb⟩
    · exact hm.error ha
    · obtain ⟨n, rfl, hR⟩ := hm.ok ha
      obtain ⟨k, rfl⟩ := (hf a n hR).error hb
      exact ⟨n + k, l.passed_passed n k⟩

lemma throw {e : LexError} : GoesFrom l Q (throw e) := by
  refine ⟨fun a l' hl => absurd hl throw_ne_ok, fun e' l' hl => ?_⟩
  cases hl
  exact ⟨0, rfl⟩

lemma ite {c : Prop} [Decidable c] {m m' : Scan β} (hm : c → GoesFrom l Q m)
    (hm' : ¬c → GoesFrom l Q m') : GoesFrom l Q (if c then m else m') := by
  split
  · exact hm ‹_›
  · exact hm' ‹_›

lemma get {f : Lexer → Scan β} (h : GoesFrom l Q (f l)) : GoesFrom l Q (get >>= f) := ⟨h.ok, h.error⟩

lemma peek {f : Option Byte → Scan β} (h : GoesFrom l Q (f l.cursor.peek)) :
    GoesFrom l Q (Scan.peek >>= f) := ⟨h.ok, h.error⟩

lemma peekAt {k : Nat} {f : Option Byte → Scan β} (h : GoesFrom l Q (f (l.cursor.peekAt k))) :
    GoesFrom l Q (Scan.peekAt k >>= f) := ⟨h.ok, h.error⟩

lemma skip {f : Unit → Scan β} (h : GoesFrom (l.passed n) (fun b k => Q b (n + k)) (f ())) :
    GoesFrom l Q (Scan.skip n >>= f) := by
  constructor
  · intro b l' hl
    obtain ⟨k, rfl, hQ⟩ := h.ok hl
    exact ⟨n + k, l.passed_passed n k, hQ⟩
  · intro e l' hl
    obtain ⟨k, rfl⟩ := h.error hl
    exact ⟨n + k, l.passed_passed n k⟩

lemma skipThen {P : β → Prop} {f : Unit → Scan β} (h : Goes P (f ())) :
    GoesFrom l (fun b k => 0 < k ∧ P b) (Scan.skip (n + 1) >>= f) :=
  skip ((h _).mono fun _ _ hP => ⟨by omega, hP⟩)

end GoesFrom

namespace Goes

variable {c : Prop} {α β : Type} {R : α → Prop} {P : β → Prop} {m : Scan α} {f : α → Scan β}

lemma pure {b : β} (h : P b) : Goes P (pure b) := fun _ => .pure h

lemma bind (hm : Goes R m) (hf : ∀ a, R a → Goes P (f a)) : Goes P (m >>= f) :=
  fun l => (hm l).bind fun a _ hR => hf a hR _

lemma after (hm : Roams m) (hf : ∀ a, Goes P (f a)) : Goes P (m >>= f) := hm.bind fun a _ => hf a

lemma ite [Decidable c] {m m' : Scan β} (hm : Goes P m) (hm' : Goes P m') : Goes P (if c then m else m') :=
  fun l => .ite (fun _ => hm l) fun _ => hm' l

lemma maybe [Decidable c] {rest : Scan β} (hm : Roams m) (h : Goes P rest) :
    Goes P (if c then m >>= fun _ => rest else rest) :=
  ite (hm.after fun _ => h) h

lemma get {f : Lexer → Scan β} (h : ∀ l, Goes P (f l)) : Goes P (get >>= f) := fun l => .get (h l l)

lemma peek {f : Option Byte → Scan β} (h : ∀ b, Goes P (f b)) : Goes P (Scan.peek >>= f) :=
  fun l => .peek (h _ l)

lemma peekAt {k : Nat} {f : Option Byte → Scan β} (h : ∀ b, Goes P (f b)) : Goes P (Scan.peekAt k >>= f) :=
  fun l => .peekAt (h _ l)

end Goes

namespace Scan

variable (p : Byte → Bool) (start : Pos) (l : Lexer)

lemma goes_skip (n : Nat) : GoesFrom l (fun _ k => k = n) (skip n) := .of_ok rfl rfl

lemma roams_skip (n : Nat) : Roams (skip n) := fun l => (goes_skip l n).mono fun _ _ _ => trivial

lemma roams_skipAll : Roams skipAll := fun _ => .of_ok rfl trivial

lemma goes_takeWhile :
    GoesFrom l (fun bytes n => bytes = l.cursor.run p ∧ n = bytes.length) (takeWhile p) :=
  .of_ok rfl ⟨rfl, rfl⟩

lemma roams_takeWhile : Roams (takeWhile p) :=
  fun l => (goes_takeWhile p l).mono fun _ _ _ => trivial

lemma goes_fail {l : Lexer} {α : Type} {Q : α → Nat → Prop} (cause : LexCause) (start : Pos) :
    GoesFrom l Q (fail cause start : Scan α) :=
  .get .throw

lemma roams_name : Roams name := .after (roams_takeWhile _) fun _ => .pure trivial

lemma isConstant_decode {bytes : Bytes} (h : b.isUpper) : VarName.isConstant (Utf8.decode (b :: bytes)) := by
  simp only [Byte.isUpper, Bool.and_eq_true, decide_eq_true_eq] at h
  have ha : b < 0x80 := UInt8.lt_iff_toNat_lt.mpr (Nat.lt_of_le_of_lt h.2 (by decide))
  rw [VarName.isConstant, Utf8.decode, String.toList_ofList, Utf8.decodeChars, if_pos ha]
  simp only [head?_cons, Option.any_some, Char.isUpper, decide_eq_true_eq]
  exact h

lemma goes_name {l : Lexer} (h : l.cursor.peek = some b) (hb : b.isIdent) :
    GoesFrom l (fun text n => 0 < n ∧ (b.isUpper → VarName.isConstant text)) name := by
  refine (goes_takeWhile _ l).bind fun bytes n hbyt => .pure ?_
  obtain ⟨rfl, rfl⟩ := hbyt
  obtain ⟨rest, hr⟩ := peek_eq_some h
  rw [run, hr, takeWhile_cons, if_pos hb, length_cons]
  exact ⟨by omega, isConstant_decode⟩

lemma goes_oneOf {table : List String} (h : ∀ s ∈ table, 0 < (utf8 s).length) (l : Lexer) :
    GoesFrom l (fun s n => s.isSome → 0 < n) (oneOf table) := by
  refine .get ?_
  dsimp only
  split
  · rename_i s hs
    have hpos := h s (mem_of_find?_eq_some hs)
    exact .skip (.pure fun _ => hpos)
  · exact .pure nofun

lemma pos_of_mem_operatorNames : ∀ s ∈ operatorNames, 0 < (utf8 s).length := by decide

lemma pos_of_mem_punctuation : ∀ s ∈ punctuation, 0 < (utf8 s).length := by decide

lemma roams_operatorName : Roams operatorName :=
  fun l => (goes_oneOf pos_of_mem_operatorNames l).mono fun _ _ _ => trivial

lemma goes_punct : GoesFrom l Taken (punct start) := by
  refine (goes_oneOf pos_of_mem_punctuation l).bind fun p n hp => ?_
  split
  · exact .pure ⟨hp rfl, rfl⟩
  · exact .peek (.skip (goes_fail _ _))

/-! ### Words -/

lemma goes_word {l : Lexer} (h : l.cursor.peek = some b) (hb : b.isIdent) : GoesFrom l Taken word := by
  refine .get (.peek ((goes_name h hb).bind fun text n hn => ?_))
  have hl text (hc : b.isUpper → VarName.isConstant text) :
      Inner (pure (if b.isUpper then .const text else .ident text)) := by
    refine .pure ?_
    split
    · exact hc ‹_›
    · rfl
  rw [h]
  refine GoesFrom.mono (Q := fun k _ => k.isSimple) ?_ fun k _ hk => ⟨by omega, hk⟩
  refine (show Inner _ from .peek fun mark => .peekAt fun after => ?_) _
  dsimp only
  split
  · rename_i hmark
    refine .after (roams_skip _) fun _ => .peek fun _ => .peekAt fun _ => ?_
    refine .ite (.after (roams_skip _) fun _ => .pure rfl) (.ite (.pure rfl) (hl _ fun hu => ?_))
    simp [hu] at hmark
  · refine .peek fun _ => .peekAt fun _ => .ite (.after (roams_skip _) fun _ => .pure rfl) ?_
    exact .ite (.pure rfl) (hl _ hn.2)

lemma goes_instanceOrClassVariable : GoesFrom l Taken (instanceOrClassVariable start) := by
  refine .skipThen (.peek fun _ => .maybe (roams_skip _) (.peek fun _ => ?_))
  refine .ite (fun _ => goes_fail _ _) (.after roams_name fun _ => .pure ?_)
  split <;> rfl

lemma goes_globalVariable : GoesFrom l Taken (globalVariable start) := by
  refine .skipThen (.peek fun b => ?_)
  split
  · exact fun _ => goes_fail _ _
  · refine .ite (.after roams_name fun _ => .pure rfl) (.ite ?_ fun _ => goes_fail _ _)
    exact .after (roams_skip _) fun _ => .pure rfl

lemma roams_symbolName : Roams symbolName := by
  refine .peek fun b => ?_
  split
  · exact .pure trivial
  · refine .ite ?_ (.ite ?_ roams_operatorName)
    · refine .get fun _ => .after (roams_skip _) fun _ => .peek fun _ => .maybe (roams_skip _) ?_
      exact .after (roams_takeWhile _) fun _ => .ite (.pure trivial) (.get fun _ => .pure trivial)
    · refine .after roams_name fun _ => .peekAt fun _ => .peek fun _ => ?_
      dsimp only
      split
      · exact .after (roams_skip _) fun _ => .pure trivial
      · exact .pure trivial

/-! ### Numbers -/

lemma isDigitOf_ten (h : b.isDigit) : b.isDigitOf 10 := by
  have hb : 48 ≤ b.toNat ∧ b.toNat ≤ 57 := by simpa [Byte.isDigit, UInt8.le_iff_toNat_le] using h
  simp only [Byte.isDigitOf, Byte.digit?, if_pos h]
  rw [if_pos (by omega)]
  rfl

/-- Digits with single underscores between them, and the digits alone. A digit stands in front if `seen`. -/
inductive Run (radix : Nat) : Bool → Bytes → Bytes → Prop
  | nil {seen} : Run radix seen [] []
  | digit {seen b w ds} (hb : b.isDigitOf radix) (h : Run radix true w ds) : Run radix seen (b :: w) (b :: ds)
  | underscore {b w ds} (hb : b.isDigitOf radix) (h : Run radix true (b :: w) ds) :
    Run radix true (95 :: b :: w) ds

lemma exists_run (radix : Nat) (seen : Bool) (bs : Bytes) :
    ∃ w, w <+: bs ∧ (digits radix seen bs).2 = w.length ∧ Run radix seen w (digits radix seen bs).1 := by
  fun_induction digits radix seen bs with
  | case1 | case4 => exact ⟨[], nil_prefix, rfl, .nil⟩
  | case2 seen b rest hb ds n hd ih =>
    obtain ⟨w, hw, hn, hrun⟩ := ih
    rw [hd] at hn hrun
    exact ⟨b :: w, cons_prefix_cons.mpr ⟨rfl, hw⟩, congrArg (· + 1) hn, .digit hb hrun⟩
  | case3 seen b rest hb hu ds n hd ih =>
    simp only [Bool.and_eq_true, beq_iff_eq, Option.any_eq_true] at hu
    obtain ⟨⟨rfl, rfl⟩, c, hc, hdig⟩ := hu
    obtain ⟨more, rfl⟩ := head?_eq_some_iff.mp hc
    obtain ⟨w, hw, hn, hrun⟩ := ih
    cases w with
    | nil =>
      rw [digits, if_pos hdig] at hn
      cases hn
    | cons c' w =>
      obtain ⟨rfl, hw'⟩ := cons_prefix_cons.mp hw
      rw [hd] at hn hrun
      exact ⟨95 :: c' :: w, cons_prefix_cons.mpr ⟨rfl, hw⟩, congrArg (· + 1) hn, .underscore hdig hrun⟩

lemma goes_digitRun (radix : Nat) (l : Lexer) :
    GoesFrom l (fun ds n => (∃ w, w <+: l.cursor.rest ∧ n = w.length ∧ Run radix false w ds) ∧
      ∀ b, l.cursor.peek = some b → b.isDigitOf radix → 0 < n) (digitRun radix) := by
  refine .get (.skip (.pure ⟨exists_run radix false _, fun b hp hb => ?_⟩))
  obtain ⟨rest, hr⟩ := peek_eq_some hp
  rw [hr, digits, if_pos hb]
  exact Nat.succ_pos _

lemma roams_digitRun (radix : Nat) : Roams (digitRun radix) :=
  fun l => (goes_digitRun radix l).mono fun _ _ _ => trivial

/-- What can stand before the digits of a numeral, with their radix. Behind the zero of an octal numeral
one more byte is passed over if a base letter follows it. -/
inductive Lead : Nat → Bytes → Prop
  | decimal : Lead 10 []
  | octal : Lead 8 [48]
  | based {letter base} (h : baseOf letter = some base) : Lead base [48, letter]
  | passed {b letter base} (hb : b.isDigit || b == 95) (h : baseOf letter = some base) : Lead 8 [48, b, letter]

lemma goes_radix :
    GoesFrom l (fun r n => ∃ lead, Lead r lead ∧ n = lead.length ∧ lead <+: l.cursor.rest) radix := by
  refine .peek (.ite (fun _ => .pure ⟨[], .decimal, rfl, nil_prefix⟩) fun hz => .peekAt ?_)
  obtain ⟨bs, hr⟩ := peek_eq_some (by simpa using hz)
  have hat : l.cursor.peekAt 1 = bs.head? := by
    rw [Cursor.peekAt, hr, head?_eq_getElem?, getElem?_cons_succ]
  have hpas : (l.passed 1).cursor.peekAt 1 = bs.tail.head? := by
    rw [Lexer.passed, Cursor.skip, Cursor.peekAt, hr, head?_eq_getElem?, getElem?_tail]
    rfl
  rw [hr, hat]
  cases hb : bs.head?.bind baseOf with
  | some base =>
    obtain ⟨letter, hl, hbase⟩ := Option.bind_eq_some_iff.mp hb
    obtain ⟨more, rfl⟩ := head?_eq_some_iff.mp hl
    refine .peekAt ?_
    rw [hat, hb]
    exact .skip (.pure ⟨_, .based hbase, rfl, more, rfl⟩)
  | none =>
    refine .ite (fun hd => .skip (.peekAt (.ite (fun hl => .skip (.pure ?_)) fun _ => .pure ?_))) fun _ =>
      .peekAt ?_
    · obtain ⟨base, hl⟩ := Option.isSome_iff_exists.mp hl
      rw [hpas] at hl
      obtain ⟨letter, hl, hbase⟩ := Option.bind_eq_some_iff.mp hl
      obtain ⟨b, hh, hd⟩ := (Option.any_eq_true _ _).mp hd
      obtain ⟨_, rfl⟩ := head?_eq_some_iff.mp hh
      obtain ⟨more, rfl⟩ := head?_eq_some_iff.mp hl
      exact ⟨_, .passed hd hbase, rfl, more, rfl⟩
    · exact ⟨_, .octal, rfl, bs, rfl⟩
    · rw [hat, hb]
      exact .pure ⟨_, .decimal, rfl, nil_prefix⟩

lemma goes_fraction : GoesFrom l (fun f n => f = none → n = 0) fraction := by
  refine .peek (.peekAt (.ite (fun _ => .skip ?_) fun _ => .pure fun _ => rfl))
  exact (roams_digitRun _ _).bind fun _ _ _ => .pure (by simp)

lemma goes_exponent : GoesFrom l (fun e n => e = none → n = 0) exponent := by
  refine .peekAt (.peek (.peek (.peekAt (.ite (fun _ => .skip (.skip ?_)) fun _ => .pure fun _ => rfl))))
  exact (roams_digitRun _ _).bind fun _ _ _ => .pure (by simp)

def integerKind (negative : Bool) (magnitude : Nat) : TokenKind :=
  let value : Int := if negative then -magnitude else magnitude
  if fitsWord value then .integer value
  else .bigInteger ((if negative then "-" else "") ++ decimal magnitude)

/-- The bytes are those of an integer behind its sign: the radix and its digits. With radix ten or eight there
may be no digit. -/
def IsInteger (negative : Bool) (kind : TokenKind) (bytes : Bytes) : Prop :=
  ∃ radix lead w ds, Lead radix lead ∧ Run radix false w ds ∧ (ds = [] → radix = 10 ∨ radix = 8) ∧
    bytes = lead ++ w ∧ kind = integerKind negative (value radix ds)

lemma goes_number (negative : Bool) (start : Pos) (l : Lexer) :
    GoesFrom l (fun k n => (∀ b, l.cursor.peek = some b → b.isDigit → 0 < n) ∧ k.isSimple ∧
      ((∀ text, k ≠ .float text) →
        ∃ bytes, IsInteger negative k bytes ∧ bytes <+: l.cursor.rest ∧ n = bytes.length))
      (number negative start) := by
  have hfail {l Q c p} {f : Unit → Scan TokenKind} : GoesFrom l Q (fail c p >>= f) :=
    (goes_fail c p).bind (R := fun _ _ => False) fun _ _ => False.elim
  refine (goes_radix l).bind fun radix _ hlead => (goes_digitRun radix _).bind fun ds n hrun => ?_
  obtain ⟨lead, hlead, rfl, more, hmore⟩ := hlead
  obtain ⟨⟨w, hw, rfl, hrun⟩, hpos⟩ := hrun
  refine .ite (fun _ => hfail) fun hd => .peek (.ite (fun _ => hfail) fun _ => ?_)
  have hr : ds = [] → radix = 10 ∨ radix = 8 := by
    rintro rfl
    by_cases h : radix = 10 <;> simp_all
  have hval : value radix (if ds.isEmpty then [48] else ds) = value radix ds := by
    cases ds with
    | nil => rcases hr rfl with rfl | rfl <;> rfl
    | cons b ds => rfl
  rw [toDecimal_eq, hval]
  refine GoesFrom.mono (Q := fun kind n => kind.isSimple ∧ ((∀ text, kind ≠ .float text) →
    n = 0 ∧ kind = integerKind negative (value radix ds))) ?_ fun kind k h =>
    ⟨fun b hp hb => ?_, h.1, fun hk => ?_⟩
  · have hs : (integerKind negative (value radix ds)).isSimple := by
      rw [integerKind]
      split_ifs <;> rfl
    refine .ite (fun _ => (goes_fraction _).bind fun f i hf => (goes_exponent _).bind fun e j he => ?_)
      fun _ => .pure ⟨hs, fun _ => ⟨rfl, rfl⟩⟩
    refine .ite (fun _ => .pure ⟨rfl, fun h => absurd rfl (h _)⟩) fun hn => .pure ⟨hs, fun _ => ⟨?_, rfl⟩⟩
    obtain ⟨rfl, rfl⟩ : f = none ∧ e = none := by simpa using hn
    rw [hf rfl, he rfl]
  -- either the radix was written out, which took bytes, or it is ten and the digit itself is taken
  · cases hlead with
    | decimal => exact Nat.lt_add_left 0 (Nat.lt_add_right _ (hpos b hp (isDigitOf_ten hb)))
    | octal | based _ | passed _ _ => simp
  · obtain ⟨rfl, rfl⟩ := h.2 hk
    refine ⟨lead ++ w, ⟨radix, lead, w, ds, hlead, hrun, hr, rfl, rfl⟩, ?_, by simp⟩
    rw [Lexer.passed, Cursor.skip, ← hmore, drop_left] at hw
    rwa [← hmore, prefix_append_right_inj]

/-- What is taken for an integer: the radix, and then digits with that radix, of which the token is the
value. -/
theorem number_integer {l l' : Lexer} {negative : Bool} {start : Pos} {kind : TokenKind}
    (h : number negative start l = .ok kind l') (hk : ∀ text, kind ≠ .float text) :
    ∃ bytes, IsInteger negative kind bytes ∧ l.cursor.rest = bytes ++ l'.cursor.rest := by
  obtain ⟨_, rfl, -, -, hn⟩ := (goes_number negative start l).ok h
  obtain ⟨bytes, hint, ⟨more, hm⟩, rfl⟩ := hn hk
  refine ⟨bytes, hint, ?_⟩
  rw [Lexer.passed, Cursor.skip, ← hm, drop_left]

/-- One digit and a letter are passed over. -/
theorem number_integer_passed : ∃ bytes, IsInteger false (.integer 5) bytes ∧ utf8 "01x5" = bytes ++ [] := by
  have h : number false .origin (.ofString "01x5") = .ok (.integer 5) (Lexer.passed (.ofString "01x5") 4) := by
    cbv
  exact number_integer h (by simp)

/-! ### Quoted literals -/

end Scan

/-- The token is what is read from the double-quoted body `raw` at `pos`, and holds code. -/
def TokenKind.IsRead (raw : Bytes) (pos : Pos) (kind : TokenKind) : Prop :=
  ∃ parts, kind = .interp parts ∧ Interpolation.parts raw pos = .ok parts

/-- The token holds no code, or it is read from a body that stands `i` bytes behind the cursor. -/
def TokenKind.IsWithin (c : Cursor) (kind : TokenKind) : Prop :=
  kind.isSimple ∨ ∃ i n, kind.IsRead ((c.skip i).rest.take n) (c.skip i).pos

lemma TokenKind.IsWithin.of_skip {c : Cursor} {kind : TokenKind} {i : Nat}
    (h : kind.IsWithin (c.skip i)) : kind.IsWithin c := by
  refine h.imp_right ?_
  rintro ⟨j, n, hr⟩
  rw [skip_skip] at hr
  exact ⟨i + j, n, hr⟩

namespace Scan

variable (opening close : Byte) (interpolates space : Bool) (raw : Bytes) (pos start : Pos) (l : Lexer)

lemma goes_delimited : GoesFrom l (fun body _ => ∃ n, body = (l.cursor.rest.take n, l.cursor.pos))
      (delimited opening close interpolates start) := by
  refine .get ?_
  dsimp only
  split
  · exact .skip (.pure ⟨_, rfl⟩)
  · exact Goes.after roams_skipAll (fun _ _ => goes_fail _ _) l
  · exact .skip (goes_fail _ _)

lemma roams_delimited : Roams (delimited opening close interpolates start) :=
  fun l => (goes_delimited opening close interpolates start l).mono fun _ _ _ => trivial

lemma goes_doubleQuoted :
    GoesFrom l (fun kind n => n = 0 ∧ (kind.isSimple ∨ kind.IsRead raw pos)) (doubleQuoted raw pos) := by
  unfold doubleQuoted
  split
  · exact .throw
  · rename_i parts hp
    refine .pure ⟨rfl, ?_⟩
    split
    · exact .inl rfl
    · exact .inr ⟨parts, rfl, hp⟩

lemma roams_doubleQuoted : Roams (doubleQuoted raw pos) :=
  fun l => (goes_doubleQuoted raw pos l).mono fun _ _ _ => trivial

lemma goes_quotation :
    GoesFrom l (fun kind _ => kind.IsWithin l.cursor) (do
      let (raw, p) ← delimited opening close true start
      doubleQuoted raw p) := by
  refine (goes_delimited opening close true start l).bind fun body n hb => ?_
  obtain ⟨k, rfl⟩ := hb
  refine (goes_doubleQuoted _ _ _).mono fun kind j hk => hk.2.imp_right fun hr => ?_
  exact ⟨0, k, hr⟩

lemma roams_regexFlags : Roams regexFlags := .after (roams_takeWhile _) fun _ => .pure trivial

lemma goes_regex : GoesFrom l Taken (regex start) := by
  refine .skipThen (.get fun l => ?_)
  dsimp only
  split
  · exact .after roams_skipAll fun _ _ => goes_fail _ _
  · exact .after (roams_skip _) fun _ => .after roams_regexFlags fun _ => .pure rfl

lemma goes_colon : GoesFrom l Taken (colon space start) := by
  refine .get (.peekAt ?_)
  split
  · refine .ite (fun _ => ?_) fun _ => .ite (fun _ => ?_) fun _ => .ite (fun _ => ?_) fun _ =>
      goes_punct start l
    · exact .skipThen (.pure rfl)
    · refine .skipThen (.after (roams_delimited _ _ _ _) fun _ => ?_)
      refine .ite (.pure rfl) (.after (roams_doubleQuoted _ _) fun k => ?_)
      split
      · exact .pure rfl
      · exact fun _ => goes_fail _ _
    · refine .skipThen (.after roams_symbolName fun name => .pure ?_)
      cases name <;> rfl
  · exact goes_punct start l

lemma goes_character? : GoesFrom l (fun k n => ∀ kind ∈ k, Taken kind n) (character? space) := by
  refine .get (.ite (fun _ => .pure nofun) fun _ => ?_)
  dsimp only
  split
  · exact .pure nofun
  · rename_i bytes n hf
    have hn : 0 < n := by
      split at hf
      · obtain ⟨⟨bytes, k⟩, -, heq⟩ := Option.map_eq_some_iff.mp hf
        cases heq
        omega
      · cases hf
        omega
      · cases hf
    refine .ite (fun _ => .pure nofun) fun _ => .skip (.pure ?_)
    rintro kind ⟨⟩
    exact ⟨hn, rfl⟩

lemma goes_percent? :
    GoesFrom l (fun k n => ∀ kind ∈ k, 0 < n ∧ kind.IsWithin l.cursor) (percent? space start) := by
  refine .get (.ite (fun _ => .pure nofun) fun _ => ?_)
  dsimp only
  split
  · exact .pure nofun
  · rename_i letter opening n hf
    have hn : 0 < n := by
      split at hf
      · split at hf
        · cases hf
          omega
        · split at hf
          · cases hf
            omega
          · cases hf
      · split at hf
        · cases hf
          omega
        · cases hf
      · cases hf
    have hs {c} {k : TokenKind} (hk : k.IsWithin c) : ∀ kind ∈ some k, kind.IsWithin c := by
      rintro kind ⟨⟩
      exact hk
    refine .skip (GoesFrom.mono (Q := fun k _ => ∀ kind ∈ k, kind.IsWithin (l.cursor.skip n)) ?_
      fun k j hk kind hmem => ⟨by omega, (hk kind hmem).of_skip⟩)
    refine (goes_delimited _ _ _ _ _).bind fun body k hb => ?_
    obtain ⟨j, rfl⟩ := hb
    split
    · exact .pure (hs (.inl rfl))
    · refine (goes_doubleQuoted _ _ _).bind fun kind _ hki => .pure (hs ?_)
      exact hki.2.imp_right fun hr => ⟨0, j, hr⟩
    iterate 5 exact .pure (hs (.inl rfl))
    · exact Goes.after roams_regexFlags (fun _ => .pure (hs (.inl rfl))) _

lemma roams_quotedName (quote : Byte) (start : Pos) : Roams (quotedName quote start) := by
  refine .after (roams_takeWhile _) fun _ => .peek fun _ => .maybe (fun _ => goes_fail _ _) ?_
  exact .after (roams_skip _) fun _ => .pure trivial

end Scan

/-! ### Heredocs -/

/-- The place behind a heredoc's body is the start of a later line. -/
lemma Heredoc.crosses_of_body {c place : Cursor} (h : Heredoc.body id indented c = some (bytes, place)) :
    c.Crosses place ∧ ∃ n, bytes = c.rest.take n := by
  fun_induction Heredoc.body id indented c generalizing bytes place with
  | case1 => cases h
  | case2 c b rest hr line =>
    cases h
    have hc := crosses_line (by rw [peek, hr]; rfl)
    refine ⟨⟨⟨hc.suffix, hc.offset, fun hnil => ?_⟩, hc.length_lt, hc.lineStart⟩, 0, rfl⟩
    exact (pos_skip_line hnil).symm.trans (hc.pos hnil)
  -- a line of the body: the rest of the body starts behind it
  | case3 c b rest hr line hend =>
    rename_i ih
    obtain ⟨⟨bytes', place'⟩, hb, heq⟩ := Option.map_eq_some_iff.mp h
    cases heq
    obtain ⟨hc, n, rfl⟩ := ih hb
    exact ⟨(Cursor.Leads.skip c (line.length + 1)).trans_crosses hc, line.length + 1 + n, take_add.symm⟩

/-- The text of a heredoc from its body, which loses the indentation its lines share behind `<<~`. -/
def Heredoc.text (squiggly : Bool) (body : Bytes) : Bytes :=
  if squiggly then utf8 (Indent.strip (Utf8.decode body)) else body

namespace Lexer

/-- Where the body of a heredoc starts whose opener is read: behind the bodies of those before it on the
line, or on the next line. -/
def bodyStart? (l : Lexer) : Option Cursor := match l.resume with
  | some place => some place
  | none =>
    let line := l.cursor.run (· != 10)
    if line.length < l.cursor.rest.length then some (l.cursor.skip (line.length + 1)) else none

/-- A heredoc's opener of at least `k` bytes is passed over, and reading is to go on behind its body. -/
def Opened (l : Lexer) (k : Nat) (l' : Lexer) : Prop :=
  ∃ n first place, k ≤ n ∧ (l.passed n).bodyStart? = some first ∧ first.Crosses place ∧
    l' = { l.passed n with resume := some place }

lemma Opened.passed {l l' : Lexer} {k : Nat} (h : (l.passed n).Opened k l') : l.Opened (n + k) l' := by
  obtain ⟨j, first, place, hj, hf, hp, rfl⟩ := h
  rw [passed_passed] at hf ⊢
  exact ⟨n + j, first, place, by omega, hf, hp, rfl⟩

lemma Opened.mono {l l' : Lexer} {j k : Nat} (h : l.Opened k l') (hjk : j ≤ k) : l.Opened j l' := by
  obtain ⟨n, first, place, hk, hp⟩ := h
  exact ⟨n, first, place, by omega, hp⟩

end Lexer

/-- Where a lexer can be when a token is read or the reading failed: bytes are passed over, or a heredoc
is opened. -/
def Lexer.Moved (l l' : Lexer) : Prop := (∃ n, l' = l.passed n) ∨ l.Opened 0 l'

/-- The token is read from the body of a heredoc whose opener starts at the cursor, and holds code. -/
def TokenKind.IsHeredoc (l : Lexer) (squiggly : Bool) (kind : TokenKind) : Prop :=
  ∃ i first n, (l.passed i).bodyStart? = some first ∧
    kind.IsRead (Heredoc.text squiggly (first.rest.take n)) first.pos

lemma TokenKind.IsHeredoc.of_passed {l : Lexer} {squiggly : Bool} {kind : TokenKind} {i : Nat}
    (h : kind.IsHeredoc (l.passed i) squiggly) : kind.IsHeredoc l squiggly := by
  obtain ⟨j, first, n, hf, hr⟩ := h
  rw [Lexer.passed_passed] at hf
  exact ⟨i + j, first, n, hf, hr⟩

/-- A reading that starts in state `l` opens a heredoc. -/
structure OpensFrom (l : Lexer) (k : Nat) (squiggly : Bool) (m : Scan TokenKind) : Prop where
  ok : ∀ ⦃kind l'⦄, m l = .ok kind l' → (kind.isSimple ∨ kind.IsHeredoc l squiggly) ∧ l.Opened k l'
  error : ∀ ⦃e l'⦄, m l = .error e l' → l.Moved l'

namespace OpensFrom

variable {α : Type} {l : Lexer} {k : Nat} {squiggly : Bool} {m : Scan α} {f : α → Scan TokenKind}

lemma of_goes {m : Scan TokenKind} (h : GoesFrom l (fun _ _ => False) m) : OpensFrom l k squiggly m :=
  ⟨fun _ _ hl => (h.ok hl).elim fun _ hn => hn.2.elim, fun _ _ hl => .inl (h.error hl)⟩

lemma bind {R : α → Nat → Prop} (hm : GoesFrom l R m)
    (hf : ∀ a n, R a n → OpensFrom (l.passed n) (k - n) squiggly (f a)) :
    OpensFrom l k squiggly (m >>= f) := by
  constructor
  · intro kind l' hl
    obtain ⟨a, t, ha, hb⟩ := bind_eq_ok.mp hl
    obtain ⟨n, rfl, hR⟩ := hm.ok ha
    obtain ⟨hk, ho⟩ := (hf a n hR).ok hb
    exact ⟨hk.imp_right (·.of_passed), ho.passed.mono (by omega)⟩
  · intro e l' hl
    rcases bind_eq_error.mp hl with ha | ⟨a, t, ha, hb⟩
    · exact .inl (hm.error ha)
    · obtain ⟨n, rfl, hR⟩ := hm.ok ha
      rcases (hf a n hR).error hb with ⟨j, rfl⟩ | ho
      · exact .inl ⟨n + j, l.passed_passed n j⟩
      · exact .inr (ho.passed.mono (Nat.zero_le _))

lemma after (hm : Roams m) (hf : ∀ a l, OpensFrom l 0 squiggly (f a)) : OpensFrom l 0 squiggly (m >>= f) :=
  .bind (hm l) fun a n _ => (Nat.zero_sub n).symm ▸ hf a (l.passed n)

lemma maybe {c : Prop} [Decidable c] {rest : Scan TokenKind} (hm : Roams m)
    (h : ∀ l, OpensFrom l 0 squiggly rest) :
    OpensFrom l 0 squiggly (if c then m >>= fun _ => rest else rest) := by
  split
  · exact .after hm fun _ => h
  · exact h l

lemma get {f : Lexer → Scan TokenKind} (h : OpensFrom l k squiggly (f l)) :
    OpensFrom l k squiggly (get >>= f) := ⟨h.ok, h.error⟩

lemma peek {f : Option Byte → Scan TokenKind} (h : OpensFrom l k squiggly (f l.cursor.peek)) :
    OpensFrom l k squiggly (Scan.peek >>= f) := ⟨h.ok, h.error⟩

end OpensFrom

/-- What is left to be done for a heredoc when its opener is read. -/
def Scan.heredocBody (start : Pos) (id : String) (indented squiggly : Bool) (quote : Option Byte) :
    Scan TokenKind := do
  let l ← get
  match l.bodyStart? with
  | none => fail (.unterminatedHeredoc id) start
  | some first =>
    match Heredoc.body id.toList indented first with
    | none => fail (.unterminatedHeredoc id) start
    | some (bytes, resume) =>
      set { l with resume := some resume }
      if quote == some 39 then return .str (Heredoc.text squiggly bytes)
      doubleQuoted (Heredoc.text squiggly bytes) first.pos

lemma Scan.opens_heredocBody (start : Pos) (id : String) (indented squiggly : Bool) (quote : Option Byte)
    (l : Lexer) : OpensFrom l 0 squiggly (heredocBody start id indented squiggly quote) := by
  have hla t raw pos : GoesFrom t (fun kind n => n = 0 ∧ (kind.isSimple ∨ kind.IsRead raw pos))
        (if quote == some 39 then return .str raw else doubleQuoted raw pos) :=
    .ite (fun _ => .pure ⟨rfl, .inl rfl⟩) fun _ => goes_doubleQuoted raw pos t
  have hfau t raw pos ⦃e : LexError⦄ ⦃t' : Lexer⦄
      (h : (if quote == some 39 then return .str raw else doubleQuoted raw pos) t = .error e t') :
      t' = t := by
    split at h
    · cases h
    · unfold doubleQuoted at h
      cases hp : Interpolation.parts raw pos with
      | error fault =>
        rw [hp] at h
        cases h
        rfl
      | ok parts =>
        rw [hp] at h
        cases h
  refine .get ?_
  split
  · exact .of_goes (goes_fail _ _)
  · rename_i first hf
    split
    · exact .of_goes (goes_fail _ _)
    · rename_i bytes place hb
      obtain ⟨hc, j, hbyt⟩ := Heredoc.crosses_of_body hb
      have hd := hla { l with resume := some place } (Heredoc.text squiggly bytes) first.pos
      have ho : l.Opened 0 { l with resume := some place } :=
        ⟨0, first, place, le_rfl, hf, hc, rfl⟩
      constructor
      · intro kind l' hl
        obtain ⟨n, rfl, rfl, hk⟩ := hd.ok hl
        exact ⟨hk.imp_right fun hr => ⟨0, first, j, hf, hbyt ▸ hr⟩, ho⟩
      · intro e l' hl
        cases hfau _ _ _ hl
        exact .inr ho

lemma Scan.opens_heredoc (start : Pos) (l : Lexer) :
    OpensFrom l 1 ((l.cursor.skip 2).peek == some 126) (heredoc start) := by
  refine .bind (goes_skip l 2) ?_
  rintro - n rfl
  refine .peek (.peek (.maybe (roams_skip _) fun l => .peek ?_))
  dsimp only
  split
  · refine .after (roams_skip _) fun _ _ => .after (roams_quotedName _ _) fun id => ?_
    exact opens_heredocBody start id _ _ _
  · exact .after roams_name fun id => opens_heredocBody start id _ _ _

/-! ### All tokens -/

/-- Where a lexer is behind a token: bytes are passed over, or a heredoc is opened. -/
def Lexer.After (l l' : Lexer) : Prop := (∃ n, 0 < n ∧ l' = l.passed n) ∨ l.Opened 1 l'

lemma Lexer.After.moved {l l' : Lexer} (h : l.After l') : l.Moved l' :=
  h.imp (fun ⟨n, _, hl'⟩ => ⟨n, hl'⟩) (·.mono (Nat.zero_le _))

/-- What a token that starts at the cursor can be: code in it stands in a body behind the cursor, or in
the body of a heredoc. -/
inductive TokenKind.Starts (l : Lexer) (kind : TokenKind) : Prop
  | within (h : kind.IsWithin l.cursor)
  | heredoc {squiggly : Bool} (h : kind.IsHeredoc l squiggly)
      (hmark : squiggly → utf8 "<<~" <+: l.cursor.rest)

lemma TokenKind.IsRead.isWritten {raw : Bytes} {pos : Pos} {kind : TokenKind}
    (h : kind.IsRead raw pos) : kind.isWritten := by
  obtain ⟨parts, rfl, -⟩ := h
  rfl

lemma TokenKind.Starts.isWritten {l : Lexer} {kind : TokenKind} (h : kind.Starts l) : kind.isWritten := by
  rcases h with (hs | ⟨_, _, hr⟩) | ⟨⟨_, _, _, _, hr⟩⟩
  · cases kind with
    | newline | eof => cases hs
    | _ => rfl
  · exact hr.isWritten
  · exact hr.isWritten

/-- A reading that starts in state `l` takes a token. -/
structure TakesFrom (l : Lexer) (m : Scan TokenKind) : Prop where
  ok : ∀ ⦃kind l'⦄, m l = .ok kind l' → kind.Starts l ∧ l.After l'
  error : ∀ ⦃e l'⦄, m l = .error e l' → l.Moved l'

namespace TakesFrom

variable {l : Lexer} {m m' : Scan TokenKind}

lemma of_within (h : GoesFrom l (fun kind n => 0 < n ∧ kind.IsWithin l.cursor) m) : TakesFrom l m := by
  refine ⟨fun kind l' hl => ?_, fun e l' hl => .inl (h.error hl)⟩
  obtain ⟨n, hl', hn, hk⟩ := h.ok hl
  exact ⟨.within hk, .inl ⟨n, hn, hl'⟩⟩

lemma of_goes (h : GoesFrom l Taken m) : TakesFrom l m :=
  of_within (h.mono fun _ _ ht => ⟨ht.1, .inl ht.2⟩)

lemma of_opens {squiggly : Bool} (h : OpensFrom l 1 squiggly m)
    (hmark : squiggly → utf8 "<<~" <+: l.cursor.rest) : TakesFrom l m := by
  refine ⟨fun kind l' hl => ?_, h.error⟩
  obtain ⟨hk, ho⟩ := h.ok hl
  rcases hk with hs | hh
  · exact ⟨.within (.inl hs), .inr ho⟩
  · exact ⟨.heredoc hh hmark, .inr ho⟩

lemma ite {c : Prop} [Decidable c] (hm : c → TakesFrom l m) (hm' : ¬c → TakesFrom l m') :
    TakesFrom l (if c then m else m') := by
  split
  · exact hm ‹_›
  · exact hm' ‹_›

lemma get {f : Lexer → Scan TokenKind} (h : TakesFrom l (f l)) : TakesFrom l (get >>= f) := ⟨h.ok, h.error⟩

end TakesFrom

/-- The three marks of a heredoc that loses its indentation. -/
lemma Cursor.squiggly_isPrefix {c : Cursor} (hf : c.peek = some 60) (hs : c.peekAt 1 = some 60)
    (ht : (c.skip 2).peek = some 126) : utf8 "<<~" <+: c.rest := by
  obtain ⟨bytes, pos⟩ := c
  obtain ⟨rest, rfl⟩ : ∃ rest, bytes = 60 :: rest := peek_eq_some hf
  obtain ⟨rest', rfl⟩ : ∃ rest', rest = 60 :: rest' := by
    cases rest with
    | nil => cases hs
    | cons b rest' =>
      cases hs
      exact ⟨rest', rfl⟩
  obtain ⟨rest'', rfl⟩ : ∃ rest'', rest' = 126 :: rest'' := peek_eq_some ht
  exact ⟨rest'', by rw [show utf8 "<<~" = [60, 60, 126] by decide]; rfl⟩

namespace Lexer

open Scan

theorem takes_kind {l : Lexer} (hp : l.cursor.peek = some b) (space : Bool) (start : Pos) :
    TakesFrom l (kind b space start) := by
  -- a form that is tried before the mark in front counts as punctuation
  have hor {m} {f : Option TokenKind → Scan TokenKind}
      (h : GoesFrom l (fun k n => ∀ kind ∈ k, 0 < n ∧ kind.IsWithin l.cursor) m)
      (hs : ∀ kind, f (some kind) = pure kind) (hno : f none = punct start) :
      TakesFrom l (m >>= f) := by
    refine .of_within (h.bind fun k n hk => ?_)
    cases k with
    | some kind => exact hs kind ▸ .pure (hk kind rfl)
    | none => exact hno ▸ (goes_punct start _).mono fun _ _ ht => ⟨by omega, .inl ht.2⟩
  refine .get (.ite (fun _ => .of_goes ?_) fun _ => .ite (fun hd => .of_goes ?_) fun _ =>
    .ite (fun _ => .of_goes ?_) fun _ => ?_)
  · refine (goes_oneOf pos_of_mem_operatorNames l).bind fun name n hna => ?_
    split
    · exact .pure ⟨hna rfl, rfl⟩
    · exact (goes_punct start _).mono fun _ _ ht => ⟨by omega, ht.2⟩
  · exact (goes_number _ _ l).mono fun _ _ hn => ⟨hn.1 b hp hd, hn.2.1⟩
  · exact .skip ((goes_number _ _ _).mono fun _ _ hn => ⟨by omega, hn.2.1⟩)
  · split
    · exact .of_goes (goes_instanceOrClassVariable start l)
    · exact .of_goes (goes_globalVariable start l)
    · refine .of_within (.skip ((goes_quotation _ _ _ _).mono fun kind n hki => ?_))
      exact ⟨by omega, hki.of_skip⟩
    · exact .of_goes (.skipThen (.after (roams_delimited _ _ _ _) fun _ => .pure rfl))
    · exact .of_goes (goes_fail _ _)
    · exact .of_goes (goes_colon space start l)
    · refine hor ((goes_character? space l).mono fun k n hk kind hmem => ?_) (fun _ => rfl) rfl
      exact ⟨(hk kind hmem).1, .inl (hk kind hmem).2⟩
    · exact hor (goes_percent? space start l) (fun _ => rfl) rfl
    · refine .ite (fun _ => .of_goes (goes_regex start l)) fun _ => .ite (fun ho => ?_) fun _ =>
        .ite (fun hide => .of_goes (goes_word hp hide)) fun _ => .of_goes (goes_punct start l)
      rw [Bool.and_eq_true, beq_iff_eq, atHeredoc, Bool.and_eq_true, Bool.and_eq_true, beq_iff_eq] at ho
      obtain ⟨hf, ⟨hsec, -⟩, -⟩ := ho
      have hb : b = 60 := Byte.toChar_injective hf
      exact .of_opens (opens_heredoc start l) fun hmark =>
        squiggly_isPrefix (hb ▸ hp) hsec (beq_iff_eq.mp hmark)

end Lexer

end Garnet
