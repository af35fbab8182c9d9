import Garnet.Proofs.Reading.Precedence
import Garnet.Proofs.Token.Numeral

/-!
# The tokens of a formula

A formula of integer literals is written with single blanks between its words. Each word is one token, and
these are all (`Lexer.feeds_formula`). Behind a value the bytes `%`, `/`, `<`, `+` and `-` start an operator,
where elsewhere they can start a literal, and a blank before a word cuts it off from the rest:
so an operator is the first entry of the punctuation that its own text starts with.
-/

namespace Garnet

open List

variable {bs : Bytes}

lemma Utf8.decodeChars_ascii (h : ∀ b ∈ bs, b < 0x80) : decodeChars bs = bs.map Byte.toChar := by
  induction bs with
  | nil => rw [decodeChars, map_nil]
  | cons b bs ih =>
    obtain ⟨hb, hbs⟩ := forall_mem_cons.mp h
    rw [decodeChars, if_pos hb, ih hbs, map_cons]

/-! ### Operators -/

/-- The token of an operator: a reserved word or punctuation. -/
def Operator.tokenKind (o : Operator) : TokenKind :=
  if Keyword.all.contains o.symbol then .keyword o.symbol else .punct o.symbol

/-- The bytes that punctuation between two operands starts with. -/
def operatorMarks : Bytes := [37, 33, 38, 42, 43, 45, 46, 47, 60, 61, 62, 94, 124]

namespace Scan

variable {l : Lexer} {tail : Bytes}

lemma isPrefixOf_append_blank {s : Bytes} (hs : 32 ∉ s) (bs tail : Bytes) :
    s.isPrefixOf (bs ++ 32 :: tail) = s.isPrefixOf bs := by
  induction s generalizing bs with
  | nil => simp
  | cons b s ih =>
    obtain ⟨hb, hs⟩ := not_or.mp (mt mem_cons.mpr hs)
    cases bs with
    | nil => simp [isPrefixOf, Ne.symm hb]
    | cons c bs => simp [isPrefixOf, ih hs]

lemma find_punctuation (bs tail : Bytes) :
    punctuation.find? (fun s => (utf8 s).isPrefixOf (bs ++ 32 :: tail)) =
      punctuation.find? fun s => (utf8 s).isPrefixOf bs := by
  have hall : ∀ s ∈ punctuation, 32 ∉ utf8 s := by decide
  generalize punctuation = table at hall ⊢
  induction table with
  | nil => rfl
  | cons s table ih =>
    obtain ⟨hs, ht⟩ := forall_mem_cons.mp hall
    rw [find?_cons, find?_cons, isPrefixOf_append_blank hs, ih ht]

lemma punct_symbol {o : Connective} (ho : Keyword.all.contains o.1.symbol = false)
    (h : l.cursor.rest = utf8 o.1.symbol ++ 32 :: tail) (start : Pos) :
    punct start l = .ok (.punct o.1.symbol) (l.passed (utf8 o.1.symbol).length) := by
  have hall : ∀ o ∈ Operator.binaryTable, o.isConnective → Keyword.all.contains o.symbol = false →
      punctuation.find? (fun s => (utf8 s).isPrefixOf (utf8 o.symbol)) = some o.symbol := by decide
  have hf : punctuation.find? l.cursor.startsWith = some o.1.symbol := by
    rw [← hall o.1 o.2.1 o.2.2 ho, ← find_punctuation _ tail, ← h]
    rfl
  rw [punct]
  refine bind_eq_ok.mpr ⟨some o.1.symbol, l.passed (utf8 o.1.symbol).length, ?_, rfl⟩
  rw [oneOf, get_bind_eq]
  simp only [hf]
  rfl

lemma takeWhile_append {p : Byte → Bool} (h : l.cursor.rest = bs ++ 32 :: tail) (hbs : ∀ b ∈ bs, p b)
    (hb : p 32 = false) : takeWhile p l = .ok bs (l.passed bs.length) := by
  have hrun : l.cursor.run p = bs := by
    rw [Cursor.run, h, takeWhile_append_of_pos hbs, takeWhile_cons, hb]
    simp
  show EStateM.Result.ok (l.cursor.run p) { l with cursor := l.cursor.skip (l.cursor.run p).length } = _
  rw [hrun]
  rfl

lemma word_reserved (h : l.cursor.rest = bs ++ 32 :: tail) (hbs : ∀ b ∈ bs, b.isIdent)
    (hdot : l.preceding ≠ .dot) (hres : Keyword.all.contains (Utf8.decode bs)) :
    word l = .ok (.keyword (Utf8.decode bs)) (l.passed bs.length) := by
  have hn : name l = .ok (Utf8.decode bs) (l.passed bs.length) :=
    bind_eq_ok.mpr ⟨_, _, takeWhile_append h hbs rfl, rfl⟩
  have hr : (l.passed bs.length).cursor.rest = 32 :: tail := by
    rw [Lexer.passed, Cursor.skip, h, drop_left]
  rw [word, get_bind_eq, peek_bind_eq]
  refine bind_eq_ok.mpr ⟨_, _, hn, ?_⟩
  have hm : ((32 :: tail).head? == some 63 || (32 :: tail).head? == some 33) = false := rfl
  have hc : ((32 :: tail).head? == some 58) = false := rfl
  rw [peek_bind_eq, peekAt_bind_eq, hr]
  simp only [hm, Bool.and_false, Bool.false_and, Bool.false_eq_true, if_false]
  rw [peek_bind_eq, peekAt_bind_eq, hr]
  simp only [hc, Bool.false_and, Bool.false_eq_true, if_false]
  rw [hres, bne_iff_ne.mpr hdot]
  rfl

end Scan

namespace Lexer

variable {l : Lexer} {b : Byte}

lemma kind_mark (h : l.preceding = .value) (hb : b ∈ operatorMarks) (space : Bool) (start : Pos) :
    kind b space start l = Scan.punct start l := by
  have hv : l.valueEnded = true := by rw [valueEnded, h]; rfl
  have harg : l.commandArg space = false := by rw [commandArg, h]; rfl
  have hh : l.atHeredoc space = false := by simp [atHeredoc, hv, h]
  have hp : Scan.percent? space start l = .ok none l := by
    rw [Scan.percent?, get_bind_eq, hv, harg]
    rfl
  rw [kind, get_bind_eq]
  -- behind a value no literal can start: what is left of each branch is punctuation
  simp only [h, hv, harg, hh, Bool.not_true, Bool.and_false, Bool.or_false, Bool.false_and]
  rcases mem_cons.mp hb with rfl | hb
  · show EStateM.bind (Scan.percent? space start) _ l = _
    rw [EStateM.bind, hp]
  · simp only [mem_cons, not_mem_nil, or_false] at hb
    rcases hb with rfl | rfl | rfl | rfl | rfl | rfl | rfl | rfl | rfl | rfl | rfl | rfl <;> rfl

lemma kind_word (h : l.preceding = .value) (hb : b = 97 ∨ b = 111) (space : Bool) (start : Pos) :
    kind b space start l = Scan.word l := by
  rw [kind, get_bind_eq, h]
  rcases hb with rfl | rfl <;> rfl

lemma kind_connective (o : Connective) {rest tail : Bytes} (hs : utf8 o.1.symbol = b :: rest)
    (h : l.Ready .value (b :: (rest ++ 32 :: tail))) (space : Bool) (start : Pos) :
    kind b space start l = .ok o.1.tokenKind (l.passed (utf8 o.1.symbol).length) := by
  have hr : l.cursor.rest = utf8 o.1.symbol ++ 32 :: tail := by rw [h.rest, hs, cons_append]
  rw [Operator.tokenKind]
  cases hw : Keyword.all.contains o.1.symbol with
  | false =>
    have hall : ∀ o ∈ Operator.binaryTable, o.isConnective → Keyword.all.contains o.symbol = false →
        (utf8 o.symbol).head?.all operatorMarks.contains := by decide
    have hb := hall o.1 o.2.1 o.2.2 hw
    rw [hs, head?_cons, Option.all_some, contains_iff_mem] at hb
    rw [kind_mark h.preceding hb, Scan.punct_symbol hw hr]
    rfl
  | true =>
    have hall : ∀ o ∈ Operator.binaryTable, o.isConnective → Keyword.all.contains o.symbol →
        (utf8 o.symbol).head?.all (fun b => b == 97 || b == 111) ∧ (utf8 o.symbol).all Byte.isIdent ∧
          (utf8 o.symbol).all (· < 0x80) ∧ String.ofList ((utf8 o.symbol).map Byte.toChar) = o.symbol := by
      decide
    obtain ⟨hb, hide, ha, hc⟩ := hall o.1 o.2.1 o.2.2 hw
    rw [hs, head?_cons, Option.all_some, Bool.or_eq_true, beq_iff_eq, beq_iff_eq] at hb
    have hd : Utf8.decode (utf8 o.1.symbol) = o.1.symbol := by
      rw [Utf8.decode, Utf8.decodeChars_ascii (by simpa using ha), hc]
    have hdot : l.preceding ≠ .dot := by
      rw [h.preceding]
      decide
    rw [← hd] at hw
    rw [kind_word h.preceding hb, Scan.word_reserved hr (all_eq_true.mp hide) hdot hw, hd]
    rfl

lemma Ready.next_connective (o : Connective) {tail : Bytes}
    (h : l.Ready .value (32 :: (utf8 o.1.symbol ++ 32 :: tail))) :
    ∃ t l', next l = .ok t l' ∧ t.kind = o.1.tokenKind ∧ l'.Ready (.of o.1.tokenKind) (32 :: tail) := by
  have hall : ∀ o ∈ Operator.binaryTable, o.isConnective →
      (utf8 o.symbol).head?.any fun b => !Gap.marks.contains b := by decide
  obtain ⟨b, hh, hb⟩ := (Option.any_eq_true _ _).mp (hall o.1 o.2.1 o.2.2)
  obtain ⟨rest, hs⟩ := head?_eq_some_iff.mp hh
  rw [hs, cons_append] at h
  have hn := h.next_blank (by simpa using hb) fun l₁ start h₁ => kind_connective o hs h₁ true start
  rwa [← cons_append, ← hs, drop_left] at hn

end Lexer

/-! ### Formulas -/

lemma utf8_intercalate (w : String) (ws : List String) :
    utf8 (" ".intercalate (w :: ws)) = utf8 w ++ ws.flatMap fun w => 32 :: utf8 w := by
  induction ws generalizing w with
  | nil => simp
  | cons w' ws ih =>
    rw [String.intercalate_cons_cons, utf8_append, utf8_append, ih, flatMap_cons, append_assoc]
    rfl

namespace Formula

variable (f : Formula IntLiteral)

def words : List String :=
  f.first.text :: f.rest.flatMap fun x => [x.1.1.symbol, x.2.text]

/-- The formula with single blanks between its words. -/
def text : String := " ".intercalate f.words

variable (rest : List (Connective × IntLiteral))

/-- Operators and operands as they are written behind an operand. -/
def tailBytes : Bytes :=
  rest.flatMap fun x => 32 :: (utf8 x.1.1.symbol ++ 32 :: x.2.bytes)

def tailKinds : List TokenKind :=
  rest.flatMap fun x => [x.1.1.tokenKind, x.2.kind]

lemma utf8_text : utf8 f.text = f.first.bytes ++ tailBytes f.rest := by
  rw [text, words, utf8_intercalate, flatMap_assoc, f.first.utf8_text]
  simp [tailBytes, IntLiteral.utf8_text]

example : text ⟨.decimal ⟨⟨49, rfl⟩, [(true, ⟨48, rfl⟩)]⟩ nofun,
    [(⟨⟨"-", 75, .left, false, .method⟩, by decide⟩, .based 120 16 rfl ⟨⟨49, rfl⟩, [(false, ⟨102, rfl⟩)]⟩),
      (⟨⟨"and", 10, .left, false, .and⟩, by decide⟩, .octal ⟨⟨55, rfl⟩, []⟩)]⟩ = "1_0 - 0x1f and 07" := by
  decide

lemma endsWord_tailBytes : EndsWord (tailBytes rest) := by
  cases rest with
  | nil => exact .inl rfl
  | cons x rest => exact .inr ⟨_, rfl⟩

lemma length_le_tailBytes :
    rest.length ≤ (tailBytes rest).length := by
  induction rest with
  | nil => exact le_rfl
  | cons x rest ih =>
    rw [tailBytes, flatMap_cons, length_append, length_cons, length_cons, ← tailBytes]
    omega

end Formula

def Lexer.Feeds : List TokenKind → Lexer → Prop
  | [], _ => True
  | k :: ks, l => ∃ t l', next l = .ok t l' ∧ t.kind = k ∧ l'.pushed = none ∧ Feeds ks l'

lemma Lexer.Ready.feeds_tail {l : Lexer} {rest : List (Connective × IntLiteral)}
    (h : l.Ready .value (Formula.tailBytes rest)) : l.Feeds (Formula.tailKinds rest ++ [.eof]) := by
  induction rest generalizing l with
  | nil =>
    obtain ⟨t, l', hn, hk, hd⟩ := h.next_eof
    exact ⟨t, l', hn, hk, hd.pushed, trivial⟩
  | cons x rest ih =>
    obtain ⟨o, v⟩ := x
    have hb : Formula.tailBytes ((o, v) :: rest) =
        32 :: (utf8 o.1.symbol ++ 32 :: (v.bytes ++ Formula.tailBytes rest)) := by
      simp [Formula.tailBytes]
    obtain ⟨t, l₁, hn, hk, h₁⟩ := Ready.next_connective o (hb ▸ h)
    obtain ⟨t', l₂, hn', hk', h₂⟩ := h₁.next_literal v [32] (.inr rfl) (Formula.endsWord_tailBytes rest)
    exact ⟨t, l₁, hn, hk, h₁.pushed, t', l₂, hn', hk', h₂.pushed, ih h₂⟩

theorem Lexer.feeds_formula (f : Formula IntLiteral) :
    (ofString f.text).Feeds (f.first.kind :: (Formula.tailKinds f.rest ++ [.eof])) := by
  have h := ready_ofString f.text
  rw [f.utf8_text] at h
  obtain ⟨t, l', hn, hk, h'⟩ := h.next_literal f.first [] (.inl rfl) (Formula.endsWord_tailBytes f.rest)
  exact ⟨t, l', hn, hk, h'.pushed, h'.feeds_tail⟩

end Garnet
