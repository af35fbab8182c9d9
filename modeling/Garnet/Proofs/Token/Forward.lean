import Garnet.Proofs.Token.Ending

/-!
# Reading given texts

Where the other modules say what any token does to a lexer, this one says which token comes next when the
text is known. A lexer that is `Ready` stands before given bytes; the token there is read right here,
behind a blank, or it is the end of the text.
-/

namespace Garnet

/-! ### Gaps -/

namespace Gap

/-- The bytes that a gap can hold, `=` apart. -/
def marks : Bytes := [9, 10, 13, 32, 35, 92, 95]

variable {preceding : Preceding} {c : Cursor} {resume : Option Cursor} {space : Bool} {rest : Bytes}

lemma read_nil (h : c.rest = []) : read preceding c resume space = ⟨c, resume, space, .token⟩ := by
  obtain ⟨bytes, pos⟩ := c
  cases h
  rw [read.eq_def]

lemma read_blank (h : c.rest = 32 :: rest) :
    read preceding c resume space = read preceding c.bump resume true := by
  obtain ⟨bytes, pos⟩ := c
  cases h
  rw [read.eq_def]
  rfl

lemma read_here {b : Byte} (h : c.rest = b :: rest) (hb : b ∉ marks)
    (hc : b = 61 → c.pos.column ≠ 1) :
    read preceding c resume space = ⟨c, resume, space, .token⟩ := by
  obtain ⟨bytes, pos⟩ := c
  cases h
  have hm {mark} (heq : b.toChar = mark) (hmem : mark ∈ marks.map Byte.toChar) : False := by
    obtain ⟨d, hd, rfl⟩ := List.mem_map.mp hmem
    exact hb (Byte.toChar_injective heq ▸ hd)
  rw [read.eq_def]
  dsimp only
  split
  case h_6 heq =>
    have hcol : (pos.column == 1) = false :=
      beq_eq_false_iff_ne.mpr (hc (Byte.toChar_injective (b := 61) heq))
    rw [hcol]
    rfl
  all_goals first | exact (hm ‹_› (by decide)).elim | rfl

end Gap

/-! ### Tokens -/

lemma Pos.column_pos_advance {p : Pos} (h : 0 < p.column) (bs : Bytes) : 0 < (p.advance bs).column := by
  induction bs generalizing p with
  | nil => exact h
  | cons b bs ih =>
    refine ih ?_
    rw [next]
    split
    · exact Nat.one_pos
    · exact Nat.succ_pos _

namespace Lexer

/-- The lexer of a file stands before the bytes `rest`: no token was handed back, no heredoc waits,
and the token before means `preceding`. -/
structure Ready (l : Lexer) (preceding : Preceding) (rest : Bytes) : Prop where
  pushed : l.pushed = none
  origin : l.origin = none
  resume : l.resume = none
  finished : l.finished = false
  preceding : l.preceding = preceding
  rest : l.cursor.rest = rest
  column : 0 < l.cursor.pos.column

lemma ready_ofString (source : String) : (ofString source).Ready .start (utf8 source) :=
  ⟨rfl, rfl, rfl, rfl, rfl, rfl, Nat.one_pos⟩

namespace Ready

variable {l : Lexer} {preceding : Preceding} {rest : Bytes} {b : Byte} {k : TokenKind} {n : Nat}

lemma running (h : l.Ready preceding rest) : l.Running := ⟨h.pushed, h.finished⟩

lemma passed (h : l.Ready preceding rest) (n : Nat) : (l.passed n).Ready preceding (rest.drop n) where
  pushed := h.pushed
  origin := h.origin
  resume := h.resume
  finished := h.finished
  preceding := h.preceding
  rest := congrArg (List.drop n) h.rest
  column := Pos.column_pos_advance h.column _

/-- Behind a gap that leads to the place `c` stands the token that is read there. -/
lemma next_of_gap {bytes : Bytes} {c : Cursor} {space : Bool} (h : l.Ready preceding bytes)
    (hc : c.rest = b :: rest) (hcol : 0 < c.pos.column)
    (hgap : Gap.read preceding l.cursor none false = ⟨c, none, space, .token⟩)
    (hk : ∀ l₁ start, l₁.Ready preceding (b :: rest) → kind b space start l₁ = .ok k (l₁.passed n)) :
    ∃ t l', next l = .ok t l' ∧ t.kind = k ∧ l'.Ready (.of k) ((b :: rest).drop n) := by
  have hr : (l.behind ⟨c, none, space, .token⟩).Ready preceding (b :: rest) :=
    ⟨h.pushed, h.origin, rfl, h.finished, h.preceding, hc, hcol⟩
  have ha := hr.passed n
  have hs : scan l = .ok ⟨k, ⟨c.pos, (c.skip n).pos⟩, space, isGap (c.skip n).peek⟩
      ((l.behind ⟨c, none, space, .token⟩).passed n) := by
    rw [scan_eq, h.preceding, h.resume, hgap, tokenBehind, Cursor.peek, hc, List.head?_cons]
    exact bind_eq_ok.mpr ⟨_, _, hk _ _ hr, rfl⟩
  rw [next, h.pushed, fresh, hs]
  refine ⟨_, _, rfl, rfl, ha.pushed, ha.origin, ha.resume, ha.finished, rfl, ha.rest,
    ha.column⟩

lemma next_here (h : l.Ready preceding (b :: rest)) (hb : b ∉ Gap.marks) (hc : b ≠ 61)
    (hk : ∀ l₁ start, l₁.Ready preceding (b :: rest) → kind b false start l₁ = .ok k (l₁.passed n)) :
    ∃ t l', next l = .ok t l' ∧ t.kind = k ∧ l'.Ready (.of k) ((b :: rest).drop n) :=
  h.next_of_gap h.rest h.column (Gap.read_here h.rest hb fun heq => absurd heq hc) hk

lemma next_blank (h : l.Ready preceding (32 :: b :: rest)) (hb : b ∉ Gap.marks)
    (hk : ∀ l₁ start, l₁.Ready preceding (b :: rest) → kind b true start l₁ = .ok k (l₁.passed n)) :
    ∃ t l', next l = .ok t l' ∧ t.kind = k ∧ l'.Ready (.of k) ((b :: rest).drop n) := by
  have hbu : l.cursor.bump = ⟨b :: rest, l.cursor.pos.next 32⟩ := by rw [Cursor.bump, h.rest]
  have hc : l.cursor.bump.pos.column = l.cursor.pos.column + 1 := by
    rw [hbu, Pos.next, if_neg (by decide)]
  have hs := h.column
  have hr : l.cursor.bump.rest = b :: rest := by rw [hbu]
  refine h.next_of_gap hr (by omega) ?_ hk
  rw [Gap.read_blank h.rest]
  exact Gap.read_here hr hb fun _ => by omega

lemma next_eof (h : l.Ready preceding []) : ∃ t l', next l = .ok t l' ∧ t.kind = .eof ∧ l'.Done := by
  have hs : scan l = .ok { kind := .eof, span := .point l.cursor.pos, spaceBefore := false }
      { l with finished := true } := by
    rw [scan_eq, Gap.read_nil h.rest, tokenBehind, Cursor.peek, h.rest]
    rfl
  rw [next, h.pushed, fresh, hs]
  exact ⟨_, _, rfl, rfl, h.pushed, rfl⟩

end Ready

end Lexer

end Garnet
