import Garnet.Proofs.Token.Ending

/-!
# Where tokens stand

Reading counts byte by byte, a heredoc computes the place behind its body, and the tokens of a text inside a file
are moved to where it stands. All three describe one map from bytes to lines and columns, `Pos.advance`: a token
starts where advancing over the bytes before it leads (`Lexer.start_eq_advance`). Of the end of the text only the
offset is kept in all cases, so nothing is said about the token for it.

`Lexer.Driven` holds of a lexer and the tokens it gave, however it was used: as a stream, token by token with
tokens handed back and names told to be variables, and also behind a fault.
-/

namespace Garnet

open List

variable {c : Cursor}

/-! ### Texts inside a file -/

namespace Pos

variable {p : Pos}

/-- Lines and columns are counted from one. -/
structure Counted (p : Pos) : Prop where
  line : 0 < p.line
  column : 0 < p.column

lemma Counted.next (h : p.Counted) (b : Byte) : (p.next b).Counted := by
  unfold Pos.next
  split
  · exact ⟨Nat.succ_pos _, Nat.one_pos⟩
  · exact ⟨h.line, Nat.succ_pos _⟩

lemma relocate_next (h : p.Counted) (base : Pos) (b : Byte) :
    (p.next b).relocate base = (p.relocate base).next b := by
  have hl := h.line
  have hc := h.column
  -- a line end starts a line of its own, which is never the first; any other byte stays on its line
  by_cases hb : b = 10
  · have hnext : (p.next b).line ≠ 1 := by
      rw [next, if_pos hb]
      dsimp only
      omega
    rw [relocate, if_neg hnext, next, next, if_pos hb, if_pos hb, relocate]
    split <;> simp only [Pos.mk.injEq, and_true] <;> omega
  · have hnext : (p.next b).line = p.line := by rw [next, if_neg hb]
    rw [relocate, relocate, hnext]
    split <;> simp only [next, if_neg hb, Pos.mk.injEq, and_true, true_and] <;> omega

lemma relocate_advance (h : p.Counted) (base : Pos) (bs : Bytes) :
    (p.advance bs).relocate base = (p.relocate base).advance bs := by
  induction bs generalizing p with
  | nil => rfl
  | cons b bs ih => rw [advance_cons, advance_cons, ih (h.next b), relocate_next h]

/-- A place in a text that stands at `base` is `base` advanced over what comes before it. -/
lemma relocate_origin_advance (base : Pos) (bs : Bytes) :
    (origin.advance bs).relocate base = base.advance bs := by
  have hc : origin.Counted := ⟨Nat.one_pos, Nat.one_pos⟩
  rw [relocate_advance hc]
  rfl

end Pos

lemma Span.start_relocated {span : Span} {bs : Bytes} (h : span.start = Pos.origin.advance bs)
    (origin : Option Pos) :
    (origin.elim span span.relocate).start = (origin.getD .origin).advance bs := by
  cases origin with
  | none => exact h
  | some base => exact (congrArg (Pos.relocate · base) h).trans (Pos.relocate_origin_advance base bs)

/-! ### One token -/

/-- `p` is a place of the text `src` that stands at `base`. -/
def Pos.IsIn (p : Pos) (src : Bytes) (base : Pos) : Prop := ∃ k ≤ src.length, p = base.advance (src.take k)

lemma Cursor.Leads.exists_take {src : Bytes} (h : (Cursor.start src).Leads c) (hc : c.rest ≠ []) :
    ∃ k ≤ src.length, c.pos = Pos.origin.advance (src.take k) ∧ c.rest = src.drop k :=
  ⟨src.length - c.rest.length, Nat.sub_le _ _, h.pos hc, suffix_iff_eq_drop.mp h.suffix⟩

lemma Cursor.Leads.isIn {src : Bytes} (h : (Cursor.start src).Leads c) (hc : c.rest ≠ []) :
    c.pos.IsIn src .origin := by
  obtain ⟨k, hk, hpos, -⟩ := h.exists_take hc
  exact ⟨k, hk, hpos⟩

lemma Gap.Path.isIn {src : Bytes} {resume : Option Cursor} {gap : Gap} {first : Pos}
    (h : Gap.Path c resume gap) (hin : Cursor.In src c resume) (hs : gap.stop = .lineEnd first) :
    first.IsIn src .origin := by
  induction h with
  | stop hl hne => exact absurd hs (hne first)
  | move hl hli h ih => exact ih (hin.leads hl) hs
  | jump h ih => exact ih hin.jump hs
  | lineEnd hpeek =>
    cases hs
    obtain ⟨rest, hr⟩ := Cursor.peek_eq_some hpeek
    exact hin.cursor.isIn (hr ▸ cons_ne_nil _ _)

namespace Lexer

variable {e : LexError} {src : Bytes} {origin : Option Pos} {l l' : Lexer} {seen : List Token} {t : Token}

lemma Scanned.isIn (h : l.Scanned t l') (hin : l.In src) (hkind : t.kind ≠ .eof) :
    t.span.start.IsIn src .origin := by
  cases h with
  | lineEnd hgap hs => exact hgap.isIn hin hs
  | eof hgap => exact absurd rfl hkind
  | token hgap hs hpeek hsta hsp =>
    obtain ⟨rest, hr⟩ := Cursor.peek_eq_some hpeek
    rw [hsp]
    exact (hgap.within hin).cursor.isIn (hr ▸ cons_ne_nil _ _)

lemma Step.isIn (h : l.Step t l') (hin : l.In src) (hkind : t.kind ≠ .eof) :
    t.span.start.IsIn src (l.origin.getD .origin) := by
  cases h with
  | mk hs =>
    obtain ⟨k, hk, hsta⟩ := hs.isIn hin hkind
    exact ⟨k, hk, Span.start_relocated hsta l.origin⟩

/-! ### All tokens -/

/-- A lexer for the text `src`, used in whatever way, and the tokens that it gave. -/
inductive Driven (src : Bytes) (origin : Option Pos) : Lexer → List Token → Prop
  | start : Driven src origin (ofBytes src origin) []
  | next {l l' seen t : _} (h : Driven src origin l seen)
      (hnext : next l = .ok t l') : Driven src origin l' (t :: seen)
  | fault {l l' seen e : _} (h : Driven src origin l seen)
      (hnext : next l = .error e l') : Driven src origin l' seen
  | peek {l l' seen t : _} (h : Driven src origin l seen)
      (hpeek : peek l = .ok t l') : Driven src origin l' (t :: seen)
  | iterate {l l' seen t : _} (h : Driven src origin l seen)
      (hiterate : l.iterate = (some (.ok t), l')) : Driven src origin l' (t :: seen)
  | stop {l l' seen e : _} (h : Driven src origin l seen)
      (hiterate : l.iterate = (some (.error e), l')) : Driven src origin l' seen
  | pushBack {l seen t : _} (h : Driven src origin l seen) (ht : t ∈ seen) :
      Driven src origin (l.pushBack t) seen
  | markLocal {l seen : _} (h : Driven src origin l seen) (span : Span) :
      Driven src origin (l.markLocal span) seen

lemma next_of_iterate {r : Except LexError Token} (h : l.iterate = (some r, l')) :
    match r with
    | .ok t => l.next = .ok t l'
    | .error e => ∃ l₁, l.next = .error e l₁ ∧ l' = { l₁ with finished := true } := by
  rw [iterate] at h
  split at h
  · cases h
  · cases hnext : l.next with
    | ok token l₁ =>
      rw [hnext] at h
      cases h
      rfl
    | error fault l₁ =>
      rw [hnext] at h
      cases h
      exact ⟨l₁, rfl, rfl⟩

/-- What is kept while a lexer is used, for a property of tokens. -/
structure Kept (src : Bytes) (origin : Option Pos) (P : Token → Prop) (l : Lexer) (seen : List Token) :
    Prop where
  within : l.In src
  origin_eq : l.origin = origin
  pushed : ∀ t, l.pushed = some t → P t
  seen : ∀ t ∈ seen, P t

namespace Kept

variable {P : Token → Prop}

lemma cons (h : Kept src origin P l seen) (ht : P t) : Kept src origin P l (t :: seen) :=
  ⟨h.within, h.origin_eq, h.pushed, forall_mem_cons.mpr ⟨ht, h.seen⟩⟩

lemma next (hstep : ∀ {l l' : Lexer} {t : Token}, l.In src → l.origin = origin → l.Step t l' → P t)
    (h : Kept src origin P l seen) (hnext : l.next = .ok t l') :
    Kept src origin P l' seen ∧ l'.pushed = none ∧ P t := by
  cases hp : l.pushed with
  | some token =>
    rw [Lexer.next, hp] at hnext
    cases hnext
    exact ⟨⟨h.within, h.origin_eq, by simp, h.seen⟩, rfl, h.pushed _ hp⟩
  | none =>
    rw [Lexer.next, hp] at hnext
    have hr := step_of_fresh hnext
    have hn : l'.pushed = none := hr.pushed_eq.trans hp
    refine ⟨⟨hr.within h.within, hr.origin_eq.trans h.origin_eq, ?_, h.seen⟩, hn,
      hstep h.within h.origin_eq hr⟩
    simp [hn]

lemma fault (h : Kept src origin P l seen) (hnext : l.next = .error e l') : Kept src origin P l' seen := by
  cases hp : l.pushed with
  | some token =>
    rw [Lexer.next, hp] at hnext
    cases hnext
  | none =>
    rw [Lexer.next, hp] at hnext
    obtain ⟨gap, hgap, hm⟩ := moved_of_fresh hnext
    refine ⟨In.moved (hgap.within h.within) hm, hm.origin_eq.trans h.origin_eq, ?_, h.seen⟩
    rw [hm.pushed_eq]
    exact h.pushed

end Kept

/-- What holds of the tokens that are read holds of all tokens a lexer gives. -/
lemma Driven.kept {P : Token → Prop}
    (hstep : ∀ {l l' : Lexer} {t : Token}, l.In src → l.origin = origin → l.Step t l' → P t)
    (h : Driven src origin l seen) : Kept src origin P l seen := by
  induction h with
  | start => exact ⟨Cursor.In.start src, rfl, nofun, nofun⟩
  | next h hnext ih =>
    obtain ⟨hk, -, ht⟩ := ih.next hstep hnext
    exact hk.cons ht
  | fault h hnext ih => exact ih.fault hnext
  | peek h hpeek ih =>
    obtain ⟨t, l₁, hnext, hpeek⟩ := bind_eq_ok.mp hpeek
    obtain ⟨hk, -, ht⟩ := ih.next hstep hnext
    cases hpeek
    refine Kept.cons ⟨hk.within, hk.origin_eq, ?_, hk.seen⟩ ht
    rintro _ ⟨⟩
    exact ht
  | iterate h hiterate ih =>
    obtain ⟨hk, -, ht⟩ := ih.next hstep (next_of_iterate hiterate)
    exact hk.cons ht
  | stop h hiterate ih =>
    obtain ⟨l₁, hnext, rfl⟩ := next_of_iterate hiterate
    have hk := ih.fault hnext
    exact ⟨hk.within, hk.origin_eq, hk.pushed, hk.seen⟩
  | pushBack h ht ih =>
    refine ⟨ih.within, ih.origin_eq, ?_, ih.seen⟩
    rintro _ ⟨⟩
    exact ih.seen _ ht
  | markLocal h span ih =>
    rw [Lexer.markLocal]
    split
    · exact ⟨ih.within, ih.origin_eq, ih.pushed, ih.seen⟩
    · exact ih

lemma Driven.collect (h : Driven src origin l seen) (fuel : Nat) :
    ∃ l', Driven src origin l' ((Lexer.collect fuel l).1.reverse ++ seen) := by
  induction fuel generalizing l seen with
  | zero => exact ⟨l, h⟩
  | succ fuel ih =>
    rw [Lexer.collect]
    split
    · exact ⟨l, h⟩
    · exact ⟨l, h⟩
    · rename_i token l₁ hiterate
      obtain ⟨l', hdriven⟩ := ih (h.iterate hiterate)
      exact ⟨l', by rwa [reverse_cons, append_assoc, singleton_append]⟩

/-- Every token but the end of the text starts where advancing over some first bytes of the text leads,
from where the text stands: its offset, line and column agree. This holds of the stream of the text's
tokens, and in whatever way a lexer is used. -/
theorem start_eq_advance (src : Bytes) (origin : Option Pos) :
    (∀ t ∈ (ofBytes src origin).tokens.1, t.kind ≠ .eof →
      ∃ k ≤ src.length, t.span.start = (origin.getD .origin).advance (src.take k)) ∧
    ∀ l seen, Driven src origin l seen → ∀ t ∈ seen, t.kind ≠ .eof →
      ∃ k ≤ src.length, t.span.start = (origin.getD .origin).advance (src.take k) := by
  have hdriven {l : Lexer} {seen : List Token} (h : Driven src origin l seen) :
      ∀ t ∈ seen, t.kind ≠ .eof → t.span.start.IsIn src (origin.getD .origin) := by
    refine (h.kept (P := fun t => t.kind ≠ .eof → t.span.start.IsIn src (origin.getD .origin)) ?_).seen
    intro l l' t hin horigin hstep hkind
    exact horigin ▸ hstep.isIn hin hkind
  refine ⟨fun t ht => ?_, fun l seen h => hdriven h⟩
  obtain ⟨l', htokens⟩ := (Driven.start : Driven src origin _ _).collect (ofBytes src origin).bound
  exact hdriven htokens t (List.mem_append_left _ (List.mem_reverse.mpr ht))

/-- A name behind a heredoc, in a text that stands inside a file. -/
theorem start_eq_advance_behind_heredoc :
    ∃ t ∈ (ofString "<<A\nx\nA\n y" (some ⟨10, 2, 5⟩)).tokens.1, t.kind ≠ .eof ∧ t.span.start = ⟨19, 5, 2⟩ ∧
      ∃ k ≤ (utf8 "<<A\nx\nA\n y").length,
        t.span.start = Pos.advance ⟨10, 2, 5⟩ ((utf8 "<<A\nx\nA\n y").take k) := by
  have hbytes : utf8 "<<A\nx\nA\n y" = [60, 60, 65, 10, 120, 10, 65, 10, 32, 121] := by decide
  let t : Token := ⟨.ident "y", ⟨⟨19, 5, 2⟩, ⟨20, 5, 3⟩⟩, true, true⟩
  have hmem : t ∈ (ofString "<<A\nx\nA\n y" (some ⟨10, 2, 5⟩)).tokens.1 := by
    refine of_decide_eq_true ?_
    rw [ofString, hbytes]
    cbv
  exact ⟨t, hmem, by simp [t], rfl, (start_eq_advance _ _).1 t hmem (by simp [t])⟩

end Lexer

end Garnet
