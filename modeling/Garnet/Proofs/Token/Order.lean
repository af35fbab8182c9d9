import Garnet.Proofs.Token.Ending
import Mathlib

/-!
# The order of the tokens in the text

The tokens of a text stand one behind the other while each line end leads forwards. One leads backwards where a
literal that is opened on the line of a heredoc's opener ends behind the body: the literal does not know of the
body, and the text between the body and the literal's end is read twice
(`Lexer.heredoc_overrun_out_of_order`).

`Token.overruns` names the tokens that do so, and nothing else puts tokens out of order (`Lexer.inOrder_tokens`).
While a heredoc waits, the cursor stands before the place behind its body (`Cursor.Ahead`): that place starts a
line, and the cursor's line ends before it. A token that ends at the start of a line counts as an overrun too,
since `=begin` and `__END__` have their meaning there, whether a heredoc waits or not.
-/

namespace Garnet

open List

variable {resume : Option Cursor} {gap : Gap}

/-! ### In front of the place behind a body -/

/-- `c` stands inside a line that ends before `place`, or `place` is the end of the text. -/
structure Cursor.Ahead (c place : Cursor) : Prop where
  column : 1 < c.pos.column
  leads : c.Leads place
  lineEnd : place.rest = [] ∨ ∃ lines, c.rest = lines ++ 10 :: place.rest

namespace Cursor

variable {c d place : Cursor} {src : Bytes}

lemma Leads.of_offset_le {start : Cursor} (hc : start.Leads c) (hd : start.Leads d)
    (h : c.pos.offset ≤ d.pos.offset) : c.Leads d := by
  have hl : c.pos.offset + c.rest.length = d.pos.offset + d.rest.length := hc.offset.trans hd.offset.symm
  have hs : d.rest <:+ c.rest := suffix_of_suffix_length_le hd.suffix hc.suffix (by omega)
  refine ⟨hs, hl.symm, fun hnil => ?_⟩
  have hcn : c.rest ≠ [] := fun hc => hnil (suffix_nil.mp (hc ▸ hs))
  rw [hd.pos hnil, hc.pos hcn, Pos.advance_take_take start.pos hc.suffix hs.length_le]

lemma In.ahead (h : In src c (some place)) (hcol : 1 < c.pos.column)
    (ho : c.pos.offset < place.pos.offset) : c.Ahead place := by
  have hc := h.resume place rfl
  have hl := h.cursor.of_offset_le hc.toLeads (Nat.le_of_lt ho)
  refine ⟨hcol, hl, hc.lineStart.imp_right ?_⟩
  rintro ⟨lines, hlin⟩
  have hlen := hl.offset
  obtain ⟨lines', hc'⟩ := suffix_of_suffix_length_le ⟨lines, hlin.symm⟩ h.cursor.suffix (by grind)
  exact ⟨lines', hc'.symm⟩

lemma Ahead.sameLine (h : c.Ahead place) (hli : c.SameLine d) : d.Ahead place := by
  obtain ⟨n, rfl, hn⟩ := hli
  have hs := Leads.skip c n
  have hc : 1 < (c.skip n).pos.column := by
    rw [skip, Pos.advance_of_not_mem hn]
    exact Nat.lt_add_right _ h.column
  have ho : place.pos.offset + place.rest.length =
      (c.skip n).pos.offset + (c.skip n).rest.length := h.leads.offset.trans hs.offset.symm
  rcases h.lineEnd with hend | ⟨lines, hl⟩
  · exact ⟨hc, ⟨hend ▸ nil_suffix, ho, fun hnil => absurd hend hnil⟩, .inl hend⟩
  -- the line end before the place is not among the bytes passed, so they end before it
  · have hle : n ≤ lines.length := by
      refine Nat.le_of_not_lt fun hlt => hn ?_
      obtain ⟨k, rfl⟩ := Nat.exists_eq_add_of_lt hlt
      rw [hl, Nat.add_assoc, take_length_add_append]
      exact mem_append_right lines mem_cons_self
    have hr : (c.skip n).rest = lines.drop n ++ 10 :: place.rest := by
      rw [skip, hl, drop_append_of_le_length hle]
    have hlen : place.rest.length ≤ (c.skip n).rest.length := by
      rw [hr]
      exact ((suffix_cons 10 _).trans (suffix_append _ _)).length_le
    exact ⟨hc, hs.of_offset_le h.leads (by omega), .inr ⟨_, hr⟩⟩

end Cursor

/-- A gap leads forwards, and so does the line end in it, if the place behind a waiting heredoc lies
ahead. -/
lemma Gap.Path.offset_le {c : Cursor} (h : Gap.Path c resume gap)
    (ha : ∀ place, resume = some place → c.Ahead place) :
    c.pos.offset ≤ gap.cursor.pos.offset ∧ ∀ first, gap.stop = .lineEnd first →
      c.pos.offset ≤ first.offset ∧ first.offset ≤ gap.cursor.pos.offset := by
  induction h with
  | stop hl hne => exact ⟨hl.offset_le, fun first hs => absurd hs (hne first)⟩
  | move hl hli h ih =>
    obtain ⟨hle, hen⟩ := ih fun place hp =>
      (ha place hp).sameLine (hli (hp ▸ rfl) (ha place hp).column)
    refine ⟨Nat.le_trans hl.offset_le hle, fun first hs => ?_⟩
    exact ⟨Nat.le_trans hl.offset_le (hen first hs).1, (hen first hs).2⟩
  | jump h ih =>
    have hp := (ha _ rfl).leads.offset_le
    obtain ⟨hle, hen⟩ := ih nofun
    refine ⟨Nat.le_trans hp hle, fun first hs => ?_⟩
    exact ⟨Nat.le_trans hp (hen first hs).1, (hen first hs).2⟩
  | @lineEnd c resume space b hpe =>
    have hle : c.pos.offset ≤ (resume.getD c.bump).pos.offset := by
      cases resume with
      | none => exact (Cursor.Leads.bump c).offset_le
      | some place => exact (ha place rfl).leads.offset_le
    refine ⟨hle, fun first hs => ?_⟩
    cases hs
    exact ⟨le_rfl, hle⟩

lemma Gap.Path.resume_eq_none {c : Cursor} {first : Pos} (h : Gap.Path c resume gap)
    (hs : gap.stop = .lineEnd first) : gap.resume = none := by
  induction h with
  | stop hl hne => exact absurd hs (hne first)
  | move hl hli h ih => exact ih hs
  | jump h ih => exact ih hs
  | lineEnd => rfl

/-! ### Tokens -/

namespace Token

/-- The tokens stand one behind the other, from `offset` on. -/
def InOrder (offset : Nat) : List Token → Prop
  | [] => True
  | t :: ts =>
    offset ≤ t.span.start.offset ∧ t.span.start.offset ≤ t.span.stop.offset ∧ InOrder t.span.stop.offset ts

instance decidableInOrder (offset : Nat) : (ts : List Token) → Decidable (InOrder offset ts)
  | [] => inferInstanceAs (Decidable True)
  | t :: ts =>
    have := decidableInOrder t.span.stop.offset ts
    inferInstanceAs (Decidable (_ ∧ _ ∧ _))

/-- The token ends at or behind `place`, or at the start of a line. -/
def overruns (t : Token) (place : Cursor) : Bool :=
  t.span.stop.column ≤ 1 || place.pos.offset ≤ t.span.stop.offset

end Token

namespace Lexer

variable {src : Bytes} {l l' : Lexer} {t : Token}

/-- Some token among the next `fuel` ones is written out, leaves a heredoc waiting, and overruns the place
behind its body. -/
def hasOverrun : Nat → Lexer → Bool
  | 0, _ => false
  | fuel + 1, l =>
    match l.iterate with
    | (some (.ok t), l') => t.kind.isWritten && l'.resume.any t.overruns || hasOverrun fuel l'
    | _ => false

/-- The place behind the body of a heredoc that waits lies ahead. -/
abbrev Ahead (l : Lexer) : Prop := ∀ place, l.resume = some place → l.cursor.Ahead place

lemma Moved.leads (h : l.Moved l') : l.cursor.Leads l'.cursor := by
  rcases h with ⟨n, rfl⟩ | ⟨n, first, place, -, -, -, rfl⟩ <;> exact .skip _ n

lemma Step.offset_le (h : l.Step t l') (ho : l.origin = none) (ha : l.Ahead) :
    l.cursor.pos.offset ≤ t.span.start.offset ∧ t.span.start.offset ≤ t.span.stop.offset ∧
      t.span.stop = l'.cursor.pos := by
  cases h with
  | mk hsc =>
    rw [ho]
    cases hsc with
    | lineEnd hgap hs =>
      obtain ⟨-, hen⟩ := hgap.offset_le ha
      exact ⟨(hen _ hs).1, (hen _ hs).2, rfl⟩
    | eof hgap hs => exact ⟨(hgap.offset_le ha).1, le_rfl, rfl⟩
    | token hgap hs hp hk hsp haft =>
      rw [Option.elim_none, hsp]
      exact ⟨(hgap.offset_le ha).1, haft.moved.leads.offset_le, rfl⟩

/-- A token that does not overrun the place behind a body leaves it ahead. -/
lemma Step.ahead (h : l.Step t l') (hin : l'.In src) (hs : t.span.stop = l'.cursor.pos)
    (hk : t.kind ≠ .eof) (ho : (t.kind.isWritten && l'.resume.any t.overruns) = false) :
    l'.Ahead := by
  intro place hp
  cases h with
  | mk hsc =>
    cases hsc with
    | lineEnd hgap hl => exact absurd (hp.symm.trans (hgap.resume_eq_none hl)) nofun
    | eof => exact absurd rfl hk
    | token hgap _ _ hsta _ ha =>
      rw [hsta.isWritten, hp, Bool.true_and, Option.any_some, Token.overruns,
        Bool.or_eq_false_iff, hs, decide_eq_false_iff_not, decide_eq_false_iff_not, Nat.not_le, Nat.not_le] at ho
      exact (hp ▸ hin : Cursor.In src _ (some place)).ahead ho.1 ho.2

lemma inOrder_collect (fuel : Nat) (h : l.Running) (hori : l.origin = none) (hin : l.In src)
    (ha : l.Ahead) (ho : l.hasOverrun fuel = false) :
    Token.InOrder l.cursor.pos.offset (collect fuel l).1 := by
  induction fuel generalizing l with
  | zero => trivial
  | succ fuel ih =>
    rcases h.iterate_cases with ⟨t, l', hite, hs⟩ | ⟨e, l', hite, hd⟩
    · rw [hasOverrun, hite, Bool.or_eq_false_iff] at ho
      obtain ⟨hsta, hst, hc⟩ := hs.offset_le hori ha
      rw [collect_succ hite]
      refine ⟨hsta, hst, ?_⟩
      rw [hc]
      -- behind the end of the text nothing is collected, so `Ahead` need not hold there
      by_cases hk : t.kind = .eof
      · rw [(hs.done h hk).collect_eq]
        trivial
      · exact ih (hs.running h hk) (hs.origin_eq.trans hori) (hs.within hin)
          (hs.ahead (hs.within hin) hc hk ho.1) ho.2
    · rw [collect, hite]
      trivial

/-- The tokens of a text stand one behind the other, unless one overruns the place behind the body of
a heredoc that waits. -/
theorem inOrder_tokens (src : Bytes) (h : (ofBytes src none).hasOverrun (ofBytes src none).bound = false) :
    Token.InOrder 0 (ofBytes src none).tokens.1 :=
  inOrder_collect _ (running_ofBytes src none) rfl (Cursor.In.start src) nofun h

/-- A literal behind a heredoc's opener ends in the body: its end does not count as overrun, and the line
end behind it leads behind the body. -/
theorem inOrder_tokens_literal_in_body :
    ((ofString "<<A+%q(\n)\nA\n").hasOverrun (ofString "<<A+%q(\n)\nA\n").bound = false) ∧
      Token.InOrder 0 (ofString "<<A+%q(\n)\nA\n").tokens.1 := by
  have hbytes : utf8 "<<A+%q(\n)\nA\n" = [60, 60, 65, 43, 37, 113, 40, 10, 41, 10, 65, 10] := by decide
  have h : (ofString "<<A+%q(\n)\nA\n").hasOverrun (ofString "<<A+%q(\n)\nA\n").bound = false := by
    rw [ofString, hbytes]
    cbv
  exact ⟨h, inOrder_tokens _ h⟩

/-- A literal ends behind the body: the line end behind the literal leads back, and the literal's closing
bracket is read once more as a token. -/
theorem heredoc_overrun_out_of_order : ¬Token.InOrder 0 (ofString "<<A+%q(\nA\n)\n").tokens.1 := by
  have hbytes : utf8 "<<A+%q(\nA\n)\n" = [60, 60, 65, 43, 37, 113, 40, 10, 65, 10, 41, 10] := by decide
  have h : decide (Token.InOrder 0 (ofString "<<A+%q(\nA\n)\n").tokens.1) = false := by
    rw [ofString, hbytes]
    cbv
  exact of_decide_eq_false h

end Lexer

end Garnet
