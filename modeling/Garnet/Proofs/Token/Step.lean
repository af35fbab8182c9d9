import Garnet.Proofs.Token.Motion

/-!
# One step of the stream

The gap before a token is a path (`Gap.Path`), and behind it stands a line end, the end of the text, or a token
that is written out (`Lexer.Scanned`). A path moves forwards, except where a line end leads to the place behind a
heredoc's body; that place is used up then.

While a heredoc waits, a path keeps to its line until the line ends. A comment over several lines and `__END__`
would leave it too, but they stand at its start, where no path is then unless a token ended there.
-/

namespace Garnet

variable {c : Cursor}

/-- `d` is a place at or behind `c` on the same line. -/
def Cursor.SameLine (c d : Cursor) : Prop := ∃ n, d = c.skip n ∧ 10 ∉ c.rest.take n

lemma Cursor.SameLine.bump {b : Byte} {rest : Bytes} (h : c.rest = b :: rest) (hb : b ≠ 10) :
    c.SameLine c.bump := by
  refine ⟨1, c.bump_eq_skip, ?_⟩
  rw [h]
  simpa using hb.symm

lemma Cursor.SameLine.trans {d e : Cursor} (h : c.SameLine d) (h' : d.SameLine e) : c.SameLine e := by
  obtain ⟨m, rfl, hm⟩ := h
  obtain ⟨n, rfl, hn⟩ := h'
  refine ⟨m + n, c.skip_skip m n, ?_⟩
  rw [List.take_add, List.mem_append]
  exact not_or.mpr ⟨hm, hn⟩

lemma Cursor.sameLine_skipWhile (c : Cursor) : c.SameLine (c.skipWhile (· != 10)) := by
  refine ⟨_, rfl, ?_⟩
  have hrun : c.rest.take (c.run (· != 10)).length = c.run (· != 10) :=
    List.prefix_iff_eq_take.mp (List.takeWhile_prefix _) ▸ rfl
  rw [hrun]
  exact c.line_free

/-! ### The gap before a token -/

/-- What reading over the gap that starts at `c` can do. -/
inductive Gap.Path : Cursor → Option Cursor → Gap → Prop
  /-- The gap ends at or behind `c`, with a token or in an open comment. -/
  | stop {c d : Cursor} {resume space} {stop : GapEnd} (hleads : c.Leads d)
      (hstop : ∀ first, stop ≠ .lineEnd first) (hhere : 1 < c.pos.column → d = c) :
      Path c resume ⟨d, resume, space, stop⟩
  /-- Reading goes on at or behind `c`. -/
  | move {c d : Cursor} {resume : Option Cursor} {gap} (hleads : c.Leads d)
      (hline : resume.isSome → 1 < c.pos.column → c.SameLine d) (h : Path d resume gap) :
      Path c resume gap
  /-- A line end leads behind the body of a heredoc. -/
  | jump {c place gap} (h : Path place none gap) : Path c (some place) gap
  /-- A line end is the token. -/
  | lineEnd {c : Cursor} {resume : Option Cursor} {space b} (hpeek : c.peek = some b) :
      Path c resume ⟨resume.getD c.bump, none, space, .lineEnd c.pos⟩

lemma Gap.Path.here {resume : Option Cursor} {space : Bool} : Path c resume ⟨c, resume, space, .token⟩ :=
  .stop (.refl c) nofun fun _ => rfl

lemma Gap.path_read (preceding : Preceding) (c : Cursor) (resume : Option Cursor) (space : Bool) :
    Path c resume (read preceding c resume space) := by
  have hbla {c : Cursor} {b : Byte} {rest : Bytes} {resume : Option Cursor} {gap : Gap}
      (hr : c.rest = b :: rest) (hb : b ≠ 10) (h : Path c.bump resume gap) : Path c resume gap :=
    .move (.bump c) (fun _ _ => .bump hr hb) h
  -- block comments and `__END__` stand at the start of a line, where nothing is said about staying on it
  have ha {c : Cursor} {p : Bool} (h : (c.pos.column == 1 && p) = true) : ¬1 < c.pos.column := by
    rw [Bool.and_eq_true, beq_iff_eq] at h
    omega
  fun_induction read preceding c resume space with
  | case1 => exact .here
  | case2 c resume space b rest hr hb ih
  | case3 c resume space b rest hr hb ih
  | case4 c resume space b rest hr hb ih =>
    exact hbla hr (by rintro rfl; exact absurd hb (by decide)) ih
  -- a line end behind a backslash: with a heredoc waiting it leads behind the body
  | case5 c space b rest hr hb hline back ih => exact .jump ih
  | case6 c space b rest hr hb hline ih => exact .move ((Cursor.Leads.bump c).trans (.skip _ 1)) nofun ih
  | case7 => exact .here
  | case8 c resume space b rest hr hb ih =>
    have hbu : c.SameLine c.bump := .bump hr (by rintro rfl; exact absurd hb (by decide))
    exact .move ((Cursor.Leads.bump c).trans (.skip _ _))
      (fun _ _ => hbu.trans (Cursor.sameLine_skipWhile _)) ih
  | case9 c resume space b rest hr hb hc n hn ih =>
    exact .move ((Cursor.Leads.bump c).trans (.skip _ _)) (fun _ h => absurd h (ha hc)) ih
  | case10 c resume space b rest hr hb hc ho =>
    exact .stop (.skip c _) nofun fun h => absurd h (ha hc)
  | case11 => exact .here
  | case12 c resume space b rest hr hb hend =>
    rw [Bool.and_assoc] at hend
    exact .stop ⟨List.nil_suffix, rfl, fun h => absurd rfl h⟩ nofun fun h => absurd h (ha hend)
  | case13 => exact .here
  | case14 c space b rest hr hb back next hgo ih => exact .jump ih
  | case15 c space b rest hr hb next hgo ih => exact .move (.bump c) nofun ih
  | case16 c resume space b rest hr hb next hgo =>
    exact .lineEnd (by rw [Cursor.peek, hr]; rfl)
  | case17 => exact .here

/-! ### The token behind the gap -/

namespace Lexer

def behind (l : Lexer) (gap : Gap) : Lexer := { l with cursor := gap.cursor, resume := gap.resume }

/-- The reading that is left to be done behind a gap. -/
def tokenBehind (gap : Gap) : Scan Token := match gap.stop with
  | .openComment first => Scan.fail .unterminatedComment first
  | .lineEnd first =>
    return { kind := .newline, span := ⟨first, gap.cursor.pos⟩, spaceBefore := gap.space }
  | .token =>
    match gap.cursor.peek with
    | none => do
      modify fun l => { l with finished := true }
      return { kind := .eof, span := .point gap.cursor.pos, spaceBefore := gap.space }
    | some b => do
      let kind ← kind b gap.space gap.cursor.pos
      let c := (← get).cursor
      return ⟨kind, ⟨gap.cursor.pos, c.pos⟩, gap.space, isGap c.peek⟩

lemma scan_eq (l : Lexer) : scan l = tokenBehind (.read l.preceding l.cursor l.resume false)
      (l.behind (.read l.preceding l.cursor l.resume false)) := rfl

/-- What reading one token can do, in the text's own positions. -/
inductive Scanned (l : Lexer) : Token → Lexer → Prop
  | lineEnd {gap : Gap} {first : Pos} (hgap : Gap.Path l.cursor l.resume gap)
      (hstop : gap.stop = .lineEnd first) :
      Scanned l { kind := .newline, span := ⟨first, gap.cursor.pos⟩, spaceBefore := gap.space } (l.behind gap)
  | eof {gap : Gap} (hgap : Gap.Path l.cursor l.resume gap) (hstop : gap.stop = .token) :
      Scanned l { kind := .eof, span := .point gap.cursor.pos, spaceBefore := gap.space }
        { l.behind gap with finished := true }
  | token {gap : Gap} {b : Byte} {t : Token} {l' : Lexer} (hgap : Gap.Path l.cursor l.resume gap)
      (hstop : gap.stop = .token) (hpeek : gap.cursor.peek = some b) (hkind : t.kind.Starts (l.behind gap))
      (hspan : t.span = ⟨gap.cursor.pos, l'.cursor.pos⟩) (hafter : (l.behind gap).After l') :
      Scanned l t l'

/-- A token is read behind a gap. A fault arises there too, at the cursor or when more was read. -/
lemma scan_spec (l : Lexer) : match scan l with
    | .ok t l' => l.Scanned t l'
    | .error _ l' => ∃ gap, Gap.Path l.cursor l.resume gap ∧ (l.behind gap).Moved l' := by
  have hgap := Gap.path_read l.preceding l.cursor l.resume false
  rw [scan_eq]
  generalize Gap.read l.preceding l.cursor l.resume false = gap at hgap
  cases hstop : gap.stop with
  | openComment first =>
    rw [tokenBehind, hstop]
    exact ⟨gap, hgap, .inl ⟨0, rfl⟩⟩
  | lineEnd first =>
    rw [tokenBehind, hstop]
    exact .lineEnd hgap hstop
  | token =>
    cases hpeek : gap.cursor.peek with
    | none =>
      rw [tokenBehind, hstop, hpeek]
      exact .eof hgap hstop
    | some b =>
      have ht := takes_kind (l := l.behind gap) hpeek gap.space gap.cursor.pos
      rw [tokenBehind, hstop, hpeek]
      split <;> rename_i h
      · obtain ⟨kind, l₁, hkind, h⟩ := bind_eq_ok.mp h
        cases h
        obtain ⟨hs, hafter⟩ := ht.ok hkind
        exact .token hgap hstop hpeek hs rfl hafter
      · rcases bind_eq_error.mp h with hkind | ⟨kind, l₁, -, h⟩
        · exact ⟨gap, hgap, ht.error hkind⟩
        · cases h

variable {l l' : Lexer} {t : Token} {e : LexError}

lemma Moved.pushed_eq (h : l.Moved l') : l'.pushed = l.pushed := by
  rcases h with ⟨n, rfl⟩ | ⟨n, first, place, -, -, -, rfl⟩ <;> rfl

lemma Moved.origin_eq (h : l.Moved l') : l'.origin = l.origin := by
  rcases h with ⟨n, rfl⟩ | ⟨n, first, place, -, -, -, rfl⟩ <;> rfl

lemma Moved.finished_eq (h : l.Moved l') : l'.finished = l.finished := by
  rcases h with ⟨n, rfl⟩ | ⟨n, first, place, -, -, -, rfl⟩ <;> rfl

namespace Scanned

lemma pushed_eq (h : l.Scanned t l') : l'.pushed = l.pushed := by
  cases h with
  | lineEnd | eof => rfl
  | token hgap hstop hpeek hkind hspan hafter => exact hafter.moved.pushed_eq

lemma origin_eq (h : l.Scanned t l') : l'.origin = l.origin := by
  cases h with
  | lineEnd | eof => rfl
  | token hgap hstop hpeek hkind hspan hafter => exact hafter.moved.origin_eq

lemma finished_eq (h : l.Scanned t l') : l'.finished = (t.kind == .eof || l.finished) := by
  cases h with
  | lineEnd | eof => rfl
  | token hgap hstop hpeek hkind hspan hafter =>
    have hne : t.kind ≠ .eof := by
      intro heof
      have hw := hkind.isWritten
      rw [heof] at hw
      cases hw
    rw [hafter.moved.finished_eq, beq_eq_false_iff_ne.mpr hne]
    rfl

end Scanned

/-! ### The stream -/

/-- What one element of the stream does: the token is given in the positions of the file around the
text, and what it means for the next one is kept. -/
inductive Step (l : Lexer) : Token → Lexer → Prop
  | mk {t : Token} {l₁ : Lexer} (h : l.Scanned t l₁) :
      Step l { t with span := l.origin.elim t.span t.span.relocate } { l₁ with
          preceding := .of t.kind
          lastSpan := l.origin.elim t.span t.span.relocate }

lemma Step.pushed_eq (h : l.Step t l') : l'.pushed = l.pushed := by
  cases h with
  | mk hs => exact hs.pushed_eq

lemma Step.origin_eq (h : l.Step t l') : l'.origin = l.origin := by
  cases h with
  | mk hs => exact hs.origin_eq

lemma step_of_fresh (h : fresh l = .ok t l') : l.Step t l' := by
  have hs := scan_spec l
  rw [fresh] at h
  cases hsc : scan l with
  | ok token l₁ =>
    rw [hsc] at h hs
    cases h
    exact hs.origin_eq ▸ Step.mk hs
  | error fault l₁ =>
    rw [hsc] at h
    cases h

lemma moved_of_fresh (h : fresh l = .error e l') :
    ∃ gap, Gap.Path l.cursor l.resume gap ∧ (l.behind gap).Moved l' := by
  have hs := scan_spec l
  rw [fresh] at h
  cases hsc : scan l with
  | ok token l₁ =>
    rw [hsc] at h
    cases h
  | error fault l₁ =>
    rw [hsc] at h hs
    cases h
    exact hs

/-- The stream goes on, and no token was handed back. -/
structure Running (l : Lexer) : Prop where
  pushed : l.pushed = none
  finished : l.finished = false

/-- The stream is at its end. -/
structure Done (l : Lexer) : Prop where
  pushed : l.pushed = none
  finished : l.finished = true

lemma running_ofBytes (src : Bytes) (origin : Option Pos) : (ofBytes src origin).Running := ⟨rfl, rfl⟩

lemma Done.iterate_eq (h : l.Done) : l.iterate = (none, l) := by
  rw [iterate, h.finished, h.pushed]
  rfl

lemma Running.iterate_of_next (h : l.Running) (hn : next l = .ok t l') :
    l.iterate = (some (.ok t), l') := by
  rw [iterate, h.finished, Bool.false_and, if_neg Bool.false_ne_true, hn]

lemma Running.iterate_cases (h : l.Running) : (∃ t l', l.iterate = (some (.ok t), l') ∧ l.Step t l') ∨
      ∃ e l', l.iterate = (some (.error e), l') ∧ l'.Done := by
  rw [iterate, h.finished, Bool.false_and, next, h.pushed]
  cases hf : fresh l with
  | ok t l₁ => exact .inl ⟨_, _, rfl, step_of_fresh hf⟩
  | error e l₁ =>
    obtain ⟨gap, -, hm⟩ := moved_of_fresh hf
    exact .inr ⟨_, _, rfl, hm.pushed_eq.trans h.pushed, rfl⟩

lemma Step.running (h : l.Running) (hst : l.Step t l') (hkind : t.kind ≠ .eof) : l'.Running := by
  cases hst with
  | mk hs =>
    refine ⟨hs.pushed_eq.trans h.pushed, hs.finished_eq.trans ?_⟩
    rw [h.finished, beq_eq_false_iff_ne.mpr hkind]
    rfl

lemma Step.done (h : l.Running) (hst : l.Step t l') (hkind : t.kind = .eof) : l'.Done := by
  cases hst with
  | mk hs =>
    refine ⟨hs.pushed_eq.trans h.pushed, hs.finished_eq.trans ?_⟩
    rw [beq_iff_eq.mpr hkind]
    rfl

/-- The lexer when `k` elements of the stream are read. -/
def after : Nat → Lexer → Lexer
  | 0, l => l
  | k + 1, l => after k l.iterate.2

/-- The element of the stream at index `k`. -/
def answer (l : Lexer) (k : Nat) : Option (Except LexError Token) := (l.after k).iterate.1

end Lexer

end Garnet
