import Garnet.Proofs.Token.Step

/-!
# The stream of tokens ends

The bytes left to be read do not bound the stream: behind the body of a heredoc reading goes on at a place that
can lie before the cursor. What falls with every token is a weight of two digits. The high one is what is left
behind the place where the next return leads, or behind the cursor if no heredoc waits; the low one is what is
left behind the cursor while one waits.

* A token that is written out lowers the digit of the cursor.
* A line end that leads behind a body keeps the high digit and gives up the low one.
* A heredoc lowers the high digit, since its place lies behind the line that it is opened on, or behind
  the body before it on that line.

So a text of `n` bytes has at most `n * (n + 2)` tokens before its end, and the fuel of
`Lexer.tokens` lets it collect all of them (`Lexer.stream_ends`).
-/

namespace Garnet

open Cursor

/-! ### The places of a lexer lie in its text -/

/-- The cursor and the place where reading goes on behind the next line end lie in the text `src`, the
latter at the start of a line. -/
structure Cursor.In (src : Bytes) (c : Cursor) (resume : Option Cursor) : Prop where
  cursor : (start src).Leads c
  resume : ∀ place, resume = some place → (start src).Crosses place

namespace Cursor.In

variable {src : Bytes} {c d : Cursor} {resume : Option Cursor}

lemma start (src : Bytes) : Cursor.In src (.start src) none := ⟨.refl _, nofun⟩

lemma length_le (h : Cursor.In src c resume) : c.rest.length ≤ src.length := h.cursor.length_le

lemma leads (h : Cursor.In src c resume) (hl : c.Leads d) : Cursor.In src d resume :=
  ⟨h.cursor.trans hl, h.resume⟩

lemma jump {place : Cursor} (h : Cursor.In src c (some place)) : Cursor.In src place none :=
  ⟨(h.resume place rfl).toLeads, nofun⟩

end Cursor.In

lemma Gap.Path.within {src : Bytes} {c : Cursor} {resume : Option Cursor} {gap : Gap}
    (h : Gap.Path c resume gap) (hin : Cursor.In src c resume) :
    Cursor.In src gap.cursor gap.resume := by
  induction h with
  | stop hl => exact hin.leads hl
  | move hl hli h ih => exact ih (hin.leads hl)
  | jump h ih => exact ih hin.jump
  | @lineEnd c resume space b hp =>
    cases resume with
    | none => exact hin.leads (.bump c)
    | some place => exact hin.jump

namespace Lexer

variable {first : Cursor} {src : Bytes} {l l' : Lexer} {t : Token}

/-- The places of the lexer lie in the text `src`. -/
abbrev In (src : Bytes) (l : Lexer) : Prop := Cursor.In src l.cursor l.resume

lemma leads_of_bodyStart (h : l.bodyStart? = some first) :
    l.resume = some first ∨ l.resume = none ∧ l.cursor.Crosses first := by
  unfold bodyStart? at h
  split at h
  · rename_i hr
    exact .inl (hr.trans h)
  · rename_i hr
    dsimp only at h
    split at h
    · rename_i hl
      cases h
      cases hp : l.cursor.peek with
      | some b => exact .inr ⟨hr, Cursor.crosses_line hp⟩
      | none =>
        rw [Cursor.peek, List.head?_eq_none_iff] at hp
        rw [hp] at hl
        exact absurd hl (Nat.not_lt_zero _)
    · cases h

lemma In.passed (h : l.In src) (n : Nat) : (l.passed n).In src := h.leads (.skip _ n)

lemma In.crosses_bodyStart (h : l.In src) (hf : l.bodyStart? = some first) :
    (start src).Crosses first := by
  rcases leads_of_bodyStart hf with hr | ⟨-, hc⟩
  · exact h.resume first hr
  · exact h.cursor.trans_crosses hc

lemma In.moved (h : l.In src) (hm : l.Moved l') : l'.In src := by
  rcases hm with ⟨n, rfl⟩ | ⟨n, first, place, -, hf, hp, rfl⟩
  · exact h.passed n
  · refine ⟨(h.passed n).cursor, ?_⟩
    rintro _ ⟨⟩
    exact ((h.passed n).crosses_bodyStart hf).toLeads.trans_crosses hp

lemma Scanned.within (hs : l.Scanned t l') (h : l.In src) : l'.In src := by
  cases hs with
  | lineEnd hgap | eof hgap => exact hgap.within h
  | token hgap hst hp hk hsp ha => exact In.moved (hgap.within h) ha.moved

lemma Step.within (hs : l.Step t l') (h : l.In src) : l'.In src := by
  cases hs with
  | mk hsc => exact hsc.within h

end Lexer

/-! ### The weight -/

/-- What is left to be read, in two digits to the base `base`. -/
def Cursor.weight (base : Nat) (c : Cursor) : Option Cursor → Nat
  | none => c.rest.length * base
  | some place => place.rest.length * base + (c.rest.length + 1)

lemma Cursor.Leads.weight_le {c d : Cursor} (h : c.Leads d) (base : Nat) (resume : Option Cursor) :
    d.weight base resume ≤ c.weight base resume := by
  have hl := h.length_le
  cases resume with
  | none => exact Nat.mul_le_mul_right base hl
  | some place =>
    simp only [weight]
    omega

lemma Cursor.weight_jump_lt (base : Nat) (c place : Cursor) :
    place.weight base none < c.weight base (some place) := by
  simp only [weight]
  omega

namespace Gap.Path

variable {c : Cursor} {resume : Option Cursor} {gap : Gap} {base : Nat}

lemma weight_le (h : Gap.Path c resume gap) (base : Nat) :
    gap.cursor.weight base gap.resume ≤ c.weight base resume := by
  induction h with
  | stop hl => exact hl.weight_le base _
  | move hl hli h ih => exact Nat.le_trans ih (hl.weight_le base _)
  | jump h ih => exact Nat.le_trans ih (Nat.le_of_lt (weight_jump_lt base _ _))
  | @lineEnd c resume space b hp =>
    cases resume with
    | none => exact (Cursor.Leads.bump c).weight_le base none
    | some place => exact Nat.le_of_lt (weight_jump_lt base c place)

lemma weight_lt (h : Gap.Path c resume gap) (hb : 0 < base) {first : Pos}
    (hs : gap.stop = .lineEnd first) : gap.cursor.weight base gap.resume < c.weight base resume := by
  induction h with
  | stop hl hne => exact absurd hs (hne first)
  | move hl hli h ih => exact Nat.lt_of_lt_of_le (ih hs) (hl.weight_le base _)
  | jump h ih => exact Nat.lt_trans (ih hs) (weight_jump_lt base _ _)
  | @lineEnd c resume space b hp =>
    cases resume with
    | none =>
      have hlen : c.bump.rest.length < c.rest.length :=
        c.bump_eq_skip ▸ length_skip_lt hp Nat.one_pos
      exact Nat.mul_lt_mul_of_pos_right hlen hb
    | some place => exact weight_jump_lt base c place

end Gap.Path

namespace Lexer

variable {src : Bytes} {l l' : Lexer} {t : Token}

/-- The weight of what a lexer for the text `src` has left to read. -/
def weight (src : Bytes) (l : Lexer) : Nat := l.cursor.weight (src.length + 2) l.resume

lemma digits_lt {high high' low base : Nat} (hh : high' < high) (hlow : low < base) :
    high' * base + low < high * base := by
  have hmul : (high' + 1) * base ≤ high * base := Nat.mul_le_mul_right base hh
  rw [Nat.succ_mul] at hmul
  omega

lemma After.weight_lt {b : Byte} (h : l.After l') (hin : l.In src) (hpe : l.cursor.peek = some b) :
    l'.weight src < l.weight src := by
  rcases h with ⟨n, hn, rfl⟩ | ⟨n, first, place, hn, hf, hp, rfl⟩
  · have hl := Cursor.length_skip_lt hpe hn
    unfold weight passed
    cases l.resume with
    | none => exact Nat.mul_lt_mul_of_pos_right hl (Nat.succ_pos _)
    | some place =>
      simp only [Cursor.weight]
      omega
  -- an opener: the place behind the body has less text left than where the body starts, so the higher
  -- digit of the weight goes down, and the lower one stays below the base
  · have hlow : (l.cursor.skip n).rest.length + 1 < src.length + 2 := by
      have hl := (hin.passed n).length_le
      simp only [passed] at hl
      omega
    have hs := (Cursor.Leads.skip l.cursor n).length_le
    rcases leads_of_bodyStart hf with hr | ⟨hr, hc⟩
    · have hh := digits_lt hp.length_lt hlow
      have hr : l.resume = some first := hr
      simp only [weight, passed, hr, Cursor.weight]
      omega
    · have hh : place.rest.length < l.cursor.rest.length :=
        Nat.lt_trans hp.length_lt (Nat.lt_of_lt_of_le hc.length_lt hs)
      have hr : l.resume = none := hr
      simp only [weight, hr]
      exact digits_lt hh hlow

lemma Step.weight_lt (h : l.Step t l') (hin : l.In src) (hk : t.kind ≠ .eof) :
    l'.weight src < l.weight src := by
  cases h with
  | mk hsc =>
    cases hsc with
    | lineEnd hgap hs => exact hgap.weight_lt (Nat.succ_pos _) hs
    | eof hgap => exact absurd rfl hk
    | token hgap hs hp hw hsp ha =>
      exact Nat.lt_of_lt_of_le (ha.weight_lt (hgap.within hin) hp) (hgap.weight_le _)

/-! ### The end of the stream -/

/-- The elements of a stream of which the tokens and the fault are known. -/
def elements (stream : List Token × Option LexError) : List (Except LexError Token) :=
  stream.1.map .ok ++ stream.2.toList.map .error

/-- The stream has `n` tokens, then the end of the text or a fault, and nothing behind it. -/
structure EndsAt (l : Lexer) (n : Nat) : Prop where
  tokens : ∀ k < n, ∃ t, l.answer k = some (.ok t) ∧ t.kind ≠ .eof
  last : (∃ t, l.answer n = some (.ok t) ∧ t.kind = .eof) ∨ ∃ e, l.answer n = some (.error e)
  silent : ∀ k, n < k → l.answer k = none
  /-- More fuel than tokens collects the whole stream. -/
  collected : ∀ fuel, n < fuel → ∀ k, l.answer k = (elements (collect fuel l))[k]?

lemma Done.answer_eq (h : l.Done) (k : Nat) : l.answer k = none := by
  unfold answer
  induction k with
  | zero => rw [after, h.iterate_eq]
  | succ k ih => rwa [after, h.iterate_eq]

lemma answer_succ (k : Nat) : l.answer (k + 1) = l.iterate.2.answer k := rfl

lemma Done.collect_eq (h : l.Done) (fuel : Nat) : collect fuel l = ([], none) := by
  cases fuel with
  | zero => rfl
  | succ fuel => rw [collect, h.iterate_eq]

lemma collect_succ (hite : l.iterate = (some (.ok t), l')) (fuel : Nat) :
    collect (fuel + 1) l = (t :: (collect fuel l').1, (collect fuel l').2) := by
  rw [collect, hite]

lemma elements_collect (hite : l.iterate = (some (.ok t), l')) (fuel : Nat) :
    elements (collect (fuel + 1) l) = .ok t :: elements (collect fuel l') := by
  rw [collect_succ hite]
  rfl

lemma EndsAt.of_done {a : Except LexError Token} (hite : l.iterate = (some a, l')) (hd : l'.Done)
    (hl : (∃ t, a = .ok t ∧ t.kind = .eof) ∨ ∃ e, a = .error e) : l.EndsAt 0 := by
  have hf : l.answer 0 = some a := congrArg Prod.fst hite
  have hn (k : Nat) : l.answer (k + 1) = none := by
    rw [answer_succ, hite]
    exact hd.answer_eq k
  have hc (fuel : Nat) : elements (collect (fuel + 1) l) = [a] := by
    rcases hl with ⟨t, rfl, -⟩ | ⟨e, rfl⟩
    · rw [elements_collect hite, hd.collect_eq]
      rfl
    · rw [collect, hite]
      rfl
  refine ⟨nofun, ?_, fun k hk => ?_, fun fuel hfu k => ?_⟩
  · rcases hl with ⟨t, rfl, ht⟩ | ⟨e, rfl⟩
    · exact .inl ⟨t, hf, ht⟩
    · exact .inr ⟨e, hf⟩
  · cases k with
    | zero => exact absurd hk (Nat.lt_irrefl 0)
    | succ k => exact hn k
  · cases fuel with
    | zero => exact absurd hfu (Nat.lt_irrefl 0)
    | succ fuel =>
      rw [hc]
      cases k with
      | zero => exact hf
      | succ k => exact hn k

lemma EndsAt.succ {n : Nat} (hite : l.iterate = (some (.ok t), l')) (hki : t.kind ≠ .eof)
    (h : l'.EndsAt n) : l.EndsAt (n + 1) := by
  have hf : l.answer 0 = some (.ok t) := congrArg Prod.fst hite
  have hn (k : Nat) : l.answer (k + 1) = l'.answer k := by rw [answer_succ, hite]
  refine ⟨fun k hk => ?_, hn n ▸ h.last, fun k hk => ?_, fun fuel hfu k => ?_⟩
  · cases k with
    | zero => exact ⟨t, hf, hki⟩
    | succ k => exact hn k ▸ h.tokens k (Nat.lt_of_succ_lt_succ hk)
  · cases k with
    | zero => exact absurd hk (Nat.not_lt_zero _)
    | succ k => exact hn k ▸ h.silent k (Nat.lt_of_succ_lt_succ hk)
  · cases fuel with
    | zero => exact absurd hfu (Nat.not_lt_zero _)
    | succ fuel =>
      rw [elements_collect hite]
      cases k with
      | zero => exact hf
      | succ k => exact (hn k).trans (h.collected fuel (Nat.lt_of_succ_lt_succ hfu) k)

lemma Running.endsAt (h : l.Running) (hin : l.In src) : ∃ n ≤ l.weight src, l.EndsAt n := by
  induction hw : l.weight src using Nat.strongRecOn generalizing l with
  | ind w ih =>
    subst hw
    rcases h.iterate_cases with ⟨t, l', hite, hs⟩ | ⟨e, l', hite, hd⟩
    · by_cases hk : t.kind = .eof
      · exact ⟨0, Nat.zero_le _, .of_done hite (hs.done h hk) (.inl ⟨t, rfl, hk⟩)⟩
      · have hlt := hs.weight_lt hin hk
        obtain ⟨n, hn, hends⟩ := ih _ hlt (hs.running h hk) (hs.within hin) rfl
        exact ⟨n + 1, Nat.lt_of_le_of_lt hn hlt, hends.succ hite hk⟩
    · exact ⟨0, Nat.zero_le _, .of_done hite hd (.inr ⟨e, rfl⟩)⟩

/-- Every text, well-formed or not, has a finite stream: tokens, then its end or a fault, then nothing.
There are fewer tokens than the bound on the fuel of `Lexer.tokens` allows. -/
theorem stream_ends (origin : Option Pos) :
    ∃ n < (ofBytes src origin).bound, (ofBytes src origin).EndsAt n := by
  obtain ⟨n, hn, hends⟩ := (running_ofBytes src origin).endsAt (Cursor.In.start src)
  refine ⟨n, Nat.lt_of_le_of_lt hn ?_, hends⟩
  -- at the start no heredoc waits, so the weight is its higher digit alone
  change src.length * (src.length + 2) < (src.length + 2) * (src.length + 2)
  exact Nat.mul_lt_mul_of_pos_right (by omega) (Nat.succ_pos _)

end Lexer

end Garnet
