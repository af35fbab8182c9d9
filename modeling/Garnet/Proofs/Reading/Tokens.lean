import Garnet.Proofs.Token.Step
import Garnet.Proofs.Tree.Formed
import Garnet.Reading.Rules

/-!
# Reading tokens

What only reads, skips or hands back tokens takes no identity. A token that is handed back was read
before, so each constant among the tokens starts with a capital letter.
-/

namespace Garnet

/-! ### Constants among tokens -/

def TokenKind.isProper : TokenKind → Bool
  | .const name => VarName.isConstant name
  | _ => true

lemma TokenKind.Starts.isProper {l : Lexer} {kind : TokenKind} (h : kind.Starts l) : kind.isProper := by
  rcases h with (hs | ⟨_, _, _, rfl, -⟩) | ⟨⟨_, _, _, _, _, rfl, -⟩⟩
  · cases kind with
    | const name => exact hs
    | _ => rfl
  · rfl
  · rfl

lemma Lexer.Step.isProper {l l' : Lexer} {token : Token} (h : l.Step token l') : token.kind.isProper := by
  cases h with
  | mk hs =>
    cases hs with
    | lineEnd | eof => rfl
    | token _ _ _ hk => exact hk.isProper

/-- What the next token is that was handed back, if there is one. -/
def Lexer.HandedProper (l : Lexer) : Prop := ∀ t ∈ l.pushed, t.kind.isProper

theorem Lexer.isProper_of_next {l l' : Lexer} {token : Token} (h : next l = .ok token l')
    (hl : l.HandedProper) : token.kind.isProper ∧ l'.HandedProper := by
  rw [next] at h
  split at h
  · rename_i ht
    cases h
    exact ⟨hl token ht, by simp [HandedProper]⟩
  · rename_i hn
    have hs := step_of_fresh h
    refine ⟨hs.isProper, fun t ht => ?_⟩
    rw [hs.pushed_eq, hn] at ht
    cases ht

instance : Counter ParserState := ⟨ParserState.nextId, fun s => s.lexer.HandedProper⟩

instance : LawfulFresh ParseError ParserState := ⟨fun _ => ⟨_, rfl, rfl, id⟩⟩

section

variable {ε σ α β : Type} [Counter σ]

instance {a : α} : Quiet (pure a : EStateM ε σ α) where
  next_eq s b s' h hs := by
    cases h
    exact ⟨hs, rfl⟩

instance {e : ε} : Quiet (throw e : EStateM ε σ α) := ⟨fun _ _ _ h _ => absurd h throw_ne_ok⟩

instance Quiet.bind {p : EStateM ε σ α} {k : α → EStateM ε σ β} [hp : Quiet p] [hk : ∀ a, Quiet (k a)] :
    Quiet (p >>= k) where
  next_eq s b s' h hs := by
    obtain ⟨a, t, ha, hb⟩ := bind_eq_ok.mp h
    obtain ⟨ht, hn⟩ := hp.next_eq ha hs
    obtain ⟨hs', hn'⟩ := (hk a).next_eq hb ht
    exact ⟨hs', hn'.trans hn⟩

instance {c : Prop} [Decidable c] {p q : EStateM ε σ α} [Quiet p] [Quiet q] : Quiet (if c then p else q) := by
  split <;> infer_instance

instance : Quiet (get : EStateM ε σ σ) where
  next_eq s a s' h hs := by
    cases h
    exact ⟨hs, rfl⟩

lemma Quiet.modify {f : σ → σ} (h : ∀ s, Counter.next (f s) = Counter.next s)
    (hok : ∀ s, Counter.Ok s → Counter.Ok (f s)) : Quiet (modify f : EStateM ε σ PUnit) where
  next_eq s a s' hs hs' := by
    cases hs
    exact ⟨hok s hs', h s⟩

end

namespace Parse

variable {token : Token}

lemma next_spec {s s' : ParserState} (h : next s = .ok token s') (hs : s.lexer.HandedProper) :
    token.kind.isProper ∧ s'.lexer.HandedProper ∧ s'.nextId = s.nextId := by
  rw [next] at h
  split at h
  · cases h
  · rename_i l hl
    obtain ⟨hp, hh⟩ := Lexer.isProper_of_next hl hs
    cases h
    refine ⟨hp, ?_, rfl⟩
    dsimp only
    split
    · split
      · rw [Lexer.markLocal]
        split <;> exact hh
      · exact hh
    · exact hh

instance : Quiet next := ⟨fun _ _ _ h hs => (next_spec h hs).2⟩

lemma isProper_of_gives (h : Gives next token) : token.kind.isProper := by
  obtain ⟨s, s', hs, h⟩ := h
  exact (next_spec h hs).1

instance : Quiet peek := by
  refine ⟨fun s a s' h hs => ?_⟩
  rw [peek] at h
  split at h
  · cases h
  · rename_i l hl
    obtain ⟨token, t, hn, hl⟩ := bind_eq_ok.mp hl
    obtain ⟨u, t', hp, hl⟩ := bind_eq_ok.mp hl
    cases hp
    cases hl
    cases h
    refine ⟨fun t' ht => ?_, rfl⟩
    cases ht
    exact (Lexer.isProper_of_next hn hs).1

instance : Quiet peekKind := .bind

lemma quiet_pushBack (h : token.kind.isProper) : Quiet (pushBack token) := by
  refine .modify (fun _ => rfl) fun s _ t ht => ?_
  cases ht
  exact h

lemma builds_next [Counts] {β : Type} {G : Tree → Prop} {ins : List Tree} {outs : β → List Tree}
    {k : Token → Parse β} (h : ∀ token : Token, token.kind.isProper → Builds G ins (k token) outs) :
    Builds G ins (next >>= k) outs :=
  .quietOf inferInstance fun token ht => h token (isProper_of_gives ht)

instance (p : String) : Quiet (atPunct p) := .bind

instance : Quiet atTightParen := .bind

instance (p : String) : Quiet (acceptPunct p) := .bind

instance (w : String) : Quiet (acceptKeyword w) := .bind

instance {cause span} : Quiet (fail cause span : Parse α) := inferInstanceAs (Quiet (throw _))

instance {token wanted} : Quiet (unexpected token wanted : Parse α) := inferInstanceAs (Quiet (fail _ _))

instance (p : String) : Quiet (expectPunct p) := .bind

instance (w : String) : Quiet (expectKeyword w) := .bind

instance (kinds : List TokenKind) (fuel : Nat) : Quiet (skipKinds kinds fuel) := by
  induction fuel with
  | zero => exact inferInstanceAs (Quiet (pure ()))
  | succ fuel ih => exact .bind

instance (start : Span) : Quiet (since start) := .bind

instance (name : String) : Quiet (declare name) := by
  have hd (s : ParserState) :
      (s.declare name).nextId = s.nextId ∧ (s.declare name).lexer = s.lexer := by
    rw [ParserState.declare]
    split
    · split <;> exact ⟨rfl, rfl⟩
    · exact ⟨rfl, rfl⟩
  refine .modify (fun s => (hd s).1) fun s hs => ?_
  exact (congrArg Lexer.HandedProper (hd s).2).mpr hs

end Parse

namespace Rules

open Parse

instance (r : Rules) : Quiet r.skipNewlines := inferInstanceAs (Quiet (skipKinds _ _))

instance (r : Rules) : Quiet r.skipTerms := inferInstanceAs (Quiet (skipKinds _ _))

end Rules

end Garnet
