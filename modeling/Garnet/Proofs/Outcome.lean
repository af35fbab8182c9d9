import Garnet.Tree.Recursion
import Mathlib.Tactic.Lemma

/-!
# Outcomes of computations with a state

What a computation that can fail does is stated of the runs that end without a fault:
`Ensures P m Q` is a precondition, a computation and a postcondition. A sequence of computations is
taken apart by `bind_eq_ok`, and a walk that is tied together by `recurseOn` by `recurseOn_induction`.
-/

namespace Garnet

open List

section

variable {γ ε σ α β : Type}

/-! ### Runs that end without a fault -/

variable {f : α → EStateM ε σ β}

theorem bind_eq_ok {m : EStateM ε σ α} {s s' : σ} {b : β} :
    (m >>= f) s = .ok b s' ↔ ∃ a t, m s = .ok a t ∧ f a t = .ok b s' := by
  constructor
  · intro h
    change EStateM.bind m f s = .ok b s' at h
    rw [EStateM.bind] at h
    split at h
    · rename_i a t hm
      exact ⟨a, t, hm, h⟩
    · cases h
  · rintro ⟨a, t, hm, hf⟩
    change EStateM.bind m f s = .ok b s'
    rwa [EStateM.bind, hm]

lemma bind_eq_error {m : EStateM ε σ α} {s s' : σ} {e : ε} :
    (m >>= f) s = .error e s' ↔ m s = .error e s' ∨ ∃ a t, m s = .ok a t ∧ f a t = .error e s' := by
  change EStateM.bind m f s = .error e s' ↔ _
  rw [EStateM.bind]
  cases m s with
  | ok a t => simp [and_assoc]
  | error e' t => simp

lemma get_apply (s : σ) : (get : EStateM ε σ σ) s = .ok s s := rfl

lemma modifyGet_apply (g : σ → α × σ) (s : σ) :
    (modifyGet g : EStateM ε σ α) s = .ok (g s).1 (g s).2 := rfl

lemma get_bind_eq {f : σ → EStateM ε σ β} {s : σ} : (get >>= f) s = f s s := rfl

lemma modify_bind_eq {g : σ → σ} {f : PUnit → EStateM ε σ β} {s : σ} :
    (modify g >>= f) s = f ⟨⟩ (g s) := rfl

lemma pure_eq_ok {a b : α} {s s' : σ} : (pure a : EStateM ε σ α) s = .ok b s' ↔ a = b ∧ s = s' := by
  change EStateM.Result.ok a s = .ok b s' ↔ _
  simp

lemma throw_ne_ok {e : ε} {a : α} {s s' : σ} : (throw e : EStateM ε σ α) s ≠ .ok a s' := by
  intro h
  cases h

lemma foldlM_invariant {f : β → γ → EStateM ε σ β} {P : β → Prop} {cs : List γ}
    (h : ∀ b, ∀ c ∈ cs, P b → ∀ s b' s', f b c s = .ok b' s' → P b') {b b' : β} {s s' : σ} (hb : P b)
    (hrun : cs.foldlM f b s = .ok b' s') : P b' := by
  induction cs generalizing b s with
  | nil =>
    cases hrun
    exact hb
  | cons c cs ih =>
    rw [foldlM_cons] at hrun
    obtain ⟨d, t, hd, hrun⟩ := bind_eq_ok.mp hrun
    exact ih (fun b e he => h b e (mem_cons_of_mem c he)) (h b c mem_cons_self hb _ _ _ hd) hrun

lemma except_bind_eq_ok {x : Except ε α} {f : α → Except ε β} {b : β} :
    (x >>= f) = .ok b ↔ ∃ a, x = .ok a ∧ f a = .ok b := by
  cases x with
  | ok a => exact ⟨fun h => ⟨a, rfl, h⟩, fun ⟨_, ha, h⟩ => Except.ok.inj ha ▸ h⟩
  | error e => exact ⟨nofun, nofun⟩

/-- A run of `m` that starts in a state satisfying `P` and ends without a fault gives a value and a
state that satisfy `Q`. -/
def Ensures (P : σ → Prop) (m : EStateM ε σ α) (Q : α → σ → Prop) : Prop :=
  ∀ ⦃s a s'⦄, P s → m s = .ok a s' → Q a s'

namespace Ensures

variable {P R : σ → Prop} {Q : β → σ → Prop} {m : EStateM ε σ α}

lemma mono {P' : σ → Prop} {Q Q' : α → σ → Prop} (h : Ensures P m Q) (hP : ∀ s, P' s → P s)
    (hQ : ∀ a s, Q a s → Q' a s) : Ensures P' m Q' :=
  fun _ _ _ hs hm => hQ _ _ (h (hP _ hs) hm)

lemma pure {Q : α → σ → Prop} {a : α} (h : ∀ s, P s → Q a s) : Ensures P (pure a : EStateM ε σ α) Q := by
  intro s b s' hs hm
  cases hm
  exact h s hs

lemma bind {S : α → σ → Prop} {f : α → EStateM ε σ β} (hm : Ensures P m S)
    (hf : ∀ a, Ensures (S a) (f a) Q) : Ensures P (m >>= f) Q := by
  intro s b s' hs h
  obtain ⟨a, t, ha, hb⟩ := bind_eq_ok.mp h
  exact hf a (hm hs ha) hb

lemma map {S : α → σ → Prop} {f : α → β} (hm : Ensures P m S)
    (hf : ∀ a s, S a s → Q (f a) s) : Ensures P (f <$> m) Q := by
  rw [← bind_pure_comp]
  exact hm.bind fun a => Ensures.pure (hf a)

lemma throw {Q : α → σ → Prop} {e : ε} : Ensures P (throw e : EStateM ε σ α) Q :=
  fun _ _ _ _ h => absurd h throw_ne_ok

lemma ite {Q : α → σ → Prop} {c : Prop} [Decidable c] {m m' : EStateM ε σ α} (hm : Ensures P m Q)
    (hm' : Ensures P m' Q) : Ensures P (if c then m else m') Q := by
  split
  · exact hm
  · exact hm'

lemma forM {f : γ → EStateM ε σ PUnit} {as : List γ} (h : ∀ a ∈ as, Ensures P (f a) fun _ => P) :
    Ensures P (as.forM f) fun _ => P := by
  induction as with
  | nil => exact Ensures.pure fun _ hs => hs
  | cons a as ih => exact (h a mem_cons_self).bind fun _ => ih fun b hb => h b (mem_cons_of_mem a hb)

lemma mapM {f : γ → EStateM ε σ α} {as : List γ} (h : ∀ a ∈ as, Ensures P (f a) fun _ => P) :
    Ensures P (as.mapM f) fun _ => P := by
  induction as with
  | nil => exact Ensures.pure fun _ hs => hs
  | cons a as ih =>
    rw [mapM_cons]
    refine (h a mem_cons_self).bind fun _ => ?_
    refine (ih fun b hb => h b (mem_cons_of_mem a hb)).bind fun _ => ?_
    exact Ensures.pure fun _ hs => hs

end Ensures

end

/-! ### Walks -/

section

variable {m : Type → Type} [Monad m] {α β : Type}

lemma mapM_congr [LawfulMonad m] {f g : α → m β} {as : List α} (h : ∀ a ∈ as, f a = g a) :
    as.mapM f = as.mapM g := by
  induction as with
  | nil => rfl
  | cons a as ih => rw [mapM_cons, mapM_cons, h a mem_cons_self, ih fun b hb => h b (mem_cons_of_mem a hb)]

lemma forM_congr {f g : α → m PUnit} {as : List α} (h : ∀ a ∈ as, f a = g a) : as.forM f = as.forM g := by
  induction as with
  | nil => rfl
  | cons a as ih =>
    change (do f a; as.forM f) = do g a; as.forM g
    rw [h a mem_cons_self, ih fun b hb => h b (mem_cons_of_mem a hb)]

variable [Inhabited β] {step : (α → m β) → α → m β}

/-- What a rule makes of any treatment of smaller things that satisfies `C` satisfies `C`, so the walk
does. -/
theorem recurseOn_induction {measure : α → Nat}
    {C : α → m β → Prop} (hd : ∀ a, C a (pure default))
    (hs : ∀ rec a, (∀ b, C b (rec b)) → C a (step rec a)) (a : α) :
    C a (recurseOn measure step a) := by
  induction hn : measure a using Nat.strongRecOn generalizing a with
  | ind n ih =>
    rw [recurseOn_eq]
    refine hs _ _ fun b => ?_
    split
    · rename_i hlt
      exact ih _ (hn ▸ hlt) b rfl
    · exact hd b

/-- The same for two walks side by side, over things of the same size that are related. -/
lemma recurseOn_induction₂ {ι : Type} {measure : α → Nat}
    {R : ι → α → α → Prop} {C : ι → m β → m β → Prop}
    (hm : ∀ i a a', R i a a' → measure a = measure a')
    (hd : ∀ i, C i (pure default) (pure default))
    (hs : ∀ rec rec', (∀ i b b', R i b b' → C i (rec b) (rec' b')) →
      ∀ i a a', R i a a' → C i (step rec a) (step rec' a')) {i : ι} {a a' : α} (h : R i a a') :
    C i (recurseOn measure step a) (recurseOn measure step a') := by
  induction hn : measure a using Nat.strongRecOn generalizing i a a' with
  | ind n ih =>
    rw [recurseOn_eq, recurseOn_eq]
    refine hs _ _ (fun j b b' hb => ?_) i a a' h
    rw [← hm j b b' hb, ← hm i a a' h]
    split
    · rename_i hlt
      exact ih _ (hn ▸ hlt) hb rfl
    · exact hd j

end

end Garnet
