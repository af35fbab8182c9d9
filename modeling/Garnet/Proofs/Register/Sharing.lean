import Garnet.Proofs.Register.Coherence
import Mathlib.Data.Prod.Lex
import Mathlib.Data.String.Basic

/-!
# Registers are shared out at every moment

A trial is a course of uses of a register cache in which the stores and loads that loans ask for may fail in
any pattern. The main statement is `shared_out`.
-/

namespace Garnet

variable {α : Type} {var : String} {loan : Loan}

open List Cache

/-! ### Trials -/

/-- What the owner of a cache is asked for. -/
inductive Errand where
  | store (spill : Spill)
  | load (var : String) (reg : Reg)
deriving DecidableEq, Repr

/-- A cache with an owner whose stores and loads may fail. -/
structure Trial where
  cache : Cache
  /-- Whether the errand with a number fails. -/
  fails : Nat → Bool
  /-- The errands so far, the last one first. -/
  errands : List Errand := []
  /-- The caches so far, each with the registers that were on loan, the last one first. -/
  past : List (Cache × List Reg) := []

def Trial.send (errand : Errand) : EStateM Mishap Trial Unit := fun s =>
  if s.fails s.errands.length then .error .failed { s with errands := errand :: s.errands }
  else .ok () { s with errands := errand :: s.errands }

def Trial.start (uses : List (String × Nat)) (fails : Nat → Bool) : Trial where
  cache := .new uses
  fails

instance : Stage Use Trial where
  registers := Trial.cache
  setRegisters c s := { s with cache := c }
  spill s := Trial.send (.store s)
  reload var reg := Trial.send (.load var reg)
  exhausted := .exhausted
  act _ u s := { s with cache := (u.on s.cache).2 }
  note loans s := { s with past := (s.cache, loans) :: s.past }

/-! ### The variable that is worth least -/

namespace Cache

variable {c : Cache}

/-- How often a variable is used, and then its name. -/
def worth (c : Cache) (var : String) : ℕ ×ₗ String := toLex (c.weight var, var)

lemma isLess_iff {a b : String} : c.isLess a b ↔ c.worth a < c.worth b := by
  rw [worth, worth, Prod.Lex.toLex_lt_toLex, isLess, Bool.or_eq_true, Bool.and_eq_true,
    decide_eq_true_iff, beq_iff_eq, decide_eq_true_iff]

/-- The variables in registers that are not locked. -/
def removable (c : Cache) : List String :=
  (c.held.filter fun e => !c.locked.contains e.reg).map CachedVar.var

/-- A search that keeps the better variable ends with the best one. -/
lemma foldl_isLess (c : Cache) (vars : List String) (best : String) :
    ∃ var, vars.foldl (fun best v =>
        match best with
        | none => some v
        | some b => if c.isLess v b then some v else some b) (some best) = some var ∧
      (var = best ∨ var ∈ vars) ∧ c.worth var ≤ c.worth best ∧ ∀ v ∈ vars, c.worth var ≤ c.worth v := by
  induction vars generalizing best with
  | nil => exact ⟨best, rfl, .inl rfl, le_rfl, by simp⟩
  | cons v vars ih =>
    rw [foldl_cons]
    dsimp only
    split
    · rename_i hl
      obtain ⟨var, hf, hmem, hle, hall⟩ := ih v
      refine ⟨var, hf, .inr ?_, hle.trans (isLess_iff.mp hl).le, forall_mem_cons.mpr ⟨hle, hall⟩⟩
      rcases hmem with rfl | hmem
      · exact mem_cons_self
      · exact mem_cons_of_mem v hmem
    · rename_i hl
      obtain ⟨var, hf, hmem, hle, hall⟩ := ih best
      have hb : c.worth best ≤ c.worth v := not_lt.mp fun hlt => hl (isLess_iff.mpr hlt)
      refine ⟨var, hf, ?_, hle, forall_mem_cons.mpr ⟨hle.trans hb, hall⟩⟩
      rcases hmem with rfl | hmem
      · exact .inl rfl
      · exact .inr (mem_cons_of_mem v hmem)

lemma victim?_eq : c.victim? = c.removable.foldl (fun best v =>
    match best with
    | none => some v
    | some b => if c.isLess v b then some v else some b) none := rfl

lemma victim?_eq_none : c.victim? = none ↔ c.removable = [] := by
  rw [victim?_eq]
  cases c.removable with
  | nil => simp
  | cons v vars =>
    obtain ⟨var, hf, -⟩ := foldl_isLess c vars v
    rw [foldl_cons, hf]
    simp

lemma victim?_eq_some (h : c.victim? = some var) :
    var ∈ c.removable ∧ ∀ v ∈ c.removable, c.worth var ≤ c.worth v := by
  rw [victim?_eq] at h
  cases hv : c.removable with
  | nil =>
    rw [hv] at h
    cases h
  | cons v vars =>
    obtain ⟨best, hf, hmem, hle, hall⟩ := foldl_isLess c vars v
    rw [hv, foldl_cons, hf] at h
    cases h
    refine ⟨?_, forall_mem_cons.mpr ⟨hle, hall⟩⟩
    rcases hmem with rfl | hmem
    · exact mem_cons_self
    · exact mem_cons_of_mem v hmem

lemma mem_held_of_removable (h : var ∈ c.removable) : ∃ e ∈ c.held, e.var = var ∧ e.reg ∉ c.locked := by
  obtain ⟨e, he, rfl⟩ := mem_map.mp h
  obtain ⟨he, hl⟩ := mem_filter.mp he
  exact ⟨e, he, rfl, by simpa using hl⟩

end Cache

/-! ### What one use keeps -/

namespace Cache

/-- The registers are shared out, and the cached variables are among the `known` ones. -/
structure Proper (known : Std.HashMap String Nat) (c : Cache) (lent : List Reg) : Prop where
  balanced : c.Balanced lent
  uses : c.uses = known
  held : ∀ e ∈ c.held, known.contains e.var

variable (c : Cache)

@[simp]
lemma uses_release (reg : Reg) : (c.release reg).uses = c.uses := by
  rw [release]
  split <;> rfl

@[simp]
lemma uses_lock (reg : Reg) : (c.lock reg).uses = c.uses := by
  rw [lock]
  split <;> rfl

@[simp]
lemma uses_markDirty (var : String) : (c.markDirty var).uses = c.uses := rfl

@[simp]
lemma uses_evict (var : String) : (c.evict var).2.uses = c.uses := by
  rw [evict]
  split
  · rfl
  · simp

lemma uses_evictEach (vars : List String) : (c.evictEach vars).2.uses = c.uses := by
  induction vars generalizing c with
  | nil => rfl
  | cons var vars ih => exact (ih _).trans (uses_evict c var)

lemma cache_cases (var : String) :
    (c.cache var).2 = c ∨ c.uses.contains var ∧ (c.cache var).2.uses = c.uses ∧
      ∃ reg, (c.cache var).2.held = ⟨var, reg⟩ :: c.held := by
  rw [cache]
  split
  · exact .inl rfl
  · split
    · rename_i reg free hf
      split
      · rename_i hk
        exact .inr ⟨hk, rfl, reg, rfl⟩
      · exact .inl rfl
    · exact .inl rfl

namespace Proper

variable {known : Std.HashMap String Nat} {c d : Cache} {lent lent' : List Reg}

variable (h : c.Proper known lent)
include h

lemma of_subset (hd : d.Balanced lent') (hu : d.uses = c.uses)
    (hh : d.held ⊆ c.held) : d.Proper known lent' where
  balanced := hd
  uses := hu.trans h.uses
  held e he := h.held e (hh he)

lemma of_held_eq (hd : d.Balanced lent') (hu : d.uses = c.uses)
    (hh : d.held = c.held) : d.Proper known lent' :=
  h.of_subset hd hu (hh ▸ Subset.refl _)

lemma known_of_cached (hvar : (c.cached? var).isSome) : known.contains var := by
  obtain ⟨e, he, rfl⟩ := mem_map.mp (isSome_cached?_iff.mp hvar)
  exact h.held e he

lemma cache (var : String) : (c.cache var).2.Proper known lent := by
  rcases cache_cases c var with hs | ⟨hk, hu, reg, hh⟩
  · rwa [hs]
  · refine ⟨h.balanced.cache var, hu.trans h.uses, ?_⟩
    rw [hh]
    exact forall_mem_cons.mpr ⟨h.uses ▸ hk, h.held⟩

lemma markDirty (var : String) : (c.markDirty var).Proper known lent :=
  h.of_held_eq (h.balanced.markDirty var) (uses_markDirty c var) (held_markDirty c var)

lemma evictEach (vars : List String) : (c.evictEach vars).2.Proper known lent := by
  refine h.of_subset (h.balanced.evictEach vars) (uses_evictEach c vars) ?_
  rw [held_evictEach]
  exact filter_sublist.subset

lemma lock (reg : Reg) : (c.lock reg).Proper known lent :=
  h.of_held_eq (h.balanced.lock reg) (uses_lock c reg) (held_lock c reg)

lemma unlock (reg : Reg) : (c.unlock reg).Proper known lent := h.of_held_eq (h.balanced.unlock reg) rfl rfl

lemma on (u : Use) : (u.on c).2.Proper known lent := by
  cases u with
  | cache var => exact h.cache var
  | markDirty var => exact h.markDirty var
  | evict var => exact h.evictEach [var]
  | evictAll | evictCallerSaved => exact h.evictEach _
  | lock reg => exact h.lock reg
  | unlock reg => exact h.unlock reg

lemma take? (ht : c.take? = some (loan, d)) :
    d.Proper known (loan.reg :: lent) ∧ ∀ var ∈ loan.victim, known.contains var := by
  have hbal := h.balanced.take? ht
  rcases take?_eq_some ht with ⟨_, _, -, rfl, rfl⟩ | ⟨-, victim, _, _, hv, -, rfl, rfl⟩
  · exact ⟨h.of_held_eq hbal rfl rfl, fun _ hvar => absurd hvar (Option.not_mem_none _)⟩
  · refine ⟨(h.evictEach [victim]).of_held_eq hbal rfl rfl, ?_⟩
    rintro var ⟨⟩
    obtain ⟨e, he, rfl, -⟩ := mem_held_of_removable (victim?_eq_some hv).1
    exact h.held e he

lemma restore? {reg : Reg} (hvar : known.contains var)
    (hr : c.restore? reg var = some d) : d.Proper known lent := by
  obtain ⟨-, hh, -, hu⟩ := Course.restore?_eq_some hr
  refine ⟨h.balanced.restore? hr, hu.trans h.uses, ?_⟩
  rw [hh]
  exact forall_mem_cons.mpr ⟨hvar, h.held⟩

end Proper

end Cache

/-! ### Loans -/

namespace Trial

/-- The cache is proper now and was at every moment before. -/
structure Sound (known : Std.HashMap String Nat) (s : Trial) (loans : List Reg) : Prop where
  now : s.cache.Proper known loans
  past : ∀ m ∈ s.past, m.1.Proper known m.2

variable {known : Std.HashMap String Nat} {s : Trial} {loans : List Reg}

lemma endOf_send (errand : Errand) :
    endOf (send errand s) = { s with errands := errand :: s.errands } := by
  rw [send]
  split <;> rfl

lemma maintains_send (errand : Errand) : Maintains (Sound known · loans) (send errand) := by
  intro s hs
  rw [ends_iff, endOf_send]
  exact ⟨hs.now, hs.past⟩

lemma sound_returnRegister (hv : ∀ var ∈ loan.victim, known.contains var)
    (h : s.Sound known (loan.reg :: loans)) :
    (endOf (returnRegister loan s : EStateM.Result Mishap Trial Unit)).Sound known loans := by
  have hb : ((s.cache.unlock loan.reg).release loan.reg).Proper known loans :=
    (h.now.unlock loan.reg).of_held_eq (h.now.unlock loan.reg).balanced.release (uses_release _ _)
      (held_release _ _)
  rw [returnRegister]
  dsimp only [RegisterOwner.reload]
  split
  · rename_i var d hr
    obtain ⟨victim, hvar, hr⟩ := Option.bind_eq_some_iff.mp hr
    obtain ⟨d', hd, heq⟩ := Option.map_eq_some_iff.mp hr
    cases heq
    rw [endOf_send]
    exact ⟨hb.restore? (hv _ hvar) hd, h.past⟩
  · exact ⟨hb, h.past⟩

lemma kept_sound : Kept fun loans (s : Trial) => s.Sound known loans where
  act u h := ⟨h.now.on u, h.past⟩
  note h := ⟨h.now, forall_mem_cons.mpr ⟨h.now, h.past⟩⟩
  loan {loans body} hb := by
    refine .withRegister fun s loan c hs hta => ?_
    obtain ⟨hc, hv⟩ := hs.now.take? hta
    have hrun : Maintains (Sound known · (loan.reg :: loans)) (underLoan loan body) := by
      rw [underLoan]
      cases loan.spill with
      | none => exact hb loan.reg
      | some store => exact Maintains.bind (maintains_send _) fun _ => hb loan.reg
    exact ⟨_, hrun _ ⟨hc.lock loan.reg, hs.past⟩, fun t ht => ends_iff.mpr (sound_returnRegister hv ht)⟩

lemma sound_runAll (uses : List (String × Nat)) (fails : Nat → Bool) (ts : List (Turn Use)) :
    (endOf (Turn.runAll [] ts (start uses fails))).Sound (Cache.new uses).uses [] := by
  have hstart : (start uses fails).Sound (Cache.new uses).uses [] :=
    ⟨⟨balanced_new uses, rfl, fun _ he => absurd he not_mem_nil⟩, fun _ hm => absurd hm not_mem_nil⟩
  exact ends_iff.mp (kept_sound.runAll [] ts _ hstart)

end Trial

variable {uses : List (String × Nat)}

lemma Cache.contains_new :
    (Cache.new uses).uses.contains var ↔ var ∈ uses.map Prod.fst := by
  have hf : ∀ (uses : List (String × Nat)) (m : Std.HashMap String Nat),
      (uses.foldl (fun m p => m.insert p.1 p.2) m).contains var ↔
        var ∈ uses.map Prod.fst ∨ m.contains var := by
    intro uses
    induction uses with
    | nil => simp
    | cons p uses ih =>
      intro m
      grind
  rw [Cache.new, hf]
  simp

/-- At every moment of a trial, the variables in registers, the free registers and the registers on loan
share out the pool, with one variable in each of the former and the free ones in the order of the pool.
A dirty variable is cached, and a cached one was announced. -/
theorem shared_out (fails : Nat → Bool) (ts : List (Turn Use)) :
    let s := endOf (Turn.runAll [] ts (Trial.start uses fails))
    ∀ m ∈ (s.cache, []) :: s.past, m.1.Balanced m.2 ∧ (∀ var ∈ m.1.dirty, (m.1.cached? var).isSome) ∧
      ∀ var, (m.1.cached? var).isSome → var ∈ uses.map Prod.fst := by
  intro s m hm
  have hs := Trial.sound_runAll uses fails ts
  have hproper : m.1.Proper (Cache.new uses).uses m.2 := by
    rcases List.mem_cons.mp hm with rfl | hm
    · exact hs.now
    · exact hs.past m hm
  refine ⟨hproper.balanced, fun var hdirty => ?_, fun var hvar => ?_⟩
  · exact isSome_cached?_iff.mpr (hproper.balanced.dirty hdirty)
  · exact contains_new.mp (hproper.known_of_cached hvar)

end Garnet
