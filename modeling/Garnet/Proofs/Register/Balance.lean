import Garnet.Register.Borrow
import Mathlib.Tactic.Lemma

/-!
# Every register has one use

At any time a register of the pool is free, holds one variable, or is lent out. `Balanced c lent`
states this for the registers `lent` as one permutation of the pool, so that every operation moves a
register from one part to another and loses none.

The consequence that code relies on is `held_evictAll`: as long as no register is locked, no variable
stays in a register when all of them are sent home.
-/

namespace Garnet

open List

namespace Cache

variable {c' : Cache} {var : String} {e : CachedVar} {reg : Reg} {loan : Loan}

/-- The cached variables, the free registers and the registers `lent` share out the pool, no variable
is in two registers, free registers stand in the order of the pool, and dirty variables are cached. -/
structure Balanced (c : Cache) (lent : List Reg) : Prop where
  shares : (c.held.map CachedVar.reg ++ (c.free ++ lent)).Perm pool
  vars : (c.held.map CachedVar.var).Nodup
  order : c.free.Sublist pool
  dirty : c.dirty ⊆ c.held.map CachedVar.var

variable {c : Cache} {lent : List Reg}

lemma nodup_pool : pool.Nodup := by decide

lemma balanced_new (uses : List (String × Nat)) : (new uses).Balanced [] where
  shares := by simp [new]
  vars := by simp [new]
  order := by simp [new]
  dirty := nil_subset _

namespace Balanced

variable (h : c.Balanced lent)
include h

lemma nodup : (c.held.map CachedVar.reg ++ (c.free ++ lent)).Nodup := h.shares.nodup_iff.mpr nodup_pool

lemma nodup_held : (c.held.map CachedVar.reg).Nodup := (nodup_append.mp h.nodup).1

lemma mem_pool (he : e ∈ c.held) : e.reg ∈ pool :=
  h.shares.mem_iff.mp (mem_append_left _ (mem_map_of_mem he))

lemma of_eq (hheld : c'.held = c.held) (hfree : c'.free = c.free) (hdirty : c'.dirty = c.dirty) :
    c'.Balanced lent where
  shares := by rw [hheld, hfree]; exact h.shares
  vars := by rw [hheld]; exact h.vars
  order := by rw [hfree]; exact h.order
  dirty := by rw [hdirty, hheld]; exact h.dirty

end Balanced

/-! ### Single operations -/

@[simp]
lemma held_release (c : Cache) (reg : Reg) : (c.release reg).held = c.held := by
  rw [release]
  split <;> rfl

@[simp]
lemma dirty_release (c : Cache) (reg : Reg) : (c.release reg).dirty = c.dirty := by
  rw [release]
  split <;> rfl

@[simp]
lemma locked_release : (c.release reg).locked = c.locked := by
  rw [release]
  split <;> rfl

@[simp]
lemma dirty_lock (c : Cache) (reg : Reg) : (c.lock reg).dirty = c.dirty := by
  rw [lock]
  split <;> rfl

@[simp]
lemma held_lock (c : Cache) (reg : Reg) : (c.lock reg).held = c.held := by
  rw [lock]
  split <;> rfl

lemma Balanced.lock (h : c.Balanced lent) (reg : Reg) : (c.lock reg).Balanced lent := by
  rw [Cache.lock]
  split
  · exact h
  · exact h.of_eq rfl rfl rfl

lemma Balanced.unlock (h : c.Balanced lent) (reg : Reg) : (c.unlock reg).Balanced lent :=
  h.of_eq rfl rfl rfl

lemma mem_of_cached (h : c.place? var = some e) : e ∈ c.held ∧ e.var = var :=
  ⟨mem_of_find?_eq_some h, by simpa using find?_some h⟩

lemma notMem_vars_of_uncached (h : c.place? var = none) : var ∉ c.held.map CachedVar.var := by
  intro hmem
  obtain ⟨e, he, rfl⟩ := mem_map.mp hmem
  simpa using find?_eq_none.mp h e he

lemma isSome_cached?_iff : (c.cached? var).isSome ↔ var ∈ c.held.map CachedVar.var := by
  rw [cached?, Option.isSome_map]
  refine ⟨fun h => ?_, fun h => ?_⟩
  · obtain ⟨e, hplace⟩ := Option.isSome_iff_exists.mp h
    obtain ⟨he, rfl⟩ := mem_of_cached hplace
    exact mem_map_of_mem he
  · rw [Option.isSome_iff_ne_none]
    exact fun hnone => notMem_vars_of_uncached hnone h

lemma isDirty_iff : c.isDirty var ↔ var ∈ c.dirty := contains_iff_mem

lemma contains_filter_dirty (var other : String) :
    (c.dirty.filter (· != var)).contains other = (c.isDirty other && other != var) := by
  rw [isDirty, Bool.eq_iff_iff]
  simp

@[simp]
lemma isDirty_lock : (c.lock reg).isDirty var = c.isDirty var := by
  rw [isDirty, dirty_lock, isDirty]

@[simp]
lemma held_markDirty (c : Cache) (var : String) : (c.markDirty var).held = c.held := rfl

lemma Balanced.markDirty (h : c.Balanced lent) (var : String) : (c.markDirty var).Balanced lent := by
  refine ⟨h.shares, h.vars, h.order, ?_⟩
  rw [Cache.markDirty]
  split
  · rename_i hnew
    rw [Bool.and_eq_true, isSome_cached?_iff] at hnew
    exact cons_subset.mpr ⟨hnew.1, h.dirty⟩
  · exact h.dirty

lemma isDirty_markDirty (var other : String) :
    (c.markDirty var).isDirty other = (c.isDirty other || (c.cached? var).isSome && other == var) := by
  rw [markDirty, Bool.eq_iff_iff]
  split
  · rename_i hnew
    simp_all [isDirty, or_comm]
  · rename_i hold
    by_cases heq : other = var
    · simp_all
    · simp [heq]

lemma Balanced.isSome_of_isDirty (h : c.Balanced lent) (hvar : c.isDirty var) : (c.cached? var).isSome :=
  isSome_cached?_iff.mpr (h.dirty (isDirty_iff.mp hvar))

lemma Balanced.isDirty_of_uncached (h : c.Balanced lent) (hvar : c.cached? var = none) :
    c.isDirty var = false := by
  rw [Bool.eq_false_iff]
  exact fun hd => by simpa [hvar] using h.isSome_of_isDirty hd

lemma Balanced.cache (h : c.Balanced lent) (var : String) : (c.cache var).2.Balanced lent := by
  rw [Cache.cache]
  split
  · exact h
  · rename_i hn
    split
    · rename_i reg free hf
      split
      · refine ⟨?_, ?_, ?_, List.Subset.trans h.dirty (subset_cons_self ..)⟩
        · refine List.Perm.trans ?_ h.shares
          rw [hf]
          exact perm_middle.symm
        · refine nodup_cons.mpr ⟨notMem_vars_of_uncached ?_, h.vars⟩
          simpa [cached?] using hn
        · have hsub := h.order
          rw [hf] at hsub
          exact (sublist_cons_self reg free).trans hsub
      · exact h
    · exact h

lemma Balanced.release (h : c.Balanced (reg :: lent)) : (c.release reg).Balanced lent := by
  obtain ⟨-, hrig, -⟩ := nodup_append.mp h.nodup
  have hf : reg ∉ c.free := fun hmem =>
    (nodup_append.mp hrig).2.2 reg hmem reg mem_cons_self rfl
  have hp : reg ∈ pool := h.shares.mem_iff.mp (by simp)
  have hpe : (pool.filter fun r => r == reg || c.free.contains r).Perm (reg :: c.free) := by
    refine (perm_ext_iff_of_nodup (nodup_pool.filter _)
      (nodup_cons.mpr ⟨hf, (nodup_append.mp hrig).1⟩)).mpr fun r => ?_
    have hsub : r ∈ c.free → r ∈ pool := fun hr => h.order.subset hr
    simp only [mem_filter, Bool.or_eq_true, beq_iff_eq, contains_eq_mem, decide_eq_true_eq, mem_cons]
    constructor
    · exact fun hr => hr.2
    · rintro (rfl | hr)
      · exact ⟨hp, .inl rfl⟩
      · exact ⟨hsub hr, .inr hr⟩
  rw [Cache.release, if_neg (by simpa using hf)]
  refine ⟨?_, h.vars, filter_sublist, h.dirty⟩
  refine List.Perm.trans ?_ h.shares
  refine List.Perm.append_left _ ?_
  refine (hpe.append_right lent).trans ?_
  exact perm_middle.symm

lemma perm_filter_var : ∀ {held : List CachedVar}, (held.map CachedVar.var).Nodup → e ∈ held →
      held.Perm (e :: held.filter (·.var != e.var))
  | [], _, h => by simp at h
  | a :: held, hn, h => by
    obtain ⟨ha, hn⟩ := nodup_cons.mp hn
    rcases mem_cons.mp h with rfl | h
    · have hall : held.filter (·.var != e.var) = held := by
        refine filter_eq_self.mpr fun b hb => ?_
        simpa using fun heq : b.var = e.var => ha (heq ▸ mem_map_of_mem hb)
      simp [hall]
    · have hne : a.var ≠ e.var := fun heq => ha (heq ▸ mem_map_of_mem h)
      rw [filter_cons_of_pos (by simpa using hne)]
      exact ((perm_filter_var hn h).cons a).trans (.swap _ _ _)

lemma Balanced.evict (h : c.Balanced lent) (var : String) : (c.evict var).2.Balanced lent := by
  rw [Cache.evict]
  split
  · exact h
  · rename_i e hent
    obtain ⟨he, rfl⟩ := mem_of_cached hent
    have hp := perm_filter_var h.vars he
    refine Balanced.release ⟨?_, h.vars.sublist (filter_sublist.map _), h.order, fun v hv => ?_⟩
    · refine List.Perm.trans ?_ h.shares
      refine List.Perm.trans ?_ ((hp.symm.map CachedVar.reg).append_right _)
      simp only [← append_assoc]
      exact perm_middle
    · obtain ⟨hv, hne⟩ := mem_filter.mp hv
      obtain ⟨a, ha, rfl⟩ := mem_map.mp (h.dirty hv)
      exact mem_map_of_mem (mem_filter.mpr ⟨ha, hne⟩)

lemma Balanced.evictEach (h : c.Balanced lent) (vars : List String) :
    (c.evictEach vars).2.Balanced lent := by
  induction vars generalizing c with
  | nil => exact h
  | cons var vars ih => exact ih (h.evict var)

lemma take?_eq_some (h : c.take? = some (loan, c')) :
    (∃ reg free, c.free = reg :: free ∧ loan = { reg } ∧ c' = { c with free }) ∨
      c.free = [] ∧ ∃ victim reg free, c.victim? = some victim ∧ (c.evict victim).2.free = reg :: free ∧
        loan = ⟨reg, some victim, (c.evict victim).1⟩ ∧ c' = { (c.evict victim).2 with free } := by
  rw [Cache.take?] at h
  split at h
  · rename_i reg free hf
    cases h
    exact .inl ⟨reg, free, hf, rfl, rfl⟩
  · rename_i hemp
    obtain ⟨victim, hv, h⟩ := Option.bind_eq_some_iff.mp h
    dsimp only at h
    split at h
    · rename_i reg free hf
      cases h
      exact .inr ⟨hemp, victim, reg, free, hv, hf, rfl, rfl⟩
    · cases h

lemma Balanced.take? (h : c.Balanced lent) (ht : c.take? = some (loan, c')) :
    c'.Balanced (loan.reg :: lent) := by
  -- what happens to the head of the free registers, for both ways of lending
  have hh : ∀ {d : Cache} {reg : Reg} {free : List Reg}, d.Balanced lent →
      d.free = reg :: free → Balanced { d with free } (reg :: lent) := by
    intro d reg free hd hf
    refine ⟨?_, hd.vars, ?_, hd.dirty⟩
    · refine List.Perm.trans ?_ hd.shares
      rw [hf]
      exact List.Perm.append_left _ perm_middle
    · have hsub := hd.order
      rw [hf] at hsub
      exact (sublist_cons_self reg free).trans hsub
  rcases take?_eq_some ht with ⟨reg, free, hf, rfl, rfl⟩ | ⟨-, victim, reg, free, -, hf, rfl, rfl⟩
  · exact hh h hf
  · exact hh (h.evict victim) hf

lemma Balanced.restore? (h : c.Balanced lent) (hr : c.restore? reg var = some c') :
    c'.Balanced lent := by
  rw [Cache.restore?] at hr
  split at hr
  · simp at hr
  · rename_i hc
    simp only [Bool.or_eq_true, Bool.not_eq_true', not_or, Bool.not_eq_false, contains_eq_mem, decide_eq_true_eq] at hc
    obtain ⟨hn, hmem⟩ := hc
    cases hr
    have hnod : c.free.Nodup := (nodup_append.mp (nodup_append.mp h.nodup).2.1).1
    have hp : c.free.Perm (reg :: c.free.filter (· != reg)) := by
      rw [← hnod.erase_eq_filter]
      exact perm_cons_erase hmem
    refine ⟨?_, ?_, filter_sublist.trans h.order, List.Subset.trans h.dirty (subset_cons_self ..)⟩
    · refine List.Perm.trans ?_ h.shares
      refine List.Perm.trans ?_ ((hp.symm.append_right lent).append_left _)
      exact perm_middle.symm
    · refine nodup_cons.mpr ⟨notMem_vars_of_uncached ?_, h.vars⟩
      simpa [cached?] using hn

/-! ### Sending all variables home -/

lemma held_evict :
    (c.evict var).2.held = c.held.filter (·.var != var) := by
  rw [evict]
  split
  · rename_i hn
    refine (filter_eq_self.mpr fun e he => ?_).symm
    simpa using find?_eq_none.mp hn e he
  · simp

lemma dirty_evict (h : c.Balanced lent) (var : String) :
    (c.evict var).2.dirty = c.dirty.filter (· != var) := by
  rw [evict]
  split
  · rename_i hn
    refine (filter_eq_self.mpr fun v hv => ?_).symm
    simpa using fun heq : v = var => notMem_vars_of_uncached hn (heq ▸ h.dirty hv)
  · simp

lemma isDirty_evict (h : c.Balanced lent) (var other : String) :
    (c.evict var).2.isDirty other = (c.isDirty other && other != var) := by
  rw [isDirty, dirty_evict h, contains_filter_dirty]

lemma held_evictEach (vars : List String) :
    (c.evictEach vars).2.held = c.held.filter fun e => !vars.contains e.var := by
  induction vars generalizing c with
  | nil => exact (filter_eq_self.mpr fun _ _ => rfl).symm
  | cons var vars ih =>
    have hs : (c.evictEach (var :: vars)).2 = ((c.evict var).2.evictEach vars).2 := rfl
    rw [hs, ih, held_evict, filter_filter]
    refine filter_congr fun e _ => ?_
    rw [contains_cons, Bool.not_or, bne, Bool.and_comm]

lemma holder?_of_mem (h : (c.held.map CachedVar.reg).Nodup) (he : e ∈ c.held) :
    c.holder? e.reg = some e.var := by
  have hf : ∀ {held : List CachedVar}, (held.map CachedVar.reg).Nodup → e ∈ held →
      held.find? (·.reg == e.reg) = some e := by
    intro held hn hmem
    induction held with
    | nil => simp at hmem
    | cons a held ih =>
      obtain ⟨ha, hn⟩ := nodup_cons.mp hn
      rcases mem_cons.mp hmem with rfl | hmem
      · simp
      · have hne : a.reg ≠ e.reg := fun heq => ha (heq ▸ mem_map_of_mem hmem)
        rw [find?_cons_of_neg (by simpa using hne)]
        exact ih hn hmem
  rw [holder?, hf h he]
  rfl

theorem held_evictAll (h : c.Balanced lent) (hl : c.locked = []) : c.evictAll.2.held = [] := by
  rw [evictAll, evictWhere, held_evictEach]
  refine filter_eq_nil_iff.mpr fun e he => ?_
  have hmem : e.var ∈ (pool.filter fun r => true && !c.locked.contains r).filterMap c.holder? := by
    refine mem_filterMap.mpr ⟨e.reg, ?_, holder?_of_mem h.nodup_held he⟩
    exact mem_filter.mpr ⟨h.mem_pool he, by simp [hl]⟩
  rw [contains_eq_mem, decide_eq_true hmem]
  simp

lemma Balanced.evictWhere (h : c.Balanced lent) (p : Reg → Bool) : (c.evictWhere p).2.Balanced lent :=
  h.evictEach _

lemma locked_evictEach (c : Cache) (vars : List String) :
    (c.evictEach vars).2.locked = c.locked := by
  induction vars generalizing c with
  | nil => rfl
  | cons var vars ih =>
    have hone : (c.evict var).2.locked = c.locked := by
      rw [evict]
      split
      · rfl
      · simp
    exact (ih _).trans hone

lemma locked_take? (h : c.take? = some (loan, c')) : c'.locked = c.locked := by
  rcases take?_eq_some h with ⟨reg, free, -, -, rfl⟩ | ⟨-, victim, reg, free, -, -, -, rfl⟩
  · rfl
  · exact locked_evictEach c [victim]

lemma locked_restore? (h : c.restore? reg var = some c') : c'.locked = c.locked := by
  rw [restore?] at h
  split at h
  · simp at h
  · cases h
    rfl

/-! ### Free registers

A register that becomes free belongs to the pool, whatever the others are used for. -/

variable (h : c.free ⊆ pool)
include h

lemma free_release_subset (reg : Reg) : (c.release reg).free ⊆ pool := by
  rw [release]
  split
  · exact h
  · exact filter_sublist.subset

lemma free_evict_subset (var : String) : (c.evict var).2.free ⊆ pool := by
  rw [evict]
  split
  · exact h
  · exact free_release_subset
      (c := { c with held := c.held.filter (·.var != var), dirty := c.dirty.filter (· != var) }) h _

lemma free_evictEach_subset (vars : List String) : (c.evictEach vars).2.free ⊆ pool := by
  induction vars generalizing c with
  | nil => exact h
  | cons var vars ih => exact ih (free_evict_subset h var)

lemma free_cache_subset (var : String) : (c.cache var).2.free ⊆ pool := by
  fun_cases cache c var with
  | case2 _ reg free hf => exact fun _ hmem => h (hf ▸ mem_cons_of_mem _ hmem)
  | _ => exact h

lemma mem_pool_of_take? (ht : c.take? = some (loan, c')) : loan.reg ∈ pool ∧ c'.free ⊆ pool := by
  rcases take?_eq_some ht with ⟨reg, free, hf, rfl, rfl⟩ | ⟨-, victim, reg, free, -, hf, rfl, rfl⟩
  · exact cons_subset.mp (hf ▸ h)
  · exact cons_subset.mp (hf ▸ free_evict_subset h victim)

lemma free_restore?_subset (hr : c.restore? reg var = some c') : c'.free ⊆ pool := by
  rw [restore?] at hr
  split at hr
  · simp at hr
  · cases hr
    exact fun _ hmem => h (mem_filter.mp hmem).1

end Cache

section

open RegisterOwner

variable {ε σ α : Type} [RegisterOwner ε σ] {body : Reg → EStateM ε σ α} {s s' : σ} {a : α}

/-- What runs while a register is on loan: the store that the loan asks for, and the body. -/
def underLoan (loan : Cache.Loan) (body : Reg → EStateM ε σ α) : EStateM ε σ α := do
  if let some store := loan.spill then spill store
  body loan.reg

lemma withRegister_eq_ok : withRegister body s = .ok a s' ↔ ∃ loan c t,
    (registers s).take? = some (loan, c) ∧ underLoan loan body (setRegisters (c.lock loan.reg) s) = .ok a t ∧
      returnRegister loan t = .ok () s' := by
  refine ⟨fun h => ?_, ?_⟩
  · rw [withRegister] at h
    split at h
    · cases h
    · rename_i loan c ht
      dsimp only at h
      split at h
      · rename_i t hrun
        split at h
        · rename_i hb
          cases h
          exact ⟨loan, c, t, ht, hrun, hb⟩
        · cases h
      · split at h <;> cases h
  · rintro ⟨loan, c, t, ht, hrun, hb⟩
    cases hs : loan.spill <;>
      (simp only [underLoan, hs] at hrun
       simp only [withRegister, ht, hs, hrun, hb])

end

/-! ### Computations that may fail -/

section

variable {ε σ α β : Type} {P : σ → Prop} {x : EStateM ε σ α}

/-- The state at the end, after a failure too, has a property. -/
def Ends (P : σ → Prop) : EStateM.Result ε σ α → Prop
  | .ok _ t => P t
  | .error _ t => P t

/-- Wherever the computation ends, it leads from states with a property to such states. -/
def Maintains (P : σ → Prop) (x : EStateM ε σ α) : Prop := ∀ s, P s → Ends P (x s)

namespace Maintains

lemma bind {f : α → EStateM ε σ β} (hx : Maintains P x) (hf : ∀ a, Maintains P (f a)) :
    Maintains P (x >>= f) := by
  intro s hs
  have hend := hx s hs
  change Ends P (EStateM.bind x f s)
  rw [EStateM.bind]
  cases hr : x s with
  | ok a t =>
    rw [hr] at hend
    exact hf a t hend
  | error e t =>
    rwa [hr] at hend

open RegisterOwner in
lemma withRegister [RegisterOwner ε σ] {body : Reg → EStateM ε σ α}
    (h : ∀ s loan c, P s → (registers s).take? = some (loan, c) → ∃ Q : σ → Prop, Ends Q ((do
        if let some store := loan.spill then spill store
        body loan.reg : EStateM ε σ α) (setRegisters (c.lock loan.reg) s)) ∧
      ∀ t, Q t → Ends P (returnRegister loan t : EStateM.Result ε σ Unit)) :
    Maintains P (withRegister body) := by
  intro s hs
  rw [Garnet.withRegister]
  cases hta : (registers s).take? with
  | none => exact hs
  | some p =>
    obtain ⟨Q, hend, hb⟩ := h s p.1 p.2 hs hta
    dsimp only
    split
    all_goals
      rename_i t ht
      have hret := hb t ((congrArg (Ends Q) ht).mp hend)
      cases hr : (returnRegister p.1 t : EStateM.Result ε σ Unit) <;> rw [hr] at hret <;> exact hret

end Maintains

end

end Garnet
