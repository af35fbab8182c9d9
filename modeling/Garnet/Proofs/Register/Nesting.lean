import Garnet.Proofs.Register.Sharing
import Mathlib

/-!
# Nested loans give back what they took

Loans that are nested and do nothing else take the free registers first, and then those of the cached
variables that are worth least (`lend_eq_append_cons`). However they end, and whatever stores and loads fail
on the way, each level gives back what it took (`nested_restored`). More than three levels there cannot be.
-/

namespace Garnet

variable {loan : Loan} {levels : Nat}

open List Cache CachedVar Loan Trial

namespace Cache

variable {e : CachedVar} {t : Cache} {reg : Reg} {free : List Reg}

/-- The loans of so many levels, each inside the one before, as far as there are registers. -/
def lend : Nat → Cache → List Loan
  | 0, _ => []
  | levels + 1, c =>
    match c.take? with
    | some (loan, d) => loan :: lend levels (d.lock loan.reg)
    | none => []

/-- All is as it was in `c`, except that the variables `evicted` are not dirty. -/
structure Restored (evicted : List String) (c d : Cache) : Prop where
  uses : d.uses = c.uses
  free : d.free = c.free
  locked : d.locked = c.locked
  held : d.held.Perm c.held
  dirty : ∀ var, d.isDirty var = (c.isDirty var && !evicted.contains var)

/-- The registers are shared out, and only registers on loan are locked. -/
structure Lending (c : Cache) (lent : List Reg) : Prop where
  balanced : c.Balanced lent
  locked : ∀ reg ∈ c.locked, reg ∈ lent

variable {c d : Cache} {lent : List Reg} {evicted : List String}

/-! ### Taking a register -/

lemma filter_pool (h : free.Sublist pool) : pool.filter free.contains = free := by
  have hall : ∀ l ∈ pool.sublists, pool.filter l.contains = l := by decide
  exact hall free (mem_sublists.mpr h)

lemma free_release (hreg : reg ∉ c.free) (hsub : (reg :: c.free).Sublist pool) :
    (c.release reg).free = reg :: c.free := by
  rw [release, if_neg (by simpa using hreg)]
  refine Eq.trans (filter_congr fun r _ => ?_) (filter_pool hsub)
  rw [contains_cons]

section

variable (h : c.Lending lent)
include h

lemma Lending.reg_notMem_locked (he : e ∈ c.held) : e.reg ∉ c.locked := fun hmem =>
  (nodup_append.mp h.balanced.nodup).2.2 e.reg (mem_map_of_mem he) e.reg
    (mem_append_right _ (h.locked _ hmem)) rfl

lemma Lending.free_notMem_locked (hreg : reg ∈ c.free) : reg ∉ c.locked := fun hmem =>
  (nodup_append.mp (nodup_append.mp h.balanced.nodup).2.1).2.2 reg hreg reg (h.locked _ hmem) rfl

lemma Lending.removable_eq : c.removable = c.held.map var := by
  rw [removable, filter_eq_self.mpr fun e he => ?_]
  simpa using h.reg_notMem_locked he

omit h in
lemma place?_of_mem (h : (c.held.map var).Nodup) (he : e ∈ c.held) : c.place? e.var = some e := by
  cases hplace : c.place? e.var with
  | none => exact absurd (mem_map_of_mem he) (notMem_vars_of_uncached hplace)
  | some a =>
    obtain ⟨ha, hvar⟩ := mem_of_cached hplace
    rw [inj_on_of_nodup_map h ha he hvar]

lemma Lending.evict_eq (hfree : c.free = []) (he : e ∈ c.held) :
    c.evict e.var = (if c.isDirty e.var then some ⟨e.var, e.reg⟩ else none,
      { c with
        held := c.held.filter (·.var != e.var)
        free := [e.reg]
        dirty := c.dirty.filter (· != e.var) }) := by
  have hb : pool.filter (fun r => r == e.reg || ([] : List Reg).contains r) = [e.reg] := by
    refine Eq.trans (filter_congr fun r _ => ?_)
      (filter_pool (singleton_sublist.mpr (h.balanced.mem_pool he)))
    rw [contains_cons]
  rw [evict, place?_of_mem h.balanced.vars he]
  dsimp only
  rw [release, hfree, contains_nil, if_neg Bool.false_ne_true, hb]

/-- A register is lent out in one of two ways: the first free one, or else the one of the variable that
is worth least. -/
lemma Lending.take?_cases (ht : c.take? = some (loan, d)) :
    (∃ reg free, c.free = reg :: free ∧ loan = { reg } ∧ d = { c with free }) ∨
      c.free = [] ∧ ∃ e ∈ c.held, (∀ a ∈ c.held, c.worth e.var ≤ c.worth a.var) ∧
        loan = ⟨e.reg, some e.var, if c.isDirty e.var then some ⟨e.var, e.reg⟩ else none⟩ ∧
        d = { c with held := c.held.filter (·.var != e.var), dirty := c.dirty.filter (· != e.var) } := by
  rcases take?_eq_some ht with hf | ⟨hfree, victim, reg, free, hv, hevi, rfl, rfl⟩
  · exact .inl hf
  · obtain ⟨hmem, hl⟩ := victim?_eq_some hv
    obtain ⟨e, he, rfl, -⟩ := mem_held_of_removable hmem
    rw [h.evict_eq hfree he] at hevi ⊢
    cases hevi
    refine .inr ⟨hfree, e, he, fun a ha => ?_, rfl, by rw [hfree]⟩
    refine hl a.var ?_
    rw [h.removable_eq]
    exact mem_map_of_mem ha

lemma Lending.take?_eq_none (ht : c.take? = none) : lent.length = 3 := by
  rw [take?] at ht
  split at ht
  · cases ht
  · rename_i hfree
    have hh : c.held = [] := by
      cases hv : c.victim? with
      | none => simpa [h.removable_eq] using victim?_eq_none.mp hv
      | some victim =>
        obtain ⟨e, he, rfl, -⟩ := mem_held_of_removable (victim?_eq_some hv).1
        rw [hv, Option.bind_eq_bind, Option.bind_some, h.evict_eq hfree he] at ht
        cases ht
    have hlength := h.balanced.shares.length_eq
    rwa [hh, hfree] at hlength

lemma Lending.locked_lock (ht : c.take? = some (loan, d)) :
    (d.lock loan.reg).locked = loan.reg :: c.locked := by
  have hnot : loan.reg ∉ c.locked := by
    rcases h.take?_cases ht with ⟨reg, free, hfree, rfl, rfl⟩ | ⟨hfree, e, he, -, rfl, rfl⟩
    · exact h.free_notMem_locked (hfree ▸ mem_cons_self)
    · exact h.reg_notMem_locked he
  have hlocked := locked_take? ht
  rw [Cache.lock, if_neg (by simpa [hlocked] using hnot), hlocked]

lemma Lending.lock (ht : c.take? = some (loan, d)) : (d.lock loan.reg).Lending (loan.reg :: lent) where
  balanced := (h.balanced.take? ht).lock loan.reg
  locked := by
    rw [h.locked_lock ht]
    exact forall_mem_cons.mpr ⟨mem_cons_self, fun reg hreg => mem_cons_of_mem _ (h.locked reg hreg)⟩

lemma Lending.length_le : lent.length ≤ 3 := by
  have hlength := h.balanced.shares.length_eq
  simp only [length_append, pool, length_cons, length_nil] at hlength
  omega

lemma Lending.length_lend (levels : Nat) : (c.lend levels).length = min levels (3 - lent.length) := by
  induction levels generalizing c lent with
  | zero => simp [lend]
  | succ levels ih =>
    rw [lend]
    split
    · rename_i loan d ht
      have hl := h.lock ht
      have hle := hl.length_le
      rw [length_cons] at hle
      rw [length_cons, ih hl, length_cons]
      omega
    · rename_i ht
      rw [h.take?_eq_none ht]
      simp

omit h in
@[simp]
lemma free_lock (c : Cache) (reg : Reg) : (c.lock reg).free = c.free := by
  rw [Cache.lock]
  split <;> rfl

/-- Which register each level takes: free ones first, then those of the variables that are worth least
among those that are still in registers. -/
theorem Lending.lend_eq_append_cons {before after : List Loan}
    (hlend : c.lend levels = before ++ loan :: after) :
    (∃ hlt : before.length < c.free.length, loan = { reg := c.free.get ⟨before.length, hlt⟩ }) ∨
      c.free.length ≤ before.length ∧ ∃ e ∈ c.held,
        loan = ⟨e.reg, some e.var, if c.isDirty e.var then some ⟨e.var, e.reg⟩ else none⟩ ∧
        e.var ∉ before.filterMap victim ∧
        ∀ a ∈ c.held, a.var ∉ before.filterMap victim → c.worth e.var ≤ c.worth a.var := by
  induction before generalizing c lent levels with
  | nil =>
    cases levels with
    | zero => cases hlend
    | succ levels =>
      rw [lend] at hlend
      split at hlend
      · rename_i d ht
        cases hlend
        rcases h.take?_cases ht with ⟨reg, free, hfree, rfl, -⟩ | ⟨hfree, e, he, hlea, rfl, -⟩
        · exact .inl ⟨by simp [hfree], by simp [hfree]⟩
        · exact .inr ⟨by simp [hfree], e, he, rfl, by simp, fun a ha _ => hlea a ha⟩
      · cases hlend
  | cons first before ih =>
    cases levels with
    | zero => cases hlend
    | succ levels =>
      rw [lend] at hlend
      split at hlend
      · rename_i taken d ht
        obtain ⟨rfl, hr⟩ := cons.inj hlend
        have hl := ih (h.lock ht) hr
        have hw : ∀ var, (d.lock taken.reg).worth var = c.worth var := by
          have hu : (d.lock taken.reg).uses = c.uses := by
            rw [uses_lock]
            rcases h.take?_cases ht with ⟨_, _, _, _, rfl⟩ | ⟨_, _, _, _, _, rfl⟩ <;> rfl
          intro var
          rw [worth, worth, weight, weight, hu]
        simp only [hw, held_lock, free_lock, isDirty_lock] at hl
        rcases h.take?_cases ht with ⟨reg, free, hfree, rfl, rfl⟩ | ⟨hfree, e, he, hlea, rfl, rfl⟩
        · rcases hl with ⟨hlt, rfl⟩ | ⟨hle, hevi⟩
          · exact .inl ⟨by simpa [hfree] using hlt, by simp [hfree]⟩
          · exact .inr ⟨by simpa [hfree] using hle, hevi⟩
        · simp only [hfree, length_nil, Nat.not_lt_zero, IsEmpty.exists_iff, false_or] at hl
          obtain ⟨-, a, ha, rfl, hnot, hall⟩ := hl
          obtain ⟨ha, hne⟩ := mem_filter.mp ha
          have hsame : (c.dirty.filter (· != e.var)).contains a.var = c.isDirty a.var := by
            rw [contains_filter_dirty, hne, Bool.and_true]
          refine .inr ⟨by simp [hfree], a, ha, ?_, ?_, fun b hb hnot => ?_⟩
          · rw [← hsame]
            rfl
          · simpa [hnot] using hne
          · have hnot : b.var ∉ e.var :: before.filterMap victim := hnot
            rw [mem_cons, not_or] at hnot
            exact hall b (mem_filter.mpr ⟨hb, by simpa using hnot.1⟩) hnot.2
      · cases hlend

/-! ### Giving a register back -/

omit h in
lemma restored_refl (c : Cache) : Restored [] c c :=
  ⟨rfl, rfl, rfl, .refl _, fun var => by simp⟩

lemma Restored.release (hfree : c.free = reg :: free)
    (hlocked : (lock { c with free } reg).locked = reg :: c.locked)
    (ht : Restored evicted (lock { c with free } reg) t) :
    Restored evicted c ((t.unlock reg).release reg) := by
  have hn : (reg :: free).Nodup := hfree ▸ (nodup_append.mp (nodup_append.mp h.balanced.nodup).2.1).1
  have htfr : t.free = free := ht.free.trans (free_lock _ reg)
  have hb : ((t.unlock reg).release reg).free = reg :: t.free :=
    free_release (htfr ▸ (nodup_cons.mp hn).1) (htfr ▸ hfree ▸ h.balanced.order)
  refine ⟨?_, ?_, ?_, ?_, fun var => ?_⟩
  · rw [uses_release]
    exact ht.uses.trans (uses_lock _ reg)
  · rw [hb, htfr, hfree]
  · have hnot : reg ∉ c.locked := h.free_notMem_locked (hfree ▸ mem_cons_self)
    rw [locked_release, unlock, ht.locked, hlocked, filter_cons_of_neg (by simp)]
    exact filter_eq_self.mpr fun r hr => by simpa using fun heq : r = reg => hnot (heq ▸ hr)
  · rw [held_release]
    have hh := ht.held
    rwa [held_lock] at hh
  · have hd := ht.dirty var
    rw [isDirty, isDirty, dirty_lock] at hd
    rwa [isDirty, dirty_release]

lemma Restored.restore? (hfree : c.free = []) (he : e ∈ c.held)
    (hd : d = { c with held := c.held.filter (·.var != e.var), dirty := c.dirty.filter (· != e.var) })
    (hlocked : (d.lock e.reg).locked = e.reg :: c.locked) (ht : Restored evicted (d.lock e.reg) t) :
    ∃ u, ((t.unlock e.reg).release e.reg).restore? e.reg e.var = some u ∧
      Restored (e.var :: evicted) c u := by
  have htfr : t.free = [] := by rw [ht.free, free_lock, hd, hfree]
  have hba : ((t.unlock e.reg).release e.reg).free = [e.reg] := by
    have hrel : ((t.unlock e.reg).release e.reg).free = e.reg :: t.free :=
      free_release (by simp [unlock, htfr]) (by simpa [unlock, htfr] using h.balanced.mem_pool he)
    rw [hrel, htfr]
  have hh : t.held.Perm (c.held.filter (·.var != e.var)) := by
    have hh := ht.held
    rwa [held_lock, hd] at hh
  have hu : ((t.unlock e.reg).release e.reg).cached? e.var = none := by
    rw [cached?, Option.map_eq_none_iff, place?, find?_eq_none, held_release]
    intro a ha
    simpa using (mem_filter.mp (hh.mem_iff.mp ha)).2
  have hres : ((t.unlock e.reg).release e.reg).restore? e.reg e.var =
      some { (t.unlock e.reg).release e.reg with
        held := e :: ((t.unlock e.reg).release e.reg).held, free := [] } := by
    rw [Cache.restore?, hu, hba]
    simp
  refine ⟨_, hres, ?_, hfree.symm, ?_, ?_, fun var => ?_⟩
  · exact (uses_release _ _).trans (ht.uses.trans ((uses_lock _ e.reg).trans (by rw [hd])))
  · have hnot : e.reg ∉ c.locked := h.reg_notMem_locked he
    rw [locked_release, unlock, ht.locked, hlocked, filter_cons_of_neg (by simp)]
    exact filter_eq_self.mpr fun r hr => by simpa using fun heq : r = e.reg => hnot (heq ▸ hr)
  · refine List.Perm.trans ?_ (perm_filter_var h.balanced.vars he).symm
    exact List.Perm.cons _ ((held_release (t.unlock e.reg) e.reg).symm ▸ hh)
  · have hvar := ht.dirty var
    rw [isDirty, isDirty, dirty_lock, hd] at hvar
    change ((t.unlock e.reg).release e.reg).dirty.contains var = _
    rw [dirty_release, unlock, hvar, contains_filter_dirty, contains_cons, Bool.not_or, Bool.and_assoc]
    rfl

lemma Lending.giveBack (hta : c.take? = some (loan, d)) (ht : Restored evicted (d.lock loan.reg) t) :
    loan.victim = none ∧ Restored evicted c ((t.unlock loan.reg).release loan.reg) ∨
      ∃ var u, loan.victim = some var ∧
        ((t.unlock loan.reg).release loan.reg).restore? loan.reg var = some u ∧
        Restored (var :: evicted) c u := by
  have hlocked := h.locked_lock hta
  rcases h.take?_cases hta with ⟨reg, free, hfree, rfl, rfl⟩ | ⟨hfree, e, he, -, rfl, rfl⟩
  · exact .inl ⟨rfl, .release h hfree hlocked ht⟩
  · obtain ⟨u, hr, hu⟩ := Restored.restore? h hfree he rfl hlocked ht
    exact .inr ⟨e.var, u, rfl, hr, hu⟩

end

lemma place?_eq_of_perm (hvars : (c.held.map CachedVar.var).Nodup)
    (hp : d.held.Perm c.held) (var : String) : d.place? var = c.place? var := by
  have hv' : (d.held.map CachedVar.var).Nodup := (hp.map _).nodup_iff.mpr hvars
  cases hplace : c.place? var with
  | none =>
    rw [place?, find?_eq_none] at hplace ⊢
    exact fun e he => hplace e (hp.mem_iff.mp he)
  | some e =>
    obtain ⟨he, rfl⟩ := mem_of_cached hplace
    exact place?_of_mem hv' (hp.mem_iff.mpr he)

lemma Restored.cached?_eq (h : Restored evicted c d) (hvars : (c.held.map CachedVar.var).Nodup)
    (var : String) : d.cached? var = c.cached? var := by
  rw [cached?, place?_eq_of_perm hvars h.held, cached?]

end Cache

/-! ### Runs of nested loans -/

/-- So many loans, each inside the one before, around a body that succeeds or fails and does nothing
else. -/
def Turn.nested (ok : Bool) : Nat → List (Turn Use)
  | 0 => if ok then [] else [.fail]
  | levels + 1 => [.borrow (nested ok levels)]

def Cache.Loan.store? (loan : Loan) : Option Errand := loan.spill.map .store

def Cache.Loan.load? (loan : Loan) : Option Errand := loan.victim.map (.load · loan.reg)

namespace Trial

variable {body : Reg → EStateM Mishap Trial Unit} {α : Type} {c : Cache} {ok : Bool}

def succeeds : EStateM.Result Mishap Trial α → Bool
  | .ok _ _ => true
  | .error _ _ => false

/-- No errand fails that is sent after `s` and not after `t`. -/
def Smooth (s t : Trial) : Prop := ∀ k, s.errands.length ≤ k → k < t.errands.length → s.fails k = false

lemma smooth_of_errands_eq {s t : Trial} (h : t.errands = s.errands) : Smooth s t :=
  fun k hle hlt => absurd hlt (by rw [h]; omega)

lemma smooth_trans {s t u : Trial} {first rest : List Errand} (ht : t.errands = first ++ s.errands)
    (hf : t.fails = s.fails) (hu : u.errands = rest ++ t.errands) :
    Smooth s u ↔ Smooth s t ∧ Smooth t u := by
  have hst : t.errands.length = first.length + s.errands.length := by rw [ht, length_append]
  have htu : u.errands.length = rest.length + t.errands.length := by rw [hu, length_append]
  refine ⟨fun h => ⟨fun k hle hlt => h k hle (by omega), fun k hle hlt => ?_⟩, ?_⟩
  · rw [hf]
    exact h k (by omega) hlt
  · rintro ⟨hfir, hr⟩ k hle hlt
    by_cases hk : k < t.errands.length
    · exact hfir k hle hk
    · exact hf ▸ hr k (by omega) hlt

/-- How a computation ends that goes through the loans `entered` of at most `levels` levels, with
`spare` registers to start from. -/
structure Unwinds (ok : Bool) (levels spare : Nat) (entered all : List Loan) (s : Trial)
    (r : EStateM.Result Mishap Trial Unit) : Prop where
  first : entered <+: all
  restored : Restored (entered.filterMap victim) s.cache (endOf r).cache
  errands : (endOf r).errands =
    entered.filterMap load? ++ (entered.filterMap store?).reverse ++ s.errands
  fails : (endOf r).fails = s.fails
  succeeds : succeeds r ↔ levels ≤ spare ∧ ok ∧ Smooth s (endOf r)
  complete : Smooth s (endOf r) → entered = all

variable {s : Trial} {lent : List Reg}

lemma returnRegister_restored {evicted : List String} {t : Trial} (h : s.cache.Lending lent)
    (hta : s.cache.take? = some (loan, c)) (ht : Restored evicted (c.lock loan.reg) t.cache) :
    let r : EStateM.Result Mishap Trial Unit := returnRegister loan t
    Restored (loan.victim.toList ++ evicted) s.cache (endOf r).cache ∧
      (endOf r).errands = loan.load?.toList ++ t.errands ∧ (endOf r).fails = t.fails ∧
      (succeeds r ↔ Smooth t (endOf r)) := by
  intro r
  rcases h.giveBack hta ht with ⟨hv, hb⟩ | ⟨var, u, hv, hres, hb⟩
  · have hr : r = .ok () { t with cache := (t.cache.unlock loan.reg).release loan.reg } := by
      dsimp only [r, returnRegister]
      rw [hv, Option.bind_none]
      rfl
    rw [hr, load?, hv]
    exact ⟨hb, rfl, rfl, iff_of_true rfl (smooth_of_errands_eq rfl)⟩
  · have hr : r = send (.load var loan.reg) { t with cache := u } := by
      dsimp only [r, returnRegister, RegisterOwner.registers]
      rw [hv, Option.bind_some, hres, Option.map_some]
      rfl
    rw [hr, load?, endOf_send]
    have hsmooth : Smooth t { t with cache := u, errands := .load var loan.reg :: t.errands } ↔
        t.fails t.errands.length = false :=
      ⟨fun hall => hall _ le_rfl (Nat.lt_succ_self _), fun hl k hle hlt => by
        cases Nat.le_antisymm (Nat.lt_succ_iff.mp hlt) hle
        exact hl⟩
    rw [send]
    split <;> simp_all [succeeds]

/-- What runs under a loan goes through the loans of its body. Where the store fails that the loan starts
with, it goes through none. -/
lemma unwinds_underLoan {spare : Nat} {all : List Loan}
    (hb : ∀ t : Trial, t.cache = s.cache → ∃ entered, Unwinds ok levels spare entered all t (body loan.reg t)) :
    ∃ entered, entered <+: all ∧
      let r := underLoan loan body s
      Restored (entered.filterMap victim) s.cache (endOf r).cache ∧
      (endOf r).errands = entered.filterMap load? ++ (entered.filterMap store?).reverse ++
        (loan.store?.toList ++ s.errands) ∧ (endOf r).fails = s.fails ∧
      (succeeds r ↔ levels ≤ spare ∧ ok ∧ Smooth s (endOf r)) ∧
      (Smooth s (endOf r) → entered = all) := by
  cases hs : loan.spill with
  | none =>
    obtain ⟨entered, h⟩ := hb s rfl
    have hrun : underLoan loan body s = body loan.reg s := by rw [underLoan, hs]
    rw [hrun, store?, hs]
    exact ⟨entered, h.first, h.restored, h.errands, h.fails, h.succeeds, h.complete⟩
  | some store =>
    have hsto : loan.store? = some (.store store) := by rw [store?, hs, Option.map_some]
    have hrun : underLoan loan body s = (send (.store store) >>= fun _ => body loan.reg) s := by
      rw [underLoan, hs]
      rfl
    rw [hrun, hsto]
    by_cases hf : s.fails s.errands.length
    · have hr : (send (.store store) >>= fun _ => body loan.reg) s =
          .error .failed { s with errands := .store store :: s.errands } := by
        change EStateM.bind _ _ _ = _
        rw [EStateM.bind, send, if_pos hf]
      have hrou : ¬ Smooth s { s with errands := .store store :: s.errands } := fun hall => by
        have hl := hall _ le_rfl (Nat.lt_succ_self _)
        rw [hf] at hl
        cases hl
      rw [hr]
      exact ⟨[], nil_prefix, restored_refl _, rfl, rfl,
        iff_of_false (by simp [succeeds]) fun h => hrou h.2.2, fun h => absurd h hrou⟩
    · have hr : (send (.store store) >>= fun _ => body loan.reg) s =
          body loan.reg { s with errands := .store store :: s.errands } := by
        change EStateM.bind _ _ _ = _
        rw [EStateM.bind, send, if_neg hf]
      obtain ⟨entered, h⟩ := hb { s with errands := .store store :: s.errands } rfl
      have hfir : Smooth s { s with errands := .store store :: s.errands } := fun k hle hlt => by
        cases Nat.le_antisymm (Nat.lt_succ_iff.mp hlt) hle
        simpa using hf
      have hse : (.store store :: s.errands : List Errand) = [.store store] ++ s.errands := rfl
      have hsmooth := smooth_trans (t := { s with errands := .store store :: s.errands }) hse rfl h.errands
      rw [hr]
      refine ⟨entered, h.first, h.restored, h.errands, h.fails, ?_, fun hall => h.complete (hsmooth.mp hall).2⟩
      rw [h.succeeds, hsmooth, and_iff_right hfir]

lemma ends_withRegister (body : Reg → EStateM Mishap Trial α) (h : s.cache.take? = some (loan, c)) :
    let r := underLoan loan body { s with cache := c.lock loan.reg }
    endOf (withRegister body s) = endOf (returnRegister loan (endOf r)) ∧ succeeds (withRegister body s) =
      (succeeds r && succeeds (returnRegister loan (endOf r) : EStateM.Result Mishap Trial Unit)) := by
  intro r
  rw [withRegister]
  dsimp only [RegisterOwner.registers]
  rw [h]
  dsimp only
  split
  · rename_i a t ht
    rw [show r = .ok a t from ht, endOf_ok]
    cases returnRegister loan t <;> exact ⟨rfl, rfl⟩
  · rename_i e t ht
    rw [show r = .error e t from ht, endOf_error]
    cases returnRegister loan t <;> exact ⟨rfl, rfl⟩

lemma unwinds_withRegister (h : s.cache.Lending lent)
    (hb : ∀ (t : Trial) (reg : Reg), t.cache.Lending (reg :: lent) →
      ∃ entered, Unwinds ok levels (3 - (lent.length + 1)) entered (t.cache.lend levels) t (body reg t)) :
    ∃ entered, Unwinds ok (levels + 1) (3 - lent.length) entered (s.cache.lend (levels + 1)) s
      (withRegister body s) := by
  cases hta : s.cache.take? with
  | none =>
    have hfu := h.take?_eq_none hta
    rw [withRegister, lend]
    dsimp only [RegisterOwner.registers]
    rw [hta]
    exact ⟨[], prefix_rfl, restored_refl _, rfl, rfl,
      iff_of_false (by simp [succeeds]) (by omega), fun _ => rfl⟩
  | some p =>
    obtain ⟨loan, c⟩ := p
    have hl := h.lock hta
    have hs := hl.length_le
    rw [length_cons] at hs
    have hu t (ht : t.cache = c.lock loan.reg) : ∃ entered,
        Unwinds ok levels (3 - (lent.length + 1)) entered ((c.lock loan.reg).lend levels) t
          (body loan.reg t) := by
      have hinn := hb t loan.reg (ht ▸ hl)
      rwa [ht] at hinn
    obtain ⟨entered, hfir, hr, herr, hf, hsucceeds, hc⟩ :=
      unwinds_underLoan (s := { s with cache := c.lock loan.reg }) hu
    obtain ⟨hr', he', hf', hs'⟩ := returnRegister_restored h hta hr
    have hsmooth := smooth_trans (s := s) (herr.trans (append_assoc _ _ _).symm) hf he'
    obtain ⟨hend, hsuc⟩ := ends_withRegister body hta
    rw [lend, hta]
    refine ⟨loan :: entered, cons_prefix_cons.mpr ⟨rfl, hfir⟩, ?_, ?_, ?_, ?_, ?_⟩
    · rw [hend]
      cases hv : loan.victim <;> simpa [hv] using hr'
    · rw [hend, he', herr, filterMap_cons, filterMap_cons]
      cases loan.load? <;> cases loan.store? <;> simp
    · rw [hend, hf', hf]
    · rw [hend, hsuc, Bool.and_eq_true, hsucceeds, hs', hsmooth]
      have hroom : levels + 1 ≤ 3 - lent.length ↔ levels ≤ 3 - (lent.length + 1) := by omega
      rw [hroom, and_assoc, and_assoc]
      rfl
    · rw [hend, hsmooth]
      exact fun hall => congrArg (loan :: ·) (hc hall.1)

lemma runAll_nested_succ :
    Turn.runAll lent (Turn.nested ok (levels + 1)) s =
      match Turn.lent lent (Turn.nested ok levels) s with
      | .ok _ t => .ok () (Stage.note lent t)
      | .error e t => .error e (Stage.note lent t) := by
  have hone : (Turn.runAll lent (Turn.nested ok (levels + 1)) : EStateM Mishap Trial Unit) =
      Turn.run lent (.borrow (Turn.nested ok levels)) := by
    rw [Turn.nested, Turn.runAll, Turn.runAll]
    exact bind_pure_unit
  rw [hone, Turn.run_borrow]
  cases Turn.lent lent (Turn.nested ok levels) s <;> rfl

lemma unwinds_nested (ok : Bool) (levels : Nat) : ∀ {s : Trial} {lent : List Reg},
    s.cache.Lending lent → ∃ entered, Unwinds ok levels (3 - lent.length) entered
      (s.cache.lend levels) s (Turn.runAll lent (Turn.nested ok levels) s) := by
  induction levels with
  | zero =>
    intro s lent h
    cases ok with
    | true =>
      exact ⟨[], prefix_rfl, restored_refl _, rfl, rfl,
        iff_of_true rfl ⟨Nat.zero_le _, rfl, smooth_of_errands_eq rfl⟩, fun _ => rfl⟩
    | false =>
      exact ⟨[], prefix_rfl, restored_refl _, rfl, rfl,
        iff_of_false (Bool.false_ne_true) fun hall => Bool.false_ne_true hall.2.1, fun _ => rfl⟩
  | succ levels ih =>
    intro s lent h
    have hb t reg (ht : t.cache.Lending (reg :: lent)) : ∃ entered,
        Unwinds ok levels (3 - (lent.length + 1)) entered (t.cache.lend levels) t
          ((modify (Stage.note (reg :: lent)) >>= fun _ => Turn.runAll (reg :: lent) (Turn.nested ok levels)) t) := by
      obtain ⟨entered, hin⟩ := ih (s := Stage.note (reg :: lent) t) ht
      exact ⟨entered, hin.first, hin.restored, hin.errands, hin.fails, hin.succeeds, hin.complete⟩
    obtain ⟨entered, hall⟩ := unwinds_withRegister h hb
    refine ⟨entered, ?_⟩
    rw [runAll_nested_succ]
    change Unwinds _ _ _ _ _ s (Turn.lent lent (Turn.nested ok levels) s) at hall
    cases hr : Turn.lent lent (Turn.nested ok levels) s with
    | ok _ t | error e t =>
      rw [hr] at hall
      exact ⟨hall.first, hall.restored, hall.errands, hall.fails, hall.succeeds, hall.complete⟩

end Trial

/-- Loans nested to any depth, while no register is locked, with a body that succeeds or fails and does nothing
else, and with any errands that fail.

Afterwards the free registers, the registers of the variables and the locks are as they were, and the variables
are dirty that were dirty and have not been evicted. The loads show which have been: the loans that were `entered`
ask for stores on the way in and for loads on the way out. All succeeds only if every level finds a register, the
body succeeds and no errand fails. A level takes a free register, or else that of the variable worth least. -/
theorem nested_restored (uses : List (String × Nat)) (history : Nat → Bool) (ts : List (Turn Use))
    (c : Cache) (lent : List Reg)
    (hmoment : let s := endOf (Turn.runAll [] ts (start uses history))
      (c, lent) ∈ (s.cache, []) :: s.past)
    (hlocked : c.locked = []) (fails : Nat → Bool) (ok : Bool) (levels : Nat) :
    let r := Turn.runAll lent (Turn.nested ok levels) { cache := c, fails }
    let t := endOf r
    let smooth := ∀ k < t.errands.length, fails k = false
    (t.cache.free = c.free ∧ (∀ var, t.cache.cached? var = c.cached? var) ∧ t.cache.locked = []) ∧
      (succeeds r ↔ levels + lent.length ≤ 3 ∧ ok ∧ smooth) ∧
      ∃ entered : List Loan,
        (∀ var, t.cache.isDirty var = (c.isDirty var && !(entered.filterMap victim).contains var)) ∧
        t.errands = entered.filterMap load? ++ (entered.filterMap store?).reverse ∧
        entered.length ≤ min levels (3 - lent.length) ∧
        (smooth → entered.length = min levels (3 - lent.length)) ∧
        ∀ before loan after, entered = before ++ loan :: after → (∃ hlt : before.length < c.free.length,
            loan = { reg := c.free.get ⟨before.length, hlt⟩ }) ∨
          c.free.length ≤ before.length ∧ ∃ e ∈ c.held,
            loan = ⟨e.reg, some e.var, if c.isDirty e.var then some ⟨e.var, e.reg⟩ else none⟩ ∧
            e.var ∉ before.filterMap victim ∧
            ∀ a ∈ c.held, a.var ∉ before.filterMap victim → c.worth e.var ≤ c.worth a.var := by
  intro r t smooth
  have hs := sound_runAll uses history ts
  have hbalanced : c.Balanced lent := by
    rcases List.mem_cons.mp hmoment with heq | hpast
    · obtain ⟨rfl, rfl⟩ := Prod.mk.inj heq
      exact hs.now.balanced
    · exact (hs.past _ hpast).balanced
  have hlending : c.Lending lent := ⟨hbalanced, fun reg hreg => absurd (hlocked ▸ hreg) List.not_mem_nil⟩
  have hvars := hbalanced.vars
  obtain ⟨entered, h⟩ := unwinds_nested ok levels (s := { cache := c, fails }) hlending
  have hsmooth : Smooth { cache := c, fails } t ↔ smooth :=
    ⟨fun hall k hlt => hall k (Nat.zero_le k) hlt, fun hall k _ hlt => hall k hlt⟩
  have hlength := hlending.length_lend levels
  have hle := hlending.length_le
  refine ⟨⟨h.restored.free, h.restored.cached?_eq hvars, h.restored.locked.trans hlocked⟩, ?_, entered,
    h.restored.dirty, ?_, ?_, fun hall => ?_, fun before loan after hentered => ?_⟩
  · rw [h.succeeds, hsmooth]
    have hroom : levels ≤ 3 - lent.length ↔ levels + lent.length ≤ 3 := by omega
    rw [hroom]
  · exact h.errands.trans (List.append_nil _)
  · exact hlength ▸ h.first.length_le
  · rw [h.complete (hsmooth.mpr hall), hlength]
  · obtain ⟨rest, hlend⟩ := h.first
    rw [hentered, List.append_assoc, List.cons_append] at hlend
    exact hlending.lend_eq_append_cons hlend.symm

/-- Three variables in registers, one of them dirty: a fourth level finds no register, and what the other
three took is given back. -/
theorem nested_restored_four :
    let s := endOf (Turn.runAll [] (([.cache "a", .cache "b", .cache "c", .markDirty "b"] : List Use).map .act)
      (start [("a", 2), ("b", 1), ("c", 3)] fun _ => false))
    let r := Turn.runAll [] (Turn.nested true 4) { cache := s.cache, fails := fun _ => false }
    s.cache.locked = [] ∧ s.cache.cached? "b" = some .ecx ∧ s.cache.isDirty "b" ∧
      succeeds r = false ∧ (endOf r).cache.free = s.cache.free ∧
      (endOf r).cache.cached? "b" = some .ecx := by
  intro s r
  have hlocked : s.cache.locked = [] := by cbv
  have hcached : s.cache.cached? "b" = some .ecx := by cbv
  have hdirty : s.cache.isDirty "b" := by cbv
  obtain ⟨⟨hfree, hall, -⟩, hsucceeds, -⟩ := nested_restored [("a", 2), ("b", 1), ("c", 3)] (fun _ => false)
      (([.cache "a", .cache "b", .cache "c", .markDirty "b"] : List Use).map .act) s.cache [] List.mem_cons_self hlocked
      (fun _ => false) true 4
  refine ⟨hlocked, hcached, hdirty, ?_, hfree, (hall "b").trans hcached⟩
  exact Bool.eq_false_iff.mpr fun h => absurd (hsucceeds.mp h).1 (by decide)

end Garnet
