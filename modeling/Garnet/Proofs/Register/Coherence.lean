import Garnet.Proofs.Register.Course
import Mathlib.Data.List.Nodup

/-!
# No value is lost between registers and homes

A machine with a register file and a home word for each variable carries out what the register cache
asks for: a spill stores a register to a home, a reload and a newly assigned register load one. A
variable is in its register while it is cached, and in its home otherwise.

A move is a use of the cache, a write to a variable, or the ruin of a scratch register. The main statement,
about every course of moves, is `current_eq_written`.
-/

namespace Garnet

variable {c : Cache} {var : String} {reg : Reg}

open List Cache Function

variable {V : Type}

/-! ### The machine -/

/-- What registers and homes contain, and the value last written to each variable. -/
structure Moment (V : Type) where
  cache : Cache
  regs : Reg → V
  homes : String → V
  written : String → V

namespace Moment

variable (m : Moment V)

/-- The value that a variable has: its register if it is cached, else its home. -/
def current (var : String) : V := match m.cache.cached? var with
  | some reg => m.regs reg
  | none => m.homes var

def store (s : Spill) : Moment V :=
  { m with homes := update m.homes s.var (m.regs s.reg) }

def load (var : String) (reg : Reg) : Moment V :=
  { m with regs := update m.regs reg (m.homes var) }

/-- Follow an eviction: change the cache and carry out the spills. -/
def follow (r : List Spill × Cache) : Moment V :=
  r.1.foldl store { m with cache := r.2 }

/-- Ask for a register, and load a newly assigned one. -/
def fetch (var : String) : Moment V := match m.cache.cached? var with
  | some _ => m
  | none =>
    match m.cache.cache var with
    | (some reg, c) => { m with cache := c }.load var reg
    | (none, c) => { m with cache := c }

/-- Write a variable: in its register, which is then newer than the home, or else in its home. -/
def write (var : String) (value : V) : Moment V := match m.cache.cached? var with
  | some reg =>
    { cache := m.cache.markDirty var
      regs := update m.regs reg value
      homes := m.homes
      written := update m.written var value }
  | none =>
    { m with
      homes := update m.homes var value
      written := update m.written var value }

end Moment

/-- A moment and those before it, the last one first. -/
structure Course (V : Type) where
  now : Moment V
  past : List (Moment V) := []

/-- One operation. -/
inductive Move (V : Type) where
  | use (u : Use)
  | write (var : String) (value : V)
  /-- Ruin the scratch register of the loan at a depth, the innermost one at depth zero. -/
  | clobber (depth : Nat) (value : V)

/-- What a move does, among the scratch registers `loans`. -/
def Move.on (loans : List Reg) (m : Moment V) : Move V → Moment V
  | .use (.cache var) => m.fetch var
  | .use u => m.follow (u.on m.cache)
  | .write var value => m.write var value
  | .clobber depth value =>
    match loans[depth]? with
    | some reg => { m with regs := update m.regs reg value }
    | none => m

instance : Stage (Move V) (Course V) where
  registers s := s.now.cache
  setRegisters c s := { s with now := { s.now with cache := c } }
  spill sp := modify fun s => { s with now := s.now.store sp }
  reload var reg := modify fun s => { s with now := s.now.load var reg }
  exhausted := .exhausted
  act loans a s := { s with now := a.on loans s.now }
  note _ s := { s with past := s.now :: s.past }

/-! ### Coherent moments -/

namespace Moment

variable {lent : List Reg}

/-- A register that holds a variable contains its last value, and so does the home of a variable that
is not dirty. -/
structure Coherent (m : Moment V) (loans : List Reg) : Prop where
  balanced : m.cache.Balanced loans
  held : ∀ e ∈ m.cache.held, m.regs e.reg = m.written e.var
  home : ∀ var, m.cache.isDirty var = false → m.homes var = m.written var

variable {m : Moment V} {loans : List Reg}

variable (h : m.Coherent loans)
include h

lemma Coherent.current_eq : m.current = m.written := by
  funext var
  rw [current, cached?]
  cases hplace : m.cache.place? var with
  | none => exact h.home var (h.balanced.isDirty_of_uncached (by rw [cached?, hplace]; rfl))
  | some e =>
    obtain ⟨he, rfl⟩ := mem_of_cached hplace
    exact h.held e he

lemma Coherent.reg_notMem_loans {e : CachedVar} (he : e ∈ m.cache.held) :
    e.reg ∉ m.cache.free ++ loans := fun hmem =>
  (nodup_append.mp h.balanced.nodup).2.2 e.reg (mem_map_of_mem he) e.reg hmem rfl

lemma Coherent.of_held_eq (hc : c.Balanced lent) (hh : c.held = m.cache.held)
    (hd : c.dirty = m.cache.dirty) : Coherent { m with cache := c } lent where
  balanced := hc
  held e he := h.held e (hh ▸ he)
  home var hcle := h.home var (by rwa [isDirty, hd] at hcle)

/-! ### Single moves -/

omit h in
lemma foldl_store_with_cache (m : Moment V) (c : Cache) (spills : List Spill) :
    spills.foldl store { m with cache := c } = { spills.foldl store m with cache := c } := by
  induction spills generalizing m with
  | nil => rfl
  | cons s spills ih => exact ih (m.store s)

lemma Coherent.follow_evict (var : String) :
    (m.follow ((m.cache.evict var).1.toList, (m.cache.evict var).2)).Coherent loans := by
  cases hplace : m.cache.place? var with
  | none =>
    have hevi : m.cache.evict var = (none, m.cache) := by rw [evict, hplace]
    rwa [hevi]
  | some e =>
    obtain ⟨he, rfl⟩ := mem_of_cached hplace
    -- dirty or not, the home ends up with the last value
    have hf : m.follow ((m.cache.evict e.var).1.toList, (m.cache.evict e.var).2) = { m with
          cache := (m.cache.evict e.var).2
          homes := update m.homes e.var (m.written e.var) } := by
      have hs : (m.cache.evict e.var).1 = if m.cache.isDirty e.var then some ⟨e.var, e.reg⟩ else none := by
        rw [evict, hplace]
      rw [hs]
      cases hd : m.cache.isDirty e.var with
      | true => simp [follow, store, h.held e he]
      | false => simp [follow, ← h.home e.var hd]
    rw [hf]
    refine ⟨h.balanced.evict e.var, fun a ha => h.held a ?_, fun other hc => ?_⟩
    · rw [held_evict] at ha
      exact (mem_filter.mp ha).1
    · by_cases ho : other = e.var
      · rw [ho]
        exact update_self ..
      · rw [isDirty_evict h.balanced, bne_iff_ne.mpr ho, Bool.and_true] at hc
        exact (update_of_ne ho ..).trans (h.home other hc)

lemma Coherent.follow_evictEach (vars : List String) :
    (m.follow (m.cache.evictEach vars)).Coherent loans := by
  induction vars generalizing m with
  | nil => exact h
  | cons var vars ih =>
    have hs : m.follow (m.cache.evictEach (var :: vars)) =
        (m.follow ((m.cache.evict var).1.toList, (m.cache.evict var).2)).follow
          ((m.cache.evict var).2.evictEach vars) := by
      simp only [follow, evictEach, foldl_append, foldl_store_with_cache]
    have hc : (m.follow ((m.cache.evict var).1.toList, (m.cache.evict var).2)).cache =
        (m.cache.evict var).2 := by
      rw [follow, foldl_store_with_cache]
    have hr := ih (h.follow_evict var)
    rw [hc] at hr
    rwa [hs]

lemma Coherent.assign (hc : c.Balanced lent) (hvar : m.cache.cached? var = none)
    (hreg : reg ∈ m.cache.free ++ loans) (hh : c.held = ⟨var, reg⟩ :: m.cache.held)
    (hd : c.dirty = m.cache.dirty) : (Moment.load { m with cache := c } var reg).Coherent lent where
  balanced := hc
  held e he := by
    have he : e ∈ c.held := he
    rw [hh, mem_cons] at he
    rcases he with rfl | he
    · exact (update_self ..).trans (h.home var (h.balanced.isDirty_of_uncached hvar))
    · have hne : e.reg ≠ reg := fun heq => h.reg_notMem_loans he (heq ▸ hreg)
      exact (update_of_ne hne ..).trans (h.held e he)
  home other hcle := by
    have hcle : c.isDirty other = false := hcle
    rw [isDirty, hd] at hcle
    exact h.home other hcle

lemma Coherent.fetch (var : String) : (m.fetch var).Coherent loans := by
  rw [Moment.fetch]
  split
  · exact h
  · rename_i hvar
    have hbal := h.balanced.cache var
    rw [Cache.cache, hvar] at hbal ⊢
    cases hf : m.cache.free with
    | nil => exact h
    | cons reg free =>
      rw [hf] at hbal
      by_cases hu : m.cache.uses.contains var = true
      · simp only [hu] at hbal ⊢
        exact h.assign hbal hvar (by simp [hf]) rfl rfl
      · simp only [hu]
        exact h

lemma Coherent.markDirty (var : String) : Coherent { m with cache := m.cache.markDirty var } loans where
  balanced := h.balanced.markDirty var
  held e he := h.held e (held_markDirty m.cache var ▸ he)
  home other hc := by
    rw [isDirty_markDirty, Bool.or_eq_false_iff] at hc
    exact h.home other hc.1

lemma Coherent.write (var : String) (value : V) : (m.write var value).Coherent loans := by
  rw [Moment.write]
  split
  · rename_i reg hreg
    obtain ⟨e, hplace, rfl⟩ := Option.map_eq_some_iff.mp hreg
    obtain ⟨he, rfl⟩ := mem_of_cached hplace
    -- the variable has one register, and no other variable has the same one
    have hval : ∀ a ∈ m.cache.held, update m.regs e.reg value a.reg =
        update m.written e.var value a.var := by
      intro a ha
      by_cases heq : a = e
      · rw [heq, update_self, update_self]
      · have hvar : a.var ≠ e.var := fun hv => heq (inj_on_of_nodup_map h.balanced.vars ha he hv)
        have hreg : a.reg ≠ e.reg := fun hr => heq (inj_on_of_nodup_map h.balanced.nodup_held ha he hr)
        rw [update_of_ne hreg, update_of_ne hvar, h.held a ha]
    refine ⟨h.balanced.markDirty e.var, ?_, ?_⟩
    · exact fun a ha => hval a (held_markDirty m.cache e.var ▸ ha)
    · intro other hc
      rw [isDirty_markDirty, hreg, Bool.or_eq_false_iff] at hc
      have hne : other ≠ e.var := by simpa using hc.2
      exact (h.home other hc.1).trans (update_of_ne hne ..).symm
  · rename_i hvar
    refine ⟨h.balanced, fun e he => ?_, fun other hc => ?_⟩
    · have hne : e.var ≠ var := by
        rintro rfl
        rw [cached?, Option.map_eq_none_iff] at hvar
        exact notMem_vars_of_uncached hvar (mem_map_of_mem he)
      exact (h.held e he).trans (update_of_ne hne ..).symm
    · by_cases ho : other = var
      · simp only [ho, update_self]
      · exact (update_of_ne ho ..).trans
          ((h.home other hc).trans (update_of_ne ho ..).symm)

lemma Coherent.clobber (hreg : reg ∈ loans) (value : V) :
    Coherent { m with regs := update m.regs reg value } loans where
  balanced := h.balanced
  held e he := by
    have hne : e.reg ≠ reg := fun heq => h.reg_notMem_loans he (mem_append_right _ (heq ▸ hreg))
    exact (update_of_ne hne ..).trans (h.held e he)
  home := h.home

lemma Coherent.on (a : Move V) : (a.on loans m).Coherent loans := by
  cases a with
  | use u =>
    cases u with
    | cache var => exact h.fetch var
    | markDirty var => exact h.markDirty var
    | evict var => exact h.follow_evict var
    | evictAll | evictCallerSaved => exact h.follow_evictEach _
    | lock reg => exact h.of_held_eq (h.balanced.lock reg) (held_lock m.cache reg) (dirty_lock m.cache reg)
    | unlock reg => exact h.of_held_eq (h.balanced.unlock reg) rfl rfl
  | write var value => exact h.write var value
  | clobber depth value =>
    rw [Move.on]
    split
    · rename_i reg hreg
      exact h.clobber (mem_of_getElem? hreg) value
    · exact h

end Moment

/-! ### Loans -/

namespace Course

variable {α : Type} {loan : Loan}

/-- The present is coherent, and in the past every variable had its last value. -/
structure Sound (s : Course V) (loans : List Reg) : Prop where
  now : s.now.Coherent loans
  past : ∀ m ∈ s.past, m.current = m.written

variable {s : Course V} {loans : List Reg}

lemma coherent_take {m : Moment V} (h : m.Coherent loans) (ht : m.cache.take? = some (loan, c)) :
    (m.follow (loan.spill.toList, c.lock loan.reg)).Coherent (loan.reg :: loans) := by
  have hbal : (c.lock loan.reg).Balanced (loan.reg :: loans) := (h.balanced.take? ht).lock loan.reg
  -- the variables in registers stay, or one of them leaves
  rcases take?_eq_some ht with ⟨reg, free, -, rfl, rfl⟩ | ⟨-, victim, reg, free, -, -, rfl, rfl⟩
  · exact h.of_held_eq hbal (held_lock _ reg) (dirty_lock _ reg)
  · have hevi := (h.follow_evict victim).of_held_eq hbal
      ((held_lock _ reg).trans (by rw [Moment.follow, Moment.foldl_store_with_cache]))
      ((dirty_lock _ reg).trans (by rw [Moment.follow, Moment.foldl_store_with_cache]))
    rwa [Moment.follow, Moment.foldl_store_with_cache] at hevi ⊢

lemma restore?_eq_some {d : Cache} (h : c.restore? reg var = some d) :
    c.cached? var = none ∧ d.held = ⟨var, reg⟩ :: c.held ∧ d.dirty = c.dirty ∧ d.uses = c.uses := by
  rw [restore?] at h
  split at h
  · cases h
  · rename_i hc
    cases h
    rw [Bool.or_eq_true, not_or] at hc
    exact ⟨by simpa using hc.1, rfl, rfl, rfl⟩

lemma returnRegister_sound (h : s.Sound (loan.reg :: loans)) :
    ∃ t, returnRegister loan s = .ok () t ∧ t.Sound loans := by
  have hbal : ((s.now.cache.unlock loan.reg).release loan.reg).Balanced loans :=
    (h.now.balanced.unlock loan.reg).release
  have hh : ((s.now.cache.unlock loan.reg).release loan.reg).held = s.now.cache.held := held_release _ _
  have hd : ((s.now.cache.unlock loan.reg).release loan.reg).dirty = s.now.cache.dirty := dirty_release _ _
  rw [returnRegister]
  dsimp only [RegisterOwner.registers]
  split
  · rename_i var d hr
    obtain ⟨victim, -, hr⟩ := Option.bind_eq_some_iff.mp hr
    obtain ⟨d', hback, heq⟩ := Option.map_eq_some_iff.mp hr
    cases heq
    obtain ⟨hu, ha, hclean, -⟩ := restore?_eq_some hback
    refine ⟨_, rfl, ?_, h.past⟩
    refine h.now.assign (hbal.restore? hback) ?_ (by simp) (ha.trans (by rw [hh])) (hclean.trans hd)
    rwa [cached?, place?, hh] at hu
  · exact ⟨_, rfl, h.now.of_held_eq hbal hh hd, h.past⟩

lemma kept_sound : Kept fun loans (s : Course V) => s.Sound loans where
  act a h := ⟨h.now.on a, h.past⟩
  note h := ⟨h.now, forall_mem_cons.mpr ⟨h.now.current_eq, h.past⟩⟩
  loan {loans body} hb := by
    refine .withRegister fun s loan c hs hta => ⟨(Sound · (loan.reg :: loans)), ?_, fun t ht => ?_⟩
    · have hend := hb loan.reg { s with now := s.now.follow (loan.spill.toList, c.lock loan.reg) }
        ⟨coherent_take hs.now hta, hs.past⟩
      cases hspi : loan.spill <;> rw [hspi] at hend <;> exact hend
    · obtain ⟨u, hu, hsou⟩ := returnRegister_sound ht
      rwa [hu]

variable (uses : List (String × Nat))

/-- No variable cached, and every home as it was last written. -/
def start (regs : Reg → V) (homes : String → V) : Course V where
  now := { cache := .new uses, regs, homes, written := homes }

lemma sound_start (regs : Reg → V) (homes : String → V) :
    (start uses regs homes).Sound [] where
  now := ⟨balanced_new uses, fun _ he => absurd he not_mem_nil, fun _ _ => rfl⟩
  past _ hm := absurd hm not_mem_nil

/-- At every moment of a course, inside loans, after failures and at the end, each variable has the
value last written to it. -/
theorem current_eq_written (regs : Reg → V) (homes : String → V)
    (moves : List (Turn (Move V))) :
    let s := endOf (Turn.runAll [] moves (start uses regs homes))
    ∀ m ∈ s.now :: s.past, ∀ var, m.current var = m.written var := by
  intro s m hm var
  have hs : s.Sound [] := ends_iff.mp (kept_sound.runAll [] moves _ (sound_start uses regs homes))
  rcases List.mem_cons.mp hm with rfl | hm
  · rw [hs.now.current_eq]
  · rw [hs.past m hm]

end Course

end Garnet
