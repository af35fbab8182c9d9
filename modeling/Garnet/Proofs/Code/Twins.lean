import Garnet.Proofs.Code.Tenancy
import Garnet.Proofs.Code.Writing
import Garnet.Proofs.Tree.Everywhere

/-!
# A code and its private code, written together

`Twins r t s s'` says that two emitters of the routine `r`, of the code and of the private code, are at the same
place, and that the tenancy `t` fits to what they have written. They differ in slots only.

`Follows r t m m' Q` says that from twins whose tenancy extends `t`, if `m` ends without a fault, so does `m'`, the
two are twins again, what was in use is in use for the same purpose, and the results satisfy `Q` under the new
tenancy. A function that gives slots back keeps what is in use under `b`, the tenancy at the mark
(`Frees r b t m m'`). The two are joined where the mark is made (`Follows.mark`).
-/

namespace Garnet

variable {stem : String} {l : Line} {γ : Type} {r : Routine}

open List Reg Label Cache Tenancy Operand

/-! ### Lines that stand for each other -/

/-- A label that `break` comes back to. -/
def Label.IsBreak (name : String) : Prop := ∃ id : Int, name = ".Lbrk_" ++ Numeral.decimal id

/-- A stem of labels that `break` does not come back to. -/
def Label.isPlainStem (stem : String) : Bool := isStem stem && stem != "brk_"

lemma Label.not_isBreak_inner (h : isPlainStem stem) (k : Int) : ¬IsBreak (inner stem k) := by
  rw [isPlainStem, Bool.and_eq_true, bne_iff_ne] at h
  rintro ⟨id, hid⟩
  have hbrk : inner stem k = inner "brk_" id := hid
  exact h.2 (inner_injective h.1 (by decide) hbrk).1

def Operand.isOutside : Operand → Bool
  | .mem base _ | .symMem _ base => base != ebp
  | .indirect o => o.isOutside
  | _ => true

lemma Operand.isFixed_of_isOutside {o : Operand} (h : o.isOutside) : o.IsFixed r := by
  induction o with
  | mem base disp | symMem name base => cases base <;> trivial
  | indirect o ih => exact ih h
  | _ => trivial

lemma Operand.isFixed_arg {i : Nat} (h : i ≤ r.argWords) : (arg i).IsFixed r := Or.inl ⟨i, h, rfl⟩

/-- A label, or an instruction whose operands are outside the frame. -/
def Line.isPlain : Line → Bool
  | .ins _ operands => operands.all isOutside
  | .label _ => true
  | _ => false

namespace Tenancy

variable {r : Routine} {t u : Tenancy}

/-- A line that can be written, and the one that stands for it. It sets up no handler and is not a label that
`break` comes back to. -/
inductive Writes (r : Routine) (t : Tenancy) : Line → Line → Prop
  | ins {opcode os os'} : List.Forall₂ (t.Holds r) os os' → (Line.ins opcode os').handler? = none →
      Writes r t (.ins opcode os) (.ins opcode os')
  | label {name} : ¬IsBreak name → Writes r t (.label name) (.label name)

lemma Writes.mono (htu : t ≤ u) {l' : Line} (h : t.Writes r l l') : u.Writes r l l' := by
  cases h with
  | ins hos hh => exact .ins (hos.imp fun _ _ => Holds.mono htu) hh
  | label hn => exact .label hn

lemma Writes.fits {l' : Line} (hl : t.Writes r l l') {place : Nat → Nat} {n m : Nat}
    {code code' : List Line} (h : t.Fits r place n m code code') :
    t.Fits r place n m (code ++ [l]) (code' ++ [l']) := by
  cases hl with
  | ins hos hh =>
    refine h.ins hos fun f handler heq => ?_
    rw [heq] at hh
    cases hh
  | label hn => exact h.label fun id i hid => absurd ⟨id, hid⟩ hn

lemma handler?_of_all_isOutside {opcode : String} {os : List Operand} (h : os.all isOutside) :
    (Line.ins opcode os).handler? = none := by
  rw [Line.handler?.eq_def]
  split
  · rename_i src dst heq
    cases heq
    have hdst : dst.isInFrame = false := by
      cases dst with
      | mem base disp => cases base <;> first | rfl | simp [isOutside] at h
      | _ => rfl
    rw [hdst, if_neg Bool.false_ne_true]
  · rfl

lemma writes_self (h : l.isPlain) (hl : ∀ name ∈ l.label?, ¬IsBreak name) : t.Writes r l l := by
  cases l with
  | ins opcode os =>
    refine .ins (forall₂_same.mpr fun o ho => ?_) (handler?_of_all_isOutside h)
    exact .fixed (isFixed_of_isOutside (all_eq_true.mp h o ho))
  | label name => exact .label (hl name rfl)
  | directive => cases h
  | comment => cases h

lemma writes_line (h : l.isPlain) (hl : l.label? = none) : t.Writes r l l :=
  writes_self h fun _ hn => absurd (hl ▸ hn) (Option.not_mem_none _)

end Tenancy

/-! ### Twins -/

/-- Two emitters at the same place, of the code and of the private code. -/
structure Twins (r : Routine) (t : Tenancy) (s s' : Emitter) : Prop where
  frame : s.frame = .ofRoutine r
  frame' : s'.frame = .ofRoutine r
  shared : s'.shared = s.shared
  registers : s'.registers = s.registers
  free : s.registers.free ⊆ pool
  reuse : s.reuse = true
  reuse' : s'.reuse = false
  next : s.nextSlot = t.tenants.length
  kept : ∀ p ∈ t.kept, p.1 ∈ s.shared.breakSites
  fits : ∃ place, t.Fits r place s'.nextSlot s.maxSlot s.lines s'.lines

namespace Twins

variable {r : Routine} {t : Tenancy} {s s' : Emitter}

lemma push (h : Twins r t s s') {e e' : Entry}
    (hl : ∀ {place n m code code'}, t.Fits r place n m code code' →
      t.Fits r place n m (code ++ [e.line]) (code' ++ [e'.line])) :
    Twins r t { s with entries := s.entries.push e } { s' with entries := s'.entries.push e' } := by
  obtain ⟨place, hf⟩ := h.fits
  refine { h with fits := ⟨place, ?_⟩ }
  simpa [Emitter.lines] using hl hf

lemma setRegisters (h : Twins r t s s') {c : Cache} (hc : c.free ⊆ pool) :
    Twins r t { s with registers := c } { s' with registers := c } :=
  { h with registers := rfl, free := hc }

/-- What the routines share changes in the same way, but for the places that `break` goes to. -/
lemma setShared (h : Twins r t s s') {c : Shared} (hc : c.breakSites = s.shared.breakSites) :
    Twins r t { s with shared := c } { s' with shared := c } :=
  { h with shared := rfl, kept := fun p hp => hc ▸ h.kept p hp }

end Twins

namespace Emit

variable {α β : Type} {r : Routine} {b t u : Tenancy}

/-- The run of `m'` follows the run of `m`. -/
def Follows (r : Routine) (t : Tenancy) (m m' : Emit α) (Q : Tenancy → α → α → Prop) : Prop :=
  ∀ ⦃u s s' a v⦄, t ≤ u → Twins r u s s' → m s = .ok a v →
    ∃ a' v' w, m' s' = .ok a' v' ∧ Twins r w v v' ∧ u ≤ w ∧ Q w a a'

/-- The run of `m'` follows the run of `m`, whatever they give. -/
abbrev Steps (r : Routine) (t : Tenancy) (m m' : Emit α) : Prop := Follows r t m m' fun _ _ _ => True

abbrev Echoes (r : Routine) (t : Tenancy) (m : Emit α) : Prop := Steps r t m m

abbrev Same (r : Routine) (t : Tenancy) (m m' : Emit α) : Prop := Follows r t m m' fun _ a a' => a = a'

/-- The two runs give an operand that stands for the other. -/
abbrev Gives (r : Routine) (t : Tenancy) (m m' : Emit Operand) : Prop :=
  Follows r t m m' fun w o o' => w.Holds r o o'

/-- The run of `m'` follows the run of `m`, and what is in use under `b` stays so. -/
def Frees (r : Routine) (b t : Tenancy) (m m' : Emit Unit) : Prop :=
  ∀ ⦃u s s' a v⦄, t ≤ u → Twins r u s s' → m s = .ok a v →
    ∃ a' v' w, m' s' = .ok a' v' ∧ Twins r w v v' ∧ b ≤ w

namespace Follows

variable {P : Tenancy → α → α → Prop} {Q : Tenancy → β → β → Prop} {m m' : Emit α} {f f' : α → Emit β}

lemma mono (h : Follows r t m m' P) (htu : t ≤ u) : Follows r u m m' P :=
  fun _ _ _ _ _ hw => h (le_trans htu hw)

lemma imp {P' : Tenancy → α → α → Prop} (h : Follows r t m m' P)
    (hP : ∀ w a a', t ≤ w → P w a a' → P' w a a') : Follows r t m m' P' := by
  intro u s s' a v hu hs hm
  obtain ⟨a', v', w, hm', hv, hw, ha⟩ := h hu hs hm
  exact ⟨a', v', w, hm', hv, hw, hP w a a' (le_trans hu hw) ha⟩

lemma bind (hm : Follows r t m m' P) (hf : ∀ w a a', t ≤ w → P w a a' → Follows r w (f a) (f' a') Q) :
    Follows r t (m >>= f) (m' >>= f') Q := by
  intro u s s' b v hu hs h
  obtain ⟨a, s₁, ha, hb⟩ := bind_eq_ok.mp h
  obtain ⟨a', s₁', w, ha', hs₁, huw, hP⟩ := hm hu hs ha
  obtain ⟨b', v', w', hb', hv, hww', hQ⟩ := hf w a a' (le_trans hu huw) hP le_rfl hs₁ hb
  exact ⟨b', v', w', bind_eq_ok.mpr ⟨a', s₁', ha', hb'⟩, hv, le_trans huw hww', hQ⟩

lemma bind_same (hm : Same r t m m') (hf : ∀ a, Follows r t (f a) (f' a) Q) :
    Follows r t (m >>= f) (m' >>= f') Q :=
  hm.bind fun _ a _ hw heq => heq ▸ (hf a).mono hw

lemma seq {n n' : Emit β} (hm : Follows r t m m' P) (hn : Follows r t n n' Q) :
    Follows r t (m >>= fun _ => n) (m' >>= fun _ => n') Q :=
  hm.bind fun _ _ _ hw _ => hn.mono hw

lemma pure {a a' : α} (h : ∀ w, t ≤ w → P w a a') : Follows r t (pure a) (pure a') P := by
  intro u s s' x v hu hs hm
  cases hm
  exact ⟨a', s', u, rfl, hs, le_rfl, h u hu⟩

lemma fail {cause : EmitCause} {span : Span} : Follows r t (fail cause span) m' P :=
  fun _ _ _ _ _ _ _ h => absurd h throw_ne_ok

lemma get {f f' : Emitter → Emit β} (hf : ∀ s s' : Emitter, s.frame = s'.frame →
      s.registers = s'.registers → Follows r t (f s) (f' s') Q) :
    Follows r t (get >>= f) (get >>= f') Q :=
  fun _ s s' _ _ hu hs h => hf s s' (hs.frame.trans hs.frame'.symm) hs.registers.symm hu hs h

lemma forM {f f' : γ → Emit PUnit} {as : List γ} (hf : ∀ a ∈ as, Steps r t (f a) (f' a)) :
    Steps r t (as.forM f) (as.forM f') := by
  induction as with
  | nil => exact pure fun _ _ => trivial
  | cons a as ih => exact (hf a mem_cons_self).seq (ih fun b hb => hf b (mem_cons_of_mem a hb))

lemma mapM {f f' : γ → Emit α} {as : List γ} (hP : ∀ ⦃t u a a'⦄, t ≤ u → P t a a' → P u a a')
    (hf : ∀ a ∈ as, Follows r t (f a) (f' a) P) :
    Follows r t (as.mapM f) (as.mapM f') fun w => List.Forall₂ (P w) := by
  induction as with
  | nil => exact pure fun _ _ => .nil
  | cons a as ih =>
    rw [mapM_cons, mapM_cons]
    refine (hf a mem_cons_self).bind fun w o o' hw ho => ?_
    refine ((ih fun b hb => hf b (mem_cons_of_mem a hb)).mono hw).bind fun v os os' hv hos => ?_
    exact pure fun u hu => .cons (hP (le_trans hv hu) ho) (hos.imp fun _ _ => hP hu)

lemma frees (hm : Follows r t m m' P) {f f' : α → Emit Unit}
    (hf : ∀ w a a', t ≤ w → P w a a' → Frees r b w (f a) (f' a')) :
    Frees r b t (m >>= f) (m' >>= f') := by
  intro u s s' x v hu hs h
  obtain ⟨a, s₁, ha, hx⟩ := bind_eq_ok.mp h
  obtain ⟨a', s₁', w, ha', hs₁, huw, hP⟩ := hm hu hs ha
  obtain ⟨x', v', w', hx', hv, hle⟩ := hf w a a' (le_trans hu huw) hP le_rfl hs₁ hx
  exact ⟨x', v', w', bind_eq_ok.mpr ⟨a', s₁', ha', hx'⟩, hv, hle⟩

end Follows

namespace Frees

variable {m m' n n' : Emit Unit}

lemma mono (h : Frees r b t m m') (htu : t ≤ u) : Frees r b u m m' :=
  fun _ _ _ _ _ hw => h (le_trans htu hw)

lemma after {m m' : Emit α} {P : Tenancy → α → α → Prop} (hm : Follows r t m m' P)
    (hn : Frees r b t n n') : Frees r b t (m >>= fun _ => n) (m' >>= fun _ => n') :=
  hm.frees fun _ _ _ hw _ => hn.mono hw

/-- What follows when slots have been given back can rely on what is in use under `b`. -/
lemma seq (hm : Frees r b t m m') (hn : Steps r b n n') :
    Frees r b t (m >>= fun _ => n) (m' >>= fun _ => n') := by
  intro u s s' x v hu hs h
  obtain ⟨a, s₁, ha, hx⟩ := bind_eq_ok.mp h
  obtain ⟨a', s₁', w, ha', hs₁, hbw⟩ := hm hu hs ha
  obtain ⟨x', v', w', hx', hv, hww', -⟩ := hn hbw hs₁ hx
  exact ⟨x', v', w', bind_eq_ok.mpr ⟨a', s₁', ha', hx'⟩, hv, le_trans hbw hww'⟩

end Frees

theorem Follows.mark {f f' : Nat → Emit Unit}
    (hf : ∀ w k', t ≤ w → Frees r w w (f w.tenants.length) (f' k')) :
    Steps r t (mark >>= f) (mark >>= f') := by
  intro u s s' a v hu hs h
  have hrun : f s.nextSlot s = .ok a v := h
  rw [hs.next] at hrun
  obtain ⟨a', v', w, hm', hv, hw⟩ := hf u s'.nextSlot hu le_rfl hs hrun
  exact ⟨a', v', w, hm', hv, hw, trivial⟩

lemma frees_release (hbt : b ≤ t) (k' : Nat) : Frees r b t (release b.tenants.length) (release k') := by
  intro u s s' a v hu hs h
  obtain ⟨place, hf⟩ := hs.fits
  have hnam : (Frame.ofRoutine r).named ≤ u.tenants.length := by
    simpa using hf.named.length_le
  have hlen : b.tenants.length ≤ u.tenants.length := (le_trans hbt hu).1.length_le
  cases h
  have hn : (if s.reuse = true then max b.tenants.length s.frame.named else s.nextSlot) =
      max b.tenants.length (Frame.ofRoutine r).named := by rw [hs.reuse, if_pos rfl, hs.frame]
  -- the private code gives nothing back, so its mark does not matter
  have hn' : (if s'.reuse = true then max k' s'.frame.named else s'.nextSlot) = s'.nextSlot := by
    rw [hs.reuse', if_neg Bool.false_ne_true]
  refine ⟨(), _, u.upTo (max b.tenants.length (Frame.ofRoutine r).named), rfl, ?_, ?_, ?_⟩
  · refine { hs with next := ?_, fits := ⟨place, ?_⟩ }
    · rw [upTo, length_take]
      exact hn.trans (by omega)
    · dsimp only
      rw [hn']
      exact hf.upTo (Nat.le_max_right _ _)
  · exact prefix_take_iff.mpr ⟨(le_trans hbt hu).1, Nat.le_max_left _ _⟩
  · exact (le_trans hbt hu).2

/-! ### Writing -/

lemma steps_write {l' : Line} (h : t.Writes r l l') : Steps r t (write l) (write l') := by
  intro u s s' a v hu hs hm
  cases hm
  exact ⟨(), _, u, rfl, hs.push (h.mono hu).fits, le_rfl, trivial⟩

lemma steps_line (h : l.isPlain) (hl : l.label? = none) : Echoes r t (write l) :=
  steps_write (writes_line h hl)

lemma steps_label {name : String} (h : ¬IsBreak name) :
    Echoes r t (write (.label name)) :=
  steps_write (.label h)

lemma steps_writeAll {lines lines' : List Line} (h : List.Forall₂ (t.Writes r) lines lines') :
    Steps r t (writeAll lines) (writeAll lines') := by
  induction h with
  | nil => exact .pure fun _ _ => trivial
  | cons hl _ ih => exact (steps_write hl).seq ih

lemma steps_lines (names : List String) {lines : List Line} (h : lines.all Line.isPlain)
    (hlab : Line.labels lines = names) (hn : ∀ name ∈ names, ¬IsBreak name) :
    Echoes r t (writeAll lines) :=
  steps_writeAll (forall₂_same.mpr fun l hl => writes_self (all_eq_true.mp h l hl)
    fun name hna => hn name (hlab ▸ mem_filterMap.mpr ⟨l, hl, hna⟩))

lemma holds_outside {o : Operand} (h : o.isOutside) : t.Holds r o o :=
  .fixed (isFixed_of_isOutside h)

section

variable {o o' : Operand} (h : t.Holds r o o') (reg : Reg)
include h

lemma writes_load : t.Writes r (.movl o reg) (.movl o' reg) :=
  .ins (.cons h (.cons (holds_outside rfl) .nil)) rfl

lemma writes_save : t.Writes r (.movl reg o) (.movl reg o') := by
  refine .ins (.cons (holds_outside rfl) (.cons h .nil)) ?_
  cases o' <;> first | rfl | exact ite_self _

lemma steps_load : Steps r t (write (.movl o reg)) (write (.movl o' reg)) := steps_write (writes_load h reg)

lemma steps_save : Steps r t (write (.movl reg o)) (write (.movl reg o')) := steps_write (writes_save h reg)

end

lemma steps_loadSelf : Echoes r t (write (.movl (.mem ebp 8) esi)) :=
  steps_load (.fixed (isFixed_arg (Nat.zero_le _))) esi

lemma steps_writeRuntimeCall (name : String) (guarded : Bool) :
    Echoes r t (writeRuntimeCall name guarded) := by
  intro u s s' a v hu hs hm
  cases hm
  exact ⟨(), _, u, rfl, hs.push (writes_line rfl rfl).fits, le_rfl, trivial⟩

/-! ### Registers -/

end Emit

lemma Frame.home?_cases {name : String} {o : Operand} (h : (Frame.ofRoutine r).home? name = some o) :
    (∃ i < (Frame.ofRoutine r).named, o = .slot i) ∨ ∃ i ≤ r.argWords, o = .arg i := by
  obtain ⟨before, after, hs, -⟩ := lookup_eq_some_iff.mp h
  have hmem : (name, o) ∈ (Frame.ofRoutine r).homes := hs ▸ mem_append_right _ mem_cons_self
  have hw : 2 ≤ r.firstParamWord := by
    rw [Routine.firstParamWord]
    split <;> decide
  rw [Frame.ofRoutine, mem_append, mem_append, mem_cons, mem_reverse, mem_reverse] at hmem
  rcases hmem with (hsl | hp) | hb | hpar
  · obtain ⟨i, hi, heq⟩ := mem_mapIdx.mp hsl
    exact .inl ⟨i, hi, (Prod.mk.inj heq).2.symm⟩
  · split at hp
    · refine .inr ⟨2, ?_, (Prod.mk.inj (mem_singleton.mp hp)).2⟩
      rw [Routine.argWords]
      omega
    · cases hp
  · refine .inr ⟨1, ?_, (Prod.mk.inj hb).2⟩
    rw [Routine.argWords]
    omega
  · obtain ⟨i, hi, heq⟩ := mem_mapIdx.mp hpar
    refine .inr ⟨_, ?_, (Prod.mk.inj heq).2.symm⟩
    rw [Routine.argWords]
    omega

namespace Emit

variable {reg : Reg} {α β : Type} {r : Routine} {b t u : Tenancy}

lemma gives_home (name : String) (span : Option Span) : Gives r t (home name span) (home name span) := by
  intro u s s' o v hu hs hm
  rw [home, get_bind_eq] at hm ⊢
  rw [hs.frame'] at *
  rw [hs.frame] at hm
  cases hh : (Frame.ofRoutine r).home? name with
  | none =>
    simp only [hh] at hm
    cases hm
  | some o =>
    simp only [hh] at hm ⊢
    cases hm
    refine ⟨o, s', u, rfl, hs, le_rfl, ?_⟩
    rcases Frame.home?_cases hh with ⟨i, hi, rfl⟩ | ⟨i, hi, rfl⟩
    · obtain ⟨place, hf⟩ := hs.fits
      obtain ⟨more, hmo⟩ := hf.named
      refine .slot ?_
      rw [← hmo, getElem?_append_left (by simpa using hi), getElem?_range hi]
    · exact .fixed (isFixed_arg hi)

lemma steps_spill (spill : Spill) :
    Steps r t (RegisterOwner.spill spill : Emit Unit) (RegisterOwner.spill spill) :=
  (gives_home _ _).bind fun _ _ _ _ ho => steps_save ho _

lemma same_withCache {f : Cache → α × Cache}
    (hf : ∀ c, c.free ⊆ pool → (f c).2.free ⊆ pool) : Same r t (withCache f) (withCache f) := by
  intro u s s' a v hu hs hm
  cases hm
  refine ⟨(f s.registers).1, { s' with registers := (f s.registers).2 }, u, ?_,
    hs.setRegisters (hf _ hs.free), le_rfl, rfl⟩
  rw [← hs.registers]
  rfl

lemma steps_storeAll (spills : List Spill) : Echoes r t (storeAll spills) := by
  induction spills with
  | nil => exact .pure fun _ _ => trivial
  | cons spill _ ih => exact (steps_spill spill).seq ih

lemma steps_returnRegister (loan : Loan) :
    Steps r t (returnRegister loan : Emit Unit) (returnRegister loan) := by
  intro u s s' a v hu hs hm
  have hf : ((s.registers.unlock loan.reg).release loan.reg).free ⊆ pool :=
    free_release_subset (c := s.registers.unlock loan.reg) hs.free _
  rw [returnRegister] at hm ⊢
  dsimp only [RegisterOwner.registers] at hm ⊢
  rw [hs.registers]
  split at hm
  · rename_i var c hr
    obtain ⟨victim, -, hres⟩ := Option.bind_eq_some_iff.mp hr
    obtain ⟨d, hd, heq⟩ := Option.map_eq_some_iff.mp hres
    cases heq
    exact (gives_home _ _).bind (fun _ _ _ _ ho => steps_load ho _) hu
      (hs.setRegisters (free_restore?_subset hf hd)) hm
  · cases hm
    exact ⟨(), _, u, rfl, hs.setRegisters hf, le_rfl, trivial⟩

lemma steps_withRegister {body body' : Reg → Emit Unit}
    (hb : ∀ reg ∈ pool, Steps r t (body reg) (body' reg)) :
    Steps r t (withRegister body) (withRegister body') := by
  intro u s s' a v hu hs hm
  obtain ⟨loan, c, s₁, ht, hx, hba⟩ := withRegister_eq_ok.mp hm
  obtain ⟨hreg, hf⟩ := mem_pool_of_take? hs.free ht
  have hrun : Steps r t (underLoan loan body) (underLoan loan body') := by
    rw [underLoan, underLoan]
    cases loan.spill with
    | none => exact hb _ hreg
    | some store => exact (steps_spill store).seq (hb _ hreg)
  have hl : (c.lock loan.reg).free ⊆ pool := by
    rw [lock]
    split <;> exact hf
  obtain ⟨x', s₁', w, hx', hs₁, huw, -⟩ := hrun hu (hs.setRegisters hl) hx
  obtain ⟨y', v', w', hb', hv, hww', -⟩ := steps_returnRegister loan le_rfl hs₁ hba
  have ht' : s'.registers.take? = some (loan, c) := hs.registers ▸ ht
  exact ⟨x', v', w', withRegister_eq_ok.mpr ⟨loan, c, s₁', ht', hx', hb'⟩, hv, le_trans huw hww', trivial⟩

/-! ### Labels, jumps and slots -/

lemma follows_newLabel (h : isPlainStem stem) :
    Follows r t (newLabel stem) (newLabel stem) fun _ label label' =>
      label = label' ∧ ¬IsBreak label := by
  intro u s s' label v hu hs hm
  cases hm
  let shared : Shared := { s.shared with labels := s.shared.labels + 1 }
  refine ⟨".L" ++ stem ++ Numeral.decimal (shared.labels : Nat), { s' with shared := shared }, u, ?_,
    hs.setShared rfl, le_rfl, rfl, not_isBreak_inner h (shared.labels : Nat)⟩
  dsimp only [shared]
  rw [← hs.shared]
  rfl

lemma Follows.newLabel {Q : Tenancy → β → β → Prop} {f f' : String → Emit β}
    (hs : isPlainStem stem)
    (hf : ∀ label, ¬IsBreak label → Follows r t (f label) (f' label) Q) :
    Follows r t (newLabel stem >>= f) (newLabel stem >>= f') Q :=
  (follows_newLabel hs).bind fun _ label _ hw hl => hl.1 ▸ (hf label hl.2).mono hw

lemma Frees.newLabel {f f' : String → Emit Unit} (hs : isPlainStem stem)
    (hf : ∀ label, ¬IsBreak label → Frees r b t (f label) (f' label)) :
    Frees r b t (newLabel stem >>= f) (newLabel stem >>= f') :=
  (follows_newLabel hs).frees fun _ label _ hw hl => hl.1 ▸ (hf label hl.2).mono hw

lemma same_literal (add : Literals → Nat × Literals) : Same r t (literal add) (literal add) := by
  intro u s s' k v hu hs hm
  cases hm
  let shared : Shared := { s.shared with literals := (add s.shared.literals).2 }
  refine ⟨(add s.shared.literals).1, { s' with shared := shared }, u, ?_, hs.setShared rfl, le_rfl, rfl⟩
  dsimp only [shared]
  rw [← hs.shared]
  rfl

lemma follows_takeSlots (c : Nat) : Follows r t (takeSlots c) (takeSlots c)
    fun w k i => ∀ j < c, w.tenants[k + j]? = some (i + j) := by
  intro u s s' k v hu hs hm
  cases hm
  obtain ⟨place, hf⟩ := hs.fits
  refine ⟨s'.nextSlot, _, u.take s'.nextSlot c, rfl, ?_, u.le_take _ _, fun j hj => ?_⟩
  · refine { hs with next := ?_, fits := ?_ }
    · simp [Tenancy.take, hs.next]
    · rw [hs.next]
      exact ⟨_, hf.take c⟩
  · rw [hs.next]
    exact u.getElem?_take hj

lemma gives_stash : Gives r t stash stash := (follows_takeSlots 1).bind fun w k i _ ht =>
    have hs : w.Holds r (.slot k) (.slot i) := .slot (ht 0 Nat.one_pos)
    (steps_save hs eax).seq (.pure fun _ hw => hs.mono hw)

lemma steps_branchPoint : Echoes r t branchPoint :=
  (same_withCache fun _ h => free_evictEach_subset h _).bind_same fun spills =>
    steps_storeAll spills

lemma steps_unreachable : Echoes r t unreachable :=
  (same_withCache fun _ h => free_evictEach_subset h _).seq (.pure fun _ _ => trivial)

lemma steps_epilogue : Echoes r t epilogue := (steps_lines [] rfl rfl nofun).seq steps_unreachable

variable (label name : String) (n : Node) (target : Tree) (span : Span)

lemma steps_jump : Echoes r t (jump label) :=
  steps_branchPoint.seq ((steps_line rfl rfl).seq steps_unreachable)

lemma steps_branchIfFalse : Echoes r t (branchIfFalse label) :=
  steps_branchPoint.seq (steps_lines [] rfl rfl nofun)

lemma steps_exitIfNil : Echoes r t (exitIfNil label) :=
  steps_branchPoint.seq (steps_lines [] rfl rfl nofun)

lemma steps_branchIfTrue : Echoes r t (branchIfTrue label) :=
  steps_branchPoint.seq (.newLabel rfl fun skip hs =>
    steps_lines [skip] rfl rfl (forall_mem_singleton.mpr hs))

lemma steps_bindLabel {label : String} (h : ¬IsBreak label) :
    Echoes r t (bindLabel label) :=
  steps_branchPoint.seq (steps_label h)

/-! ### Variables -/

lemma same_indexDisp : Same r t (indexDisp n) (indexDisp n) := by
  rw [indexDisp]
  split
  · exact .pure fun _ _ => rfl
  · exact .fail

lemma same_constLabel : Same r t (constLabel n) (constLabel n) := by
  rw [constLabel]
  split
  · exact .pure fun _ _ => rfl
  · exact .fail

lemma same_nameAt (i : Nat) : Same r t (nameAt n i) (nameAt n i) := by
  rw [nameAt]
  split
  · exact .pure fun _ _ => rfl
  · exact .fail

lemma holds_mem (h : reg ≠ ebp) (disp : Int) : t.Holds r (.mem reg disp) (.mem reg disp) :=
  holds_outside (bne_iff_ne.mpr h)

lemma steps_loadFrame (h : reg ≠ ebp) (around : Span) (e : Tree) :
    Echoes r t (loadFrame reg around e) := by
  fun_induction loadFrame reg around e with
  | case1 around name =>
    refine .get fun s s' _ hr => ?_
    rw [hr]
    cases s'.registers.cached? name with
    | some reg' => exact steps_line rfl rfl
    | none => exact (gives_home _ _).bind fun _ _ _ _ ho => steps_load ho _
  | case2 around span id base rest ih =>
    exact (same_indexDisp _).bind_same fun _ => ih.seq (steps_load (holds_mem h _) _)
  | case3 around span id => exact (same_indexDisp _).seq (.pure fun _ _ => trivial)
  | case4 => exact .fail

lemma steps_loadName : Echoes r t (loadName name span) := by
  rw [loadName]
  split
  · exact steps_line rfl rfl
  · split
    · exact steps_line rfl rfl
    · refine (gives_home _ _).bind fun w o o' _ ho => .get fun s s' _ hr => ?_
      rw [hr]
      split
      · exact steps_line rfl rfl
      · refine (same_withCache fun _ h => free_cache_subset h _).bind_same fun reg => ?_
        split
        · exact steps_writeAll (.cons (writes_load ho _) (.cons (writes_line rfl rfl) .nil))
        · exact steps_load ho _

lemma steps_storeName : Echoes r t (storeName name span) := by
  rw [storeName]
  split
  · exact .fail
  · refine (gives_home _ _).bind fun w o o' _ ho =>
      (same_withCache fun _ h => free_cache_subset h _).bind_same fun reg => ?_
    split
    · exact (steps_line rfl rfl).seq ((same_withCache fun _ h => h).imp fun _ _ _ _ _ => trivial)
    · exact steps_save ho _

lemma steps_loadIndex : Echoes r t (loadIndex n) := by
  refine (same_indexDisp n).bind_same fun disp => ?_
  split
  · exact steps_line rfl rfl
  · exact (steps_loadFrame (by decide) _ _).seq (steps_line rfl rfl)

lemma steps_storeIndex : Echoes r t (storeIndex n) := by
  refine (same_indexDisp n).bind_same fun disp => ?_
  split
  · exact steps_line rfl rfl
  · simp only [Bool.false_eq_true, if_false]
    refine steps_withRegister fun reg hreg => ?_
    have hne : reg ≠ ebp := by
      rintro rfl
      exact absurd hreg (by decide)
    exact (steps_loadFrame hne _ _).seq (steps_save (holds_mem hne _) _)

lemma steps_loadConst : Echoes r t (loadConst n) := by
  refine (same_constLabel n).bind_same fun label => ?_
  split <;> exact steps_line rfl rfl

lemma steps_store : Echoes r t (store target span) := by
  fun_cases store target span with
  | case1 name => exact steps_storeName _ _
  | case2 s id children => exact steps_storeIndex _
  | case3 s id children n =>
    refine (same_constLabel _).bind_same fun label => ?_
    split
    · exact .fail
    · exact steps_line rfl rfl
  | case4 => exact .fail

/-! ### Calls of the run-time library -/

end Emit

namespace Tenancy

variable {r : Routine} {t u : Tenancy} {o o' : Operand}

lemma Holds.isDirect_eq (h : t.Holds r o o') : o.isDirect = o'.isDirect := by
  cases h <;> rfl

lemma forall₂_passOperand (h : t.Holds r o o') (disp : Int) :
    List.Forall₂ (t.Writes r) (Emit.passOperand o disp) (Emit.passOperand o' disp) := by
  have hw : t.Holds r (.mem esp disp) (.mem esp disp) := Emit.holds_outside rfl
  rw [Emit.passOperand, Emit.passOperand, h.isDirect_eq]
  split
  · exact .cons (.ins (.cons h (.cons hw .nil)) rfl) .nil
  · exact .cons (Emit.writes_load h eax) (.cons (Emit.writes_save hw eax) .nil)

end Tenancy

lemma forall₂_mapIdx {α β δ : Type} {R : α → β → Prop} {S : γ → δ → Prop} {f : Nat → α → γ}
    {g : Nat → β → δ} {as : List α} {bs : List β} (hfg : ∀ i a b, R a b → S (f i a) (g i b))
    (h : List.Forall₂ R as bs) : List.Forall₂ S (as.mapIdx f) (bs.mapIdx g) := by
  induction h generalizing f g with
  | nil => exact .nil
  | cons hab _ ih =>
    rw [mapIdx_cons, mapIdx_cons]
    exact .cons (hfg 0 _ _ hab) (ih fun i => hfg (i + 1))

namespace Emit

variable {α β : Type} {r : Routine} {b t u : Tenancy} {x x' : Exits}

variable (hx : x.isGuarded = x'.isGuarded)
include hx

lemma steps_callRuntime (name : String) {args args' : List Operand}
    (ha : List.Forall₂ (t.Holds r) args args') :
    Steps r t (callRuntime x name args) (callRuntime x' name args') := by
  have hpla := forall₂_mapIdx (S := fun p p' : Operand × Int => t.Holds r p.1 p'.1 ∧ p.2 = p'.2)
    (f := fun i o => (o, (4 * i : Int))) (g := fun i o => (o, (4 * i : Int)))
    (fun i a b hab => ⟨hab, rfl⟩) ha
  have hpa : ∀ p p' : Operand × Int, t.Holds r p.1 p'.1 ∧ p.2 = p'.2 →
      List.Forall₂ (t.Writes r) (passOperand p.1 p.2) (passOperand p'.1 p'.2) := by
    rintro ⟨o, disp⟩ ⟨o', disp'⟩ ⟨ho, rfl⟩
    exact forall₂_passOperand ho disp
  rw [callRuntime, callRuntime, hx, ha.length_eq]
  simp only [partition_eq_filter_filter]
  refine (same_withCache ?_).bind_same fun spills => (steps_storeAll spills).seq
    ((steps_line rfl rfl).seq (Follows.seq (steps_writeAll ?_) ((steps_writeRuntimeCall _ _).seq
      (steps_line rfl rfl))))
  · intro c hc
    split <;> exact free_evictEach_subset hc _
  · refine rel_flatMap (rel_append (rel_filter ?_ hpla) (rel_filter ?_ hpla)) hpa
    · intro p p' hp
      dsimp only
      rw [hp.1.isDirect_eq]
    · intro p p' hp
      dsimp only [Function.comp_apply]
      rw [hp.1.isDirect_eq]

lemma steps_callRuntime_outside (name : String) {args : List Operand} (ha : args.all isOutside) :
    Steps r t (callRuntime x name args) (callRuntime x' name args) :=
  steps_callRuntime hx name (forall₂_same.mpr fun o ho => holds_outside (all_eq_true.mp ha o ho))

/-! ### Literals -/

omit hx in
lemma steps_loadInteger (i : Integer) : Echoes r t (loadInteger i) := by
  rw [loadInteger]
  split
  · exact steps_line rfl rfl
  · exact (same_literal _).bind_same fun _ => steps_line rfl rfl

lemma steps_loadSymbol (name : String) : Steps r t (loadSymbol x name) (loadSymbol x' name) :=
  (same_literal _).bind_same fun _ => .newLabel rfl fun done hd =>
  steps_branchPoint.seq ((steps_lines [] rfl rfl nofun).seq ((steps_callRuntime_outside hx _ rfl).seq
      (steps_lines [done] rfl rfl (forall_mem_singleton.mpr hd))))

/-! ### Calls of compiled code -/

end Emit

/-- The operands of a call, and what stands for them. -/
structure CallArgs.Stands (r : Routine) (t : Tenancy) (call call' : CallArgs) : Prop where
  receiver : t.Holds r call.receiver call'.receiver
  block : t.Holds r call.block call'.block
  args : List.Forall₂ (t.Holds r) call.args call'.args
  splat : Option.Rel (t.Holds r) call.splat call'.splat
  breakId : call.breakId = call'.breakId

lemma CallArgs.Stands.mono {t u : Tenancy} (htu : t ≤ u) {call call' : CallArgs}
    (h : call.Stands r t call') : call.Stands r u call' where
  receiver := h.receiver.mono htu
  block := h.block.mono htu
  args := h.args.imp fun _ _ => Holds.mono htu
  splat := by
    have hs := h.splat
    generalize call.splat = a, call'.splat = a' at hs ⊢
    cases hs with
    | some ho => exact .some (ho.mono htu)
    | none => exact .none
  breakId := h.breakId

namespace Emit

variable {id : Int} {α β : Type} {r : Routine} {b t u : Tenancy} {x x' : Exits} {call call' : CallArgs}

lemma steps_loadClassOfTop : Echoes r t loadClassOfTop :=
  .newLabel rfl fun heap hh => .newLabel rfl fun done hd =>
  steps_lines [heap, done] rfl rfl (by simp [hh, hd])

lemma steps_loadReceiverClass {o o' : Operand} (h : t.Holds r o o') :
    Steps r t (loadReceiverClass o) (loadReceiverClass o') := by
  cases h with
  | slot => exact steps_loadClassOfTop
  | fixed =>
    fun_cases loadReceiverClass o with
    | case1 | case3 => exact steps_line rfl rfl
    | case2 | case4 => exact steps_loadClassOfTop

/-- The emitter behind a new place that `break` goes to. -/
def keepAt (id : Int) (s : Emitter) : Emitter := { s with
    shared := { s.shared with breakSites := id :: s.shared.breakSites }
    entries := (s.entries.push ⟨.keep id s.nextSlot, s.registers.view, .code⟩).push
      ⟨.movl esp (.slot s.nextSlot), s.registers.view, .code⟩
    nextSlot := s.nextSlot + 1
    maxSlot := max s.maxSlot (s.nextSlot + 1) }

lemma breakSite_eq {s : Emitter} (h : ¬s.shared.breakSites.contains id) :
    breakSite id s = .ok (".Lbrk_" ++ Numeral.decimal id) (keepAt id s) := by
  rw [breakSite, get_bind_eq, if_neg h]
  rfl

lemma lines_keepAt (id : Int) (s : Emitter) :
    (keepAt id s).lines = s.lines ++ [.keep id s.nextSlot] ++ [.movl esp (.slot s.nextSlot)] := by
  simp [Emitter.lines, keepAt]

/-- A place that `break` goes to. The slot that the stack pointer is kept in is in use. -/
lemma follows_breakSite (id : Int) : Follows r t (breakSite id) (breakSite id) fun w name name' =>
    name = ".Lbrk_" ++ Numeral.decimal id ∧ name' = ".Lbrk_" ++ Numeral.decimal id ∧
      ∃ i ∈ w.tenants, (id, i) ∈ w.kept := by
  intro u s s' name v hu hs hm
  have hnew : ¬s.shared.breakSites.contains id := by
    intro hold
    rw [breakSite, get_bind_eq, if_pos hold] at hm
    cases hm
  have hnew' : ¬s'.shared.breakSites.contains id := hs.shared ▸ hnew
  rw [breakSite_eq hnew] at hm
  cases hm
  obtain ⟨place, hf⟩ := hs.fits
  let w := (u.take s'.nextSlot 1).keeping id s'.nextSlot
  have ht : w.tenants[s.nextSlot]? = some s'.nextSlot := hs.next ▸ u.getElem?_take Nat.one_pos
  have hmem : s'.nextSlot ∈ w.tenants := mem_iff_getElem?.mpr ⟨_, ht⟩
  have hsl : w.Holds r (.slot s.nextSlot) (.slot s'.nextSlot) := .slot ht
  -- a second site of the same `break` is refused, so no other slot is kept for it
  have ho : ∀ p ∈ u.kept, p.1 ≠ id := by
    rintro p hp rfl
    exact hnew (contains_iff_mem.mpr (hs.kept p hp))
  refine ⟨_, keepAt id s', w, breakSite_eq hnew', ?_, le_trans (u.le_take _ _) (le_keeping _ _ _),
    rfl, rfl, s'.nextSlot, hmem, mem_cons_self⟩
  refine { hs with shared := ?_, next := ?_, kept := ?_, fits := ?_ }
  · dsimp only [keepAt]
    rw [hs.shared]
  · simp [w, keepAt, Tenancy.keeping, Tenancy.take, hs.next]
  · exact forall_mem_cons.mpr ⟨mem_cons_self, fun p hp => mem_cons_of_mem _ (hs.kept p hp)⟩
  · rw [lines_keepAt, lines_keepAt]
    have htak := ((hf.take 1).keeping hmem ho).keepLine ht mem_cons_self
    rw [← hs.next] at htak
    exact ⟨_, (writes_save hsl esp).fits htak⟩

lemma steps_resume {i : Nat} (hi : i ∈ t.tenants) (hk : (id, i) ∈ t.kept) :
    Echoes r t (write (.label (".Lbrk_" ++ Numeral.decimal id))) := by
  intro u s s' a v hu hs hm
  cases hm
  refine ⟨(), _, u, rfl, hs.push fun hf => hf.label fun id' i' hid hk' => ?_, le_rfl, trivial⟩
  -- one slot only was kept for this label
  cases Numeral.eq_of_decimal_eq (by simpa using hid)
  cases hf.unique _ (hu.2 hk) _ hk' rfl
  exact hu.1.subset hi

lemma steps_invokePlain (target : CallTarget) (h : call.Stands r t call') :
    Steps r t (invokePlain target call) (invokePlain target call') := by
  have ho : List.Forall₂ (t.Holds r) (call.receiver :: call.block :: call.args)
      (call'.receiver :: call'.block :: call'.args) := .cons h.receiver (.cons h.block h.args)
  have hl := rel_flatten (forall₂_mapIdx (f := fun i o => passOperand o (4 * i : Int))
    (g := fun i o => passOperand o (4 * i : Int))
    (fun i a b hab => forall₂_passOperand hab (4 * i : Int)) ho)
  rw [invokePlain, ho.length_eq]
  refine (steps_line rfl rfl).seq (Follows.seq (steps_writeAll hl) ((steps_line rfl rfl).seq ?_))
  split
  · exact (steps_loadReceiverClass h.receiver).seq ((steps_line rfl rfl).seq (steps_line rfl rfl))
  · exact (steps_line rfl rfl).seq (steps_line rfl rfl)

lemma steps_invokeSplat (hx : x.isGuarded = x'.isGuarded) (target : CallTarget)
    (h : call.Stands r t call') {array array' : Operand} (ha : t.Holds r array array') :
    Steps r t (invokeSplat x target call array) (invokeSplat x' target call' array') := by
  cases target with
  | send name =>
    exact steps_callRuntime hx _
      (.cons h.receiver (.cons h.block (.cons (holds_outside rfl) (.cons ha .nil))))
  | direct label =>
    exact steps_callRuntime hx _
      (.cons (holds_outside rfl) (.cons h.receiver (.cons h.block (.cons ha .nil))))

lemma steps_invoke (hx : x.isGuarded = x'.isGuarded) (target : CallTarget)
    (h : call.Stands r t call') : Steps r t (invoke x target call) (invoke x' target call') := by
  have hc {w} (hw : t ≤ w) {n n' : Emit Unit} (hn : Steps r w n n') :
      Steps r w (invokeThen x target call n) (invokeThen x' target call' n') := by
    rw [invokeThen, invokeThen]
    have hs := h.splat
    generalize call.splat = a, call'.splat = a' at hs ⊢
    cases hs with
    | some ha => exact (steps_invokeSplat hx target (h.mono hw) (ha.mono hw)).seq hn
    | none => exact (steps_invokePlain target (h.mono hw)).seq hn
  rw [invoke, h.breakId]
  refine steps_branchPoint.seq ?_
  cases call'.breakId with
  | none => exact hc le_rfl steps_loadSelf
  | some id =>
    dsimp only
    rw [bind_map_left, bind_map_left]
    refine (follows_breakSite id).bind fun w name name' hw => ?_
    rintro ⟨rfl, rfl, i, hi, hk⟩
    exact hc hw ((steps_resume hi hk).seq steps_loadSelf)

end Emit

end Garnet
