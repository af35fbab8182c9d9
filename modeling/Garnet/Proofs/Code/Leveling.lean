import Garnet.Proofs.Code.Level

/-!
# Writing code that keeps the stack pointer level

`Levels own m` says that the lines `m` writes are a code at the level of the frame, in which the labels `own`
stand. It is shown here for the functions that write single things, down to calls. A label that is made on
the way is not one of the look-up of classes, which is all that the lines behind it need to know; the look-up
itself stands where arguments are passed (`Passes`), and the sequence around it is closed by the line that
raises the stack pointer again (`Returns`).
-/

namespace Garnet

variable {lines : List Line}

open List Reg

/-! ### Lines that keep the level -/

namespace Line

variable {l : Line}

/-- Whether a line leaves the stack pointer alone. -/
def isLevel (l : Line) : Bool := l.lowers == 0 && l.passes true && !l.passes false

/-- The labels that a line lets stand, jumps to or puts into a record. -/
def refers (l : Line) : List String := l.label?.toList ++ (l.target?.toList ++ l.handler?.toList)

lemma isLevel_iff : l.isLevel ↔ l.lowers = 0 ∧ ∀ before, l.passes before = before := by
  rw [isLevel, Bool.and_eq_true, Bool.and_eq_true, beq_iff_eq, and_assoc, Bool.forall_bool,
    Bool.not_eq_true', and_comm (a := l.passes true = true)]

lemma calm_of_refers (h : l.isLevel) (hn : ∀ name ∈ l.refers, ¬Label.IsLookup name) : l.Calm where
  lowers := (isLevel_iff.mp h).1
  passes := (isLevel_iff.mp h).2
  label name hl := hn name (by rw [hl]; exact mem_cons_self)
  target name hl := hn name (by simp [refers, hl])
  handler name hl := hn name (by simp [refers, hl])

lemma calm_of_refers_eq_nil (h : l.isLevel) (hn : l.refers = []) : l.Calm :=
  calm_of_refers h fun _ hna => absurd (hn ▸ hna) not_mem_nil

lemma calm_movl_reg (r : Reg) (o : Operand) : (movl r o).Calm :=
  calm_of_refers_eq_nil rfl (by simp [refers, movl, label?, target?, handler?, Operand.address?])

lemma level_of_calm (h : ∀ l ∈ lines, l.Calm) : Level lines := by
  induction lines with
  | nil => exact .nil
  | cons line lines ih =>
    exact (h line mem_cons_self).level.append (ih fun l hl => h l (mem_cons_of_mem line hl))

/-- Lines that leave the stack pointer alone and have to do with the labels `names`. -/
lemma level_of_refers (names : List String) (h : lines.all isLevel)
    (hr : lines.flatMap refers = names) (hn : ∀ name ∈ names, ¬Label.IsLookup name) :
    Level lines :=
  level_of_calm fun l hl => calm_of_refers (all_eq_true.mp h l hl) fun name hna =>
    hn name (hr ▸ mem_flatMap.mpr ⟨l, hl, hna⟩)

end Line

namespace Emit

variable {line : Line} {stem name : String} {id : Int} {own own' : List String}

open Line

variable {α β : Type}

/-- The computation writes code at the level of the frame, and lets the labels `own` stand. -/
abbrev Levels (own : List String) (m : Emit α) : Prop := Lays Level own m

/-- The computation writes code that can stand where arguments are passed, and that lets no label stand but
those it makes. -/
abbrev Passes (own : List String) (m : Emit α) : Prop := Lays Inside own m

/-- The computation writes code that can stand where arguments are passed, and then raises the stack
pointer by `n`. -/
abbrev Returns (n : Int) (m : Emit α) : Prop :=
  Lays (fun code => ∃ inner, Inside inner ∧ code = inner ++ [.addl (.imm n) esp]) [] m

namespace Levels

variable {γ : Type}

lemma bind {m : Emit α} {f : α → Emit β} (hm : Levels own m) (hf : ∀ a, Levels own' (f a)) :
    Levels (own ++ own') (m >>= f) :=
  Lays.bind (fun _ _ => Level.append) hm hf

lemma of_unchanged {m : Emit α}
    (h : ∀ ⦃s a s'⦄, m s = .ok a s' → s'.entries = s.entries ∧ s.shared.Grows s'.shared) : Levels [] m :=
  Lays.of_unchanged .nil h

lemma pure (a : α) : Levels [] (pure a : Emit α) :=
  .of_unchanged fun _ _ _ h => by obtain ⟨-, rfl⟩ := pure_eq_ok.mp h; exact ⟨rfl, .refl _⟩

lemma forM {f : γ → Emit PUnit} {as : List γ} (hf : ∀ a ∈ as, Levels [] (f a)) : Levels [] (as.forM f) := by
  induction as with
  | nil => exact pure _
  | cons a as ih => exact (hf a mem_cons_self).bind fun _ => ih fun b hb => hf b (mem_cons_of_mem a hb)

lemma mapM {f : γ → Emit α} {as : List γ} (hf : ∀ a ∈ as, Levels [] (f a)) : Levels [] (as.mapM f) := by
  induction as with
  | nil => exact pure _
  | cons a as ih =>
    rw [mapM_cons]
    exact (hf a mem_cons_self).bind fun _ => (ih fun b hb => hf b (mem_cons_of_mem a hb)).bind fun _ => pure _

lemma pass {n : Int} {f : Unit → Emit α} (hn : 16 ∣ n) (hf : ∀ u, Returns n (f u)) :
    Levels [] (write (.subl (.imm n) esp) >>= f) := by
  refine Lays.bind ?_ (lays_write rfl) hf
  rintro _ _ rfl ⟨inner, hinn, rfl⟩
  exact hinn.level hn

end Levels

lemma Passes.returns {n : Int} {m : Emit α} {f : α → Emit β} (hm : Passes [] m)
    (hf : ∀ a, Returns n (f a)) : Returns n (m >>= f) := by
  refine (Lays.bind (fun code code' hc => ?_) hm hf).perm (.refl [])
  rintro ⟨inner, hinn, rfl⟩
  exact ⟨code ++ inner, hc.append hinn, (append_assoc _ _ _).symm⟩

lemma returns_write (n : Int) : Returns n (write (.addl (.imm n) esp)) :=
  lays_write ⟨[], ⟨nofun, nofun, nofun⟩, rfl⟩

/-! ### Writing -/

lemma levels_write (h : line.Calm) : Levels line.label?.toList (write line) := lays_write h.level

lemma levels_line (h : line.isLevel) (hn : line.refers = []) : Levels [] (write line) :=
  (append_eq_nil_iff.mp hn).1 ▸ levels_write (calm_of_refers_eq_nil h hn)

lemma levels_label (h : ¬Label.IsLookup name) : Levels [name] (write (.label name)) :=
  levels_write (calm_of_refers rfl (forall_mem_singleton.mpr h))

lemma levels_home (name : String) (span : Option Span) : Levels [] (home name span) :=
  .of_unchanged fun _ _ _ hm => by obtain ⟨-, rfl⟩ := home_eq_ok hm; exact ⟨rfl, .refl _⟩

lemma levels_spill (spill : Spill) : Levels [] (RegisterOwner.spill spill : Emit Unit) :=
  (levels_home _ _).bind fun _ => levels_write (calm_movl_reg _ _)

lemma levels_withCache (f : Cache → α × Cache) : Levels [] (withCache f) :=
  .of_unchanged fun _ _ _ hm => by cases hm; exact ⟨rfl, .refl _⟩

lemma levels_storeAll (spills : List Spill) : Levels [] (storeAll spills) :=
  .forM fun spill _ => levels_spill spill

lemma levels_returnRegister (loan : Cache.Loan) : Levels [] (returnRegister loan : Emit Unit) := by
  intro s a s' hm
  rw [returnRegister] at hm
  split at hm
  · obtain ⟨code, hl, hc⟩ := ((levels_home _ _).bind fun _ => levels_line rfl rfl) hm
    exact ⟨code, hl, hc⟩
  · cases hm
    exact ⟨[], (append_nil _).symm, .nil, .nil (.refl _)⟩

lemma levels_withRegister {body : Reg → Emit α} (hb : ∀ r, Levels [] (body r)) :
    Levels [] (withRegister body) := by
  intro s a s' hm
  obtain ⟨loan, c, t, -, hrun, hba⟩ := withRegister_eq_ok.mp hm
  have hl : Levels [] (underLoan loan body) := by
    rw [underLoan]
    cases loan.spill with
    | none => exact hb _
    | some store => exact (levels_spill store).bind fun _ => hb _
  obtain ⟨code, hlin, hc, hbou⟩ := hl hrun
  obtain ⟨code', hl', hc', hb'⟩ := levels_returnRegister loan hba
  refine ⟨code ++ code', ?_, hc.append hc', labels_append _ _ ▸ hbou.append hb'⟩
  rw [hl', hlin, append_assoc]
  rfl

lemma levels_branchPoint : Levels [] branchPoint :=
  (levels_withCache _).bind fun spills => levels_storeAll spills

/-! ### Calls of the run-time library -/

lemma align16_dvd (n : Nat) : (16 : Int) ∣ (align16 n : Nat) :=
  Int.natCast_dvd_natCast.mpr (Nat.dvd_mul_left 16 _)

/-- Lines that leave the stack pointer alone, do not keep it, and have to do with the labels `names` of a
look-up only, all of which stand there. -/
lemma inside_of_labels (names : List String) (h : lines.all isLevel)
    (hs : lines.all fun l => !l.isSave && l.handler?.isNone) (hlab : labels lines = names)
    (ht : lines.filterMap target? ⊆ names) (hn : ∀ name ∈ names, Label.IsLookup name) :
    Inside lines where
  still l hl := by
    obtain ⟨hlow, hp⟩ := isLevel_iff.mp (all_eq_true.mp h l hl)
    have hk := all_eq_true.mp hs l hl
    rw [Bool.and_eq_true, Bool.not_eq_true', Option.isNone_iff_eq_none] at hk
    exact ⟨hlow, hp, hk.1, hk.2⟩
  label name hl := hn name (hlab ▸ mem_filterMap.mpr ⟨_, hl, rfl⟩)
  jump l hl name hna := by
    have hmem : name ∈ names := ht (mem_filterMap.mpr ⟨l, hl, hna⟩)
    refine ⟨hn name hmem, ?_⟩
    obtain ⟨l', hl', hla⟩ := mem_filterMap.mp (hlab ▸ hmem)
    cases l' with
    | label name' => exact Option.some.inj hla ▸ hl'
    | _ => cases hla

lemma passes_write (h : line.isLevel) (hs : (!line.isSave && line.handler?.isNone) = true)
    (hl : line.label? = none) (ht : line.target? = none) : Passes [] (write line) := by
  have hn : line.label?.toList = [] := hl ▸ rfl
  refine hn ▸ lays_write (inside_of_labels [] ?_ ?_ ?_ ?_ nofun)
  · rw [all_cons, h]; rfl
  · rw [all_cons, hs]; rfl
  · rw [labels, filterMap_cons_none hl]; rfl
  · rw [filterMap_cons_none ht]; exact nil_subset _

lemma inside_passOperand (o : Operand) (disp : Int) :
    Inside (passOperand o disp) ∧ labels (passOperand o disp) = [] := by
  rw [passOperand]
  split
  all_goals
    refine ⟨inside_of_labels [] rfl ?_ rfl (nil_subset _) (by simp), rfl⟩
    cases o with
    | reg r => cases r <;> rfl
    | _ => rfl

lemma passes_operands {liness : List (List Line)} (h : ∀ lines ∈ liness, ∃ o disp, lines = passOperand o disp) :
    Passes [] (writeAll liness.flatten) := by
  have hins : Inside liness.flatten := by
    induction liness with
    | nil => exact ⟨nofun, nofun, nofun⟩
    | cons lines liness ih =>
      obtain ⟨⟨o, disp, rfl⟩, hr⟩ := forall_mem_cons.mp h
      exact (inside_passOperand o disp).1.append (ih hr)
  have hn : labels liness.flatten = [] := labels_flatten fun lines hl => by
    obtain ⟨o, disp, rfl⟩ := h lines hl
    exact (inside_passOperand o disp).2
  exact hn ▸ lays_writeAll hins

lemma levels_callRuntime (x : Exits) (name : String) (args : List Operand) :
    Levels [] (callRuntime x name args) := by
  have hc : Passes [] (writeRuntimeCall name x.isGuarded) := by
    intro s a s' hm
    cases hm
    exact ⟨[.call name], by simp [Emitter.lines], inside_of_labels [] rfl rfl rfl (nil_subset _) nofun, .refl _ _⟩
  refine (levels_withCache _).bind fun spills => (levels_storeAll spills).bind fun _ =>
    Levels.pass ?_ fun _ => (passes_operands fun lines hl => ?_).returns fun _ =>
    hc.returns fun _ => returns_write _
  · rcases Nat.le_total (align16 (4 * args.length)) 16 with h | h
    · rw [Nat.max_eq_right h]
      exact Int.dvd_refl 16
    · rw [Nat.max_eq_left h]
      exact align16_dvd _
  · obtain ⟨a, -, rfl⟩ := mem_map.mp hl
    exact ⟨_, _, rfl⟩

/-! ### Calls of compiled code -/

lemma Passes.newLabel {f : String → Emit β} (hs : stem = "obj" ∨ stem = "cls")
    (hf : ∀ name, Label.IsLookup name → Passes (own ++ [name]) (f name)) : Passes own (newLabel stem >>= f) := by
  refine Lays.newLabel ?_ fun k => hf _ ⟨k, ?_⟩
  · rcases hs with rfl | rfl <;> decide
  · rcases hs with rfl | rfl
    · exact .inl rfl
    · exact .inr rfl

lemma passes_loadClassOfTop : Passes [] loadClassOfTop :=
  .newLabel (.inl rfl) fun heap hh => .newLabel (.inr rfl) fun done hd => lays_writeAll
    (inside_of_labels [heap, done] rfl rfl rfl (List.Subset.refl _) (by simp [hh, hd]))

lemma passes_loadReceiverClass (receiver : Operand) : Passes [] (loadReceiverClass receiver) := by
  fun_cases loadReceiverClass receiver with
  | case1 | case3 => exact passes_write rfl rfl rfl rfl
  | case2 | case4 => exact passes_loadClassOfTop

lemma levels_invokePlain (target : CallTarget) (call : CallArgs) : Levels [] (invokePlain target call) := by
  refine Levels.pass (align16_dvd _) fun _ => (passes_operands fun lines hl => ?_).returns fun _ =>
    (passes_write rfl rfl rfl rfl).returns fun _ => ?_
  · obtain ⟨k, hk, rfl⟩ := mem_mapIdx.mp hl
    exact ⟨_, _, rfl⟩
  · split
    · exact (passes_loadReceiverClass _).returns fun _ => (passes_write rfl rfl rfl rfl).returns fun _ =>
        returns_write _
    · exact (passes_write rfl rfl rfl rfl).returns fun _ => returns_write _

lemma levels_invokeSplat (x : Exits) (target : CallTarget) (call : CallArgs) (array : Operand) :
    Levels [] (invokeSplat x target call array) := by
  cases target <;> exact levels_callRuntime _ _ _

/-- The call itself, before what comes behind it. -/
def invokeThen (x : Exits) (target : CallTarget) (call : CallArgs) (m : Emit Unit) : Emit Unit := do
  match call.splat with
  | some array => invokeSplat x target call array
  | none => invokePlain target call
  m

lemma levels_invoke (x : Exits) (target : CallTarget) (call : CallArgs) :
    Levels [] (invoke x target call) := by
  have hc {own : List String} {m : Emit Unit} (hm : Levels own m) : Levels own (invokeThen x target call m) := by
    rw [invokeThen]
    cases call.splat with
    | none => exact (levels_invokePlain _ _).bind fun _ => hm
    | some array => exact (levels_invokeSplat _ _ _ _).bind fun _ => hm
  refine levels_branchPoint.bind fun _ => ?_
  cases call.breakId with
  | none => exact hc (levels_line rfl rfl)
  | some id =>
    -- the stack pointer is kept before the call, which is no look-up of a class
    have hk (text : String) (disp : Int) : Level [.directive text, .movl esp (.mem ebp disp)] :=
      Level.append (calm_of_refers_eq_nil rfl rfl).level (calm_movl_reg esp _).level
    dsimp only
    rw [bind_map_left]
    exact .breakSite (fun text disp _ hco => (hk text disp).append hco)
      (hc ((levels_label (Label.not_isLookup_break id)).bind fun _ => levels_line rfl rfl))

end Emit

end Garnet
