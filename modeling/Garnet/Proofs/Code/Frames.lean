import Garnet.Proofs.Code.Slots
import Garnet.Proofs.Code.Stack

/-!
# Stack frames of routines

Every operand of a routine that is relative to `%ebp` lies in the frame of the routine (`Operand.InFrame`):

* above, an argument word that has a name, or the first one behind those;
* the number of arguments, which is there if the prologue has pushed it;
* below, a slot, and the prologue has moved the stack pointer below the last one.

Slots hold variables first and temporaries behind them. By `slots_apart` a slot of a temporary is taken again only
when no line behind needs what it held. Lines are taken in the order of the text, not that in which they run.
-/

namespace Garnet

open List Reg Line Prologue Operand Garnet.Frame

/-! ### Frames -/

/-- An operand that lies in the frame of a routine with `slots` slots, if it is relative to `%ebp`: the number
of arguments, a slot, or an argument word. An operand that a symbol gives is in the frame that a `break` goes
to, and the code of that frame tells its slot. -/
def Operand.InFrame (r : Routine) (slots : Nat) : Operand → Prop
  | .mem .ebp d => (d = -4 ∧ r.usesNumArgs) ∨ (-4 * (slots + 1 : Int) ≤ d ∧ d ≤ -8 ∧ 4 ∣ d) ∨
      (8 ≤ d ∧ d ≤ argDisp r.argWords ∧ 4 ∣ d)
  | .symMem name .ebp => ∃ id : Int, name = "__brk_sp_" ++ Numeral.decimal id
  | .indirect o => o.InFrame r slots
  | _ => True

section

variable {o : Operand} {r : Routine} {slots : Nat}

lemma Operand.inFrame_of_isFixed (h : o.IsFixed r) : o.InFrame r slots := by
  induction o with
  | mem base d =>
    cases base with
    | ebp =>
      rcases h with ⟨i, hi, rfl⟩ | hc
      · refine .inr (.inr ⟨?_, ?_, i + 2, rfl⟩)
        · rw [argDisp]
          omega
        · rw [argDisp, argDisp]
          omega
      · exact .inl hc
    | _ => trivial
  | symMem name base =>
    cases base with
    | ebp => exact h
    | _ => trivial
  | indirect o ih => exact ih h
  | _ => trivial

lemma Operand.inFrame_slot {i : Nat} (h : i < slots) : (slot i).InFrame r slots := by
  refine Or.inr (.inl ⟨?_, ?_, -(i + 2), ?_⟩)
  all_goals
    rw [slotDisp]
    omega

/-- The operands of a line lie in the frame, and so does the slot that a directive tells `break`. -/
structure Line.InFrame (r : Routine) (slots : Nat) (l : Line) : Prop where
  operands : ∀ o ∈ l.operands, o.InFrame r slots
  keep : ∀ id i, l = .keep id i → i < slots

lemma Line.inFrame_ins {opcode : String} {os : List Operand} (h : ∀ o ∈ os, o.InFrame r slots) :
    (ins opcode os).InFrame r slots :=
  ⟨h, nofun⟩

lemma Line.inFrame_label (name : String) : (label name).InFrame r slots := ⟨fun _ => nofun, nofun⟩

lemma Line.inFrame_of_isPlain {l : Line} (h : l.isPlain) : l.InFrame r slots := by
  cases l with
  | ins opcode os =>
    exact inFrame_ins fun o ho =>
      inFrame_of_isFixed (isFixed_of_isOutside (all_eq_true.mp h o ho))
  | label name => exact inFrame_label name
  | _ => cases h

lemma Line.forall_inFrame {lines : List Line} (h : lines.all isPlain) :
    ∀ l ∈ lines, l.InFrame r slots :=
  fun l hl => inFrame_of_isPlain (all_eq_true.mp h l hl)

lemma Line.inFrame_movl {src dst : Operand} (hsrc : src.InFrame r slots) (hdst : dst.InFrame r slots) :
    (movl src dst).InFrame r slots :=
  inFrame_ins (forall_mem_cons.mpr ⟨hsrc, forall_mem_singleton.mpr hdst⟩)

lemma Line.Placed.inFrame {place : Nat → Nat} {n : Nat} {l l' : Line} (h : l.Placed r place n l')
    (hplace : ∀ i < n, place i < slots) : l.InFrame r slots := by
  cases h with
  | ins hos =>
    refine inFrame_ins (forall_left_of_forall₂ (fun o o' ho => ?_) hos)
    cases ho with
    | fixed ho => exact inFrame_of_isFixed ho
    | slot hi => exact inFrame_slot (hplace _ hi)
  | label => exact inFrame_label _
  | keep hi =>
    refine ⟨fun _ => nofun, fun id i heq => ?_⟩
    obtain ⟨-, rfl⟩ := keep_injective heq
    exact hplace _ hi

namespace Prologue

section

variable (hslots : (ofRoutine r).named ≤ slots)
include hslots

lemma inFrame_home {name : String} (h : (ofRoutine r).home? name = some o) : o.InFrame r slots := by
  rcases home?_cases h with ⟨i, hi, rfl⟩ | ⟨i, hi, rfl⟩
  · exact inFrame_slot (Nat.lt_of_lt_of_le hi hslots)
  · exact inFrame_of_isFixed (isFixed_arg hi)

lemma inFrame_collectRest (hr : r.rest.isSome)
    (name : String) : ∀ l ∈ collectRest r ((ofRoutine r).home? name), l.InFrame r slots := by
  have hc : r.usesNumArgs := by rw [Routine.usesNumArgs, hr, Bool.true_or]
  have hn : (movl (.mem ebp (-4)) eax).InFrame r slots :=
    inFrame_movl (.inl ⟨rfl, hc⟩) trivial
  have hf : (leal (.arg (r.firstParamWord + r.params.length)) eax).InFrame r slots :=
    inFrame_ins (forall_mem_cons.mpr ⟨inFrame_of_isFixed (isFixed_arg le_rfl),
      forall_mem_singleton.mpr trivial⟩)
  have hp : ∀ l ∈ [.subl (.imm (r.firstParamWord + r.params.length : Nat)) eax, .subl (.imm 16) esp,
      .movl eax (.mem esp 4)], Line.InFrame r slots l := forall_inFrame rfl
  have hca : ∀ l ∈ [.movl eax (.mem esp 0), .call "__splat_to_array", .addl (.imm 16) esp],
      Line.InFrame r slots l := forall_inFrame rfl
  refine forall_mem_append.mpr ⟨?_, ?_⟩
  · exact forall_mem_cons.mpr ⟨hn, forall_mem_append.mpr ⟨hp, forall_mem_cons.mpr ⟨hf, hca⟩⟩⟩
  · cases hh : (ofRoutine r).home? name with
    | none => exact forall_mem_nil _
    | some o => exact forall_mem_singleton.mpr (inFrame_movl trivial (inFrame_home hslots hh))

lemma inFrame_moveParam (i : Nat) (name : String) :
    ∀ l ∈ moveParam r (ofRoutine r) i name, l.InFrame r slots := by
  rw [moveParam]
  split
  · split
    · rename_i o hh
      exact forall_mem_cons.mpr ⟨inFrame_movl (inFrame_home hslots hh) trivial,
        forall_inFrame rfl⟩
    · exact forall_mem_nil _
  · exact forall_mem_nil _

lemma inFrame_makeEnv (env : List String) : ∀ l ∈ makeEnv r (ofRoutine r) env, l.InFrame r slots := by
  refine forall_mem_append.mpr ⟨forall_mem_append.mpr ⟨forall_mem_append.mpr ⟨?_, ?_⟩, ?_⟩, ?_⟩
  · exact forall_inFrame rfl
  · cases hh : (ofRoutine r).home? "__env__" with
    | none => exact fun _ => nofun
    | some o => exact forall_mem_singleton.mpr (inFrame_movl trivial (inFrame_home hslots hh))
  · split
    · rename_i hk
      have hw : 2 ≤ r.argWords := by
        rw [Routine.argWords, Routine.firstParamWord, if_pos hk]
        omega
      exact forall_mem_cons.mpr
        ⟨inFrame_movl (inFrame_of_isFixed (isFixed_arg hw)) trivial,
          forall_inFrame rfl⟩
    · exact forall_inFrame rfl
  · refine forall_mem_cons.mpr ⟨inFrame_of_isPlain rfl, fun l hl => ?_⟩
    obtain ⟨lines, hlines, hl⟩ := mem_flatten.mp hl
    obtain ⟨i, hi, rfl⟩ := mem_mapIdx.mp hlines
    exact inFrame_moveParam hslots _ _ l hl

lemma inFrame_entering : ∀ l ∈ entering r (ofRoutine r), l.InFrame r slots := by
  refine forall_mem_append.mpr ⟨forall_mem_cons.mpr ⟨?_, fun l hl => ?_⟩, forall_mem_append.mpr ⟨?_, ?_⟩⟩
  · exact inFrame_movl (inFrame_of_isFixed (isFixed_arg (Nat.zero_le _))) trivial
  · obtain ⟨i, hi, rfl⟩ := mem_map.mp hl
    exact inFrame_movl trivial (inFrame_slot (Nat.lt_of_lt_of_le (mem_range.mp hi) hslots))
  · split
    · rename_i rest hr
      exact inFrame_collectRest hslots (hr ▸ rfl) rest
    · exact fun _ => nofun
  · split
    · exact inFrame_makeEnv hslots _
    · exact fun _ => nofun

end

lemma inFrame_setUp (r : Routine) (slots : Nat) : ∀ l ∈ setUp r slots, l.InFrame r slots := by
  intro l hl
  rcases mem_setUp hl with rfl | rfl | rfl | ⟨n, rfl⟩ <;> exact inFrame_of_isPlain rfl

lemma pushl_mem_setUp (r : Routine) (slots : Nat) : .pushl ebx ∈ setUp r slots ↔ r.usesNumArgs := by
  have hr : pushl ebx ∉ if 0 < reserve slots r.usesNumArgs then
      [subl (.imm (reserve slots r.usesNumArgs)) esp] else [] := by
    split <;> simp [pushl, subl]
  rw [setUp, mem_append, or_iff_left hr]
  cases r.usesNumArgs <;> simp [pushl, movl]

end Prologue

end

/-! ### Twins from the start -/

lemma twins_start (r : Routine) (t : Shared) :
    Twins r ⟨range (ofRoutine r).named, []⟩ (Emitter.start r t)
      { Emitter.start r t with reuse := false } where
  frame := rfl
  frame' := rfl
  shared := rfl
  registers := rfl
  free := List.Subset.refl _
  reuse := rfl
  reuse' := rfl
  next := length_range.symm
  kept _ hp := absurd hp not_mem_nil
  fits := ⟨id, Tenancy.fits_start r⟩

/-- The slots of a routine.

Every operand that is relative to `%ebp` lies in the frame: the number of arguments is there if the prologue
has pushed it, and the slots are above the stack pointer once the frame is set up. Variables have the first
slots. The code is the private code with other slots, in which each purpose has a slot of its own; where two
purposes share a slot, no line needs the first one from the first line on that needs the second one. -/
theorem slots_apart {r : Routine} {t t' : Shared} {lines : List Line}
    (h : emitRoutine r t = .ok (lines, t')) :
    ∃ (s s' : Emitter) (place : Nat → Nat),
      let slots := s.maxSlot
      let named := (ofRoutine r).named
      Emit.body r (Emitter.start r t) = .ok () s ∧
      lines = .label r.label ::
        (setUp r slots ++ (entering r (ofRoutine r) ++ s.lines)) ∧
      (∀ l ∈ lines, l.InFrame r slots) ∧
      (.pushl ebx ∈ setUp r slots ↔ r.usesNumArgs) ∧
      (8 + 4 * (slots + 1) : Int) ≤ 4 + sunk (setUp r slots) ∧
      (∀ name o, (ofRoutine r).home? name = some o →
        (∃ i < named, o = .slot i) ∨ ∃ i ≤ r.argWords, o = .arg i) ∧
      Emit.body r { Emitter.start r t with reuse := false } = .ok () s' ∧
      List.Forall₂ (Line.Placed r place s'.nextSlot) s.lines s'.lines ∧
      (∀ i < named, place i = i) ∧ (∀ i < s'.nextSlot, named ≤ i → named ≤ place i ∧ place i < slots) ∧
      ∀ i j, i < j → j < s'.nextSlot → place i = place j → Line.Retires s'.lines i j := by
  rw [emitRoutine] at h
  split at h
  · rename_i u s hbody
    obtain ⟨rfl, -⟩ := Prod.mk.inj (Except.ok.inj h)
    obtain ⟨u', s', w, hbody', htwins, -, -⟩ := Emit.steps_body r _ le_rfl (twins_start r t) hbody
    obtain ⟨place, hfits⟩ := htwins.fits
    have hnamed : ∀ i < (ofRoutine r).named, w.tenants[i]? = some i := fun i hi => by
      obtain ⟨more, hmore⟩ := hfits.named
      rw [← hmore, List.getElem?_append_left (by simpa using hi), List.getElem?_range hi]
    -- otherwise the variable at the last slot would have none
    have hslots : (ofRoutine r).named ≤ s.maxSlot := Nat.le_of_not_lt fun hlt => by
      obtain ⟨hi, hplace⟩ := hfits.tenant _ _ (hnamed _ hlt)
      have hlt' := hfits.place_lt _ hi
      omega
    have hlines : lines r s.frame s.maxSlot ++ s.entries.toList.map Entry.line =
        .label r.label :: (setUp r s.maxSlot ++
          (entering r (ofRoutine r) ++ s.lines)) := by
      rw [lines_eq, htwins.frame, List.cons_append, List.append_assoc]
      rfl
    rw [hlines]
    refine ⟨s, s', place, hbody, rfl, ?_, pushl_mem_setUp r _, ?_,
      fun name o => home?_cases, hbody', hfits.placed, fun i hi => (hfits.tenant i i (hnamed i hi)).2,
      fun i hi hle => ⟨hfits.named_le i hi hle, hfits.place_lt i hi⟩, hfits.retires⟩
    · refine List.forall_mem_cons.mpr ⟨inFrame_label _, List.forall_mem_append.mpr
        ⟨inFrame_setUp r _, List.forall_mem_append.mpr ⟨inFrame_entering hslots, ?_⟩⟩⟩
      exact forall_left_of_forall₂ (fun _ _ hl => hl.inFrame hfits.place_lt) hfits.placed
    · rw [sunk_setUp, align16]
      omega
  · cases h

/-- A method with two calls, each on the value of a call. -/
def twoSends : Routine where
  label := "two_sends"
  kind := .method
  blockParam := "__block__"
  params := []
  rest := none
  locals := []
  env := none
  body := .node .seq .zero 0 [
    .node .send .zero 1 [.node .call .zero 2 [.name "a", .absent, .absent], .name "f", .absent, .absent],
    .node .send .zero 3 [.node .call .zero 4 [.name "b", .absent, .absent], .name "g", .absent, .absent]]
  span := .zero

/-- The two receivers share a slot, and the first one is not needed any more where the second one is kept. -/
theorem slots_apart_twoSends : ∃ lines t' s s' place, emitRoutine twoSends {} = .ok (lines, t') ∧
      Emit.body twoSends (Emitter.start twoSends {}) = .ok () s ∧
      Emit.body twoSends { Emitter.start twoSends {} with reuse := false } = .ok () s' ∧
      s'.nextSlot = 2 ∧ .movl eax (.slot 1) ∈ s'.lines ∧
      List.Forall₂ (Line.Placed twoSends place s'.nextSlot) s.lines s'.lines ∧ place 0 = place 1 ∧
      Line.Retires s'.lines 0 1 := by
  have hok : (emitRoutine twoSends {}).isOk = true := by cbv
  have hslots : Ends (fun s => s.maxSlot = 1) (Emit.body twoSends (Emitter.start twoSends {})) := by cbv
  have hprivate : Ends (fun s => (s.nextSlot, s.lines.contains (.movl eax (.slot 1))) = (2, true))
      (Emit.body twoSends { Emitter.start twoSends {} with reuse := false }) := by cbv
  cases hemit : emitRoutine twoSends {} with
  | error e =>
    rw [hemit] at hok
    cases hok
  | ok p =>
    obtain ⟨lines, t'⟩ := p
    obtain ⟨s, s', place, hbody, -, -, -, -, -, hbody', hplaced, -, hplace, hretires⟩ := slots_apart hemit
    rw [hbody, Ends] at hslots
    rw [hbody', Ends] at hprivate
    obtain ⟨hnext, hmem⟩ := Prod.mk.inj hprivate
    have hsame : place 0 = place 1 := by
      have h0 := (hplace 0 (by omega) (Nat.zero_le _)).2
      have h1 := (hplace 1 (by omega) (Nat.zero_le _)).2
      omega
    exact ⟨lines, t', s, s', place, rfl, hbody, hbody', hnext, List.contains_iff_mem.mp hmem, hplaced, hsame,
      hretires 0 1 Nat.one_pos (by omega) hsame⟩

end Garnet
