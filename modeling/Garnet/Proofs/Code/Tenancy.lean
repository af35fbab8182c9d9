import Garnet.Proofs.Code.Level

/-!
# Who has a slot

A free slot is taken again for another purpose. That this is never too early is said with a second code, the
*private* one: the same functions write it with `Emitter.reuse` off, so each purpose has a slot of its own. The
code itself has the same lines, with `place i` for slot `i` (`Line.Placed`).

A line needs the slots that are operands of it (`Line.Needs`). The label behind a call also needs the slot that
keeps the stack pointer for a `break`, and the first word of a handler record stands for all four. If private
slots `i` and `j` have the same place and `i` was taken first, no line needs `i` from the first line on that
needs `j` (`Line.Retires`).

A `Tenancy` says which private slot each slot in use stands for, and `Tenancy.Fits` ties it to what has been
written. It is kept when a line is written that needs tenants only (`Fits.write`), and when slots are taken
(`Fits.take`) and given back (`Fits.release`).
-/

namespace Garnet

variable {j : Nat} {l : Line}

open List Reg Numeral Operand

/-! ### Operands in the frame -/

lemma slotDisp_injective {i : Nat} (h : slotDisp i = slotDisp j) : i = j := by
  rw [slotDisp, slotDisp] at h
  omega

lemma Operand.slot_injective {i : Nat} (h : slot i = .slot j) : i = j :=
  slotDisp_injective (mem.inj h).2

/-- The argument words of a routine that have names. -/
def Routine.argWords (r : Routine) : Nat := r.firstParamWord + r.params.length

/-- An operand that is no slot of the routine: it lies outside the frame, or is an argument word or the
number of arguments. The one operand that a symbol places in a frame is the slot that `break` looks up, in
the frame it goes to. -/
def Operand.IsFixed (r : Routine) : Operand → Prop
  | .mem .ebp d => (∃ i ≤ r.argWords, d = argDisp i) ∨ (d = -4 ∧ r.usesNumArgs)
  | .symMem name .ebp => ∃ id : Int, name = "__brk_sp_" ++ decimal id
  | .indirect o => o.IsFixed r
  | _ => True

lemma Operand.not_isFixed_slot (r : Routine) (i : Nat) : ¬(slot i).IsFixed r := by
  rintro (⟨k, -, hk⟩ | ⟨hd, -⟩)
  · rw [slotDisp, argDisp] at hk
    omega
  · rw [slotDisp] at hd
    omega

namespace Line

def operands : Line → List Operand
  | .ins _ operands => operands
  | _ => []

/-- The directive that tells in which slot the stack pointer is kept for a `break`. -/
def keep (id : Int) (i : Nat) : Line :=
  .directive (".equ\t__brk_sp_" ++ decimal id ++ ", " ++ decimal (slotDisp i))

lemma keep_injective {id id' : Int} {i i' : Nat} (h : keep id i = keep id' i') : id = id' ∧ i = i' := by
  have hcom k : ',' ∉ (decimal k).toList := fun hmem => by
    rcases Label.isDigit_or_minus_of_mem hmem with hd | hm
    · exact absurd hd (by decide)
    · exact absurd hm (by decide)
  have hcut id i : (".equ\t__brk_sp_" ++ decimal id ++ ", " ++ decimal (slotDisp i)).toList =
        ".equ\t__brk_sp_".toList ++ ((decimal id).toList ++
          ',' :: ' ' :: (decimal (slotDisp i)).toList) := by
    simp [String.toList_append]
  have hc := congrArg String.toList (Line.directive.inj h)
  rw [hcut, hcut, append_cancel_left_eq] at hc
  have hid : id = id' := eq_of_decimal_eq (String.toList_inj.mp
    (Label.eq_of_append_cons_eq_left (hcom id) (hcom id') hc))
  subst hid
  rw [append_cancel_left_eq] at hc
  have hdi := tail_eq_of_cons_eq (tail_eq_of_cons_eq hc)
  exact ⟨rfl, slotDisp_injective (eq_of_decimal_eq (String.toList_inj.mp hdi))⟩

/-- The lines that put the stack pointer and the handler into the record whose words are the slots from `f`
on, the last word first. -/
def handling (f : Nat) (handler : String) : List Line :=
  [.movl esp (.slot (f + 1)), .movl (.addr handler) (.slot f)]

/-! ### What lines need -/

/-- A line behind the lines `before` needs what a slot holds. -/
inductive Needs (before : List Line) : Line → Nat → Prop
  | operand {l i} : .slot i ∈ l.operands → Needs before l i
  | keep {id i} : Needs before (.keep id i) i
  /-- The call is over, and with it the time in which its block can leave it. -/
  | resume {id : Int} {i} : .keep id i ∈ before → Needs before (.label (".Lbrk_" ++ decimal id)) i
  /-- The first word of a handler record stands for the record. -/
  | record {l f handler i} : handling f handler <:+: before → .slot (f + 3) ∈ l.operands → f ≤ i → i ≤ f + 3 →
      Needs before l i

/-- Slot `i` is not needed any more from the first line on that needs slot `j`. -/
def Retires (code : List Line) (i j : Nat) : Prop :=
  ∀ before l after, code = before ++ l :: after → l.Needs before i →
    ∀ before' l' after', before ++ [l] = before' ++ l' :: after' → ¬l'.Needs before' j

lemma Retires.concat {code : List Line} {i : Nat} (h : Retires code i j) (hl : ¬l.Needs code i) :
    Retires (code ++ [l]) i j := by
  intro before x after hs hx
  rcases eq_append_cons_cases hs with ⟨rest, hr⟩ | ⟨before', rfl, hla⟩
  · exact h before x rest hr hx
  · -- the line is the last one
    cases before' with
    | nil =>
      cases hla
      rw [append_nil] at hx
      exact absurd hx hl
    | cons y before' => simp at hla

/-! ### The same line with other slots -/

end Line

/-- An operand, and what stands for it in the private code. -/
inductive Operand.Placed (r : Routine) (place : Nat → Nat) (n : Nat) : Operand → Operand → Prop
  | fixed {o} : o.IsFixed r → Placed r place n o o
  | slot {i} : i < n → Placed r place n (.slot (place i)) (.slot i)

/-- A line, and the one that stands for it in the private code, where `n` slots are taken in the private code
and slot `i` of them is at `place i`. -/
inductive Line.Placed (r : Routine) (place : Nat → Nat) (n : Nat) : Line → Line → Prop
  | ins {opcode os os'} : List.Forall₂ (Operand.Placed r place n) os os' →
      Placed r place n (.ins opcode os) (.ins opcode os')
  | label {name} : Placed r place n (.label name) (.label name)
  | keep {id i} : i < n → Placed r place n (.keep id (place i)) (.keep id i)

section

variable {r : Routine} {place place' : Nat → Nat} {n n' : Nat}

lemma Operand.Placed.mono (hn : n ≤ n') (hp : ∀ i < n, place' i = place i) {o o' : Operand}
    (h : o.Placed r place n o') : o.Placed r place' n' o' := by
  cases h with
  | fixed ho => exact .fixed ho
  | slot hi => exact hp _ hi ▸ .slot (Nat.lt_of_lt_of_le hi hn)

lemma Line.Placed.mono (hn : n ≤ n') (hp : ∀ i < n, place' i = place i) {l' : Line}
    (h : l.Placed r place n l') : l.Placed r place' n' l' := by
  cases h with
  | ins hos => exact .ins (hos.imp fun _ _ => Operand.Placed.mono hn hp)
  | label => exact .label
  | keep hi => exact hp _ hi ▸ .keep (Nat.lt_of_lt_of_le hi hn)

lemma forall_right_of_forall₂ {α β : Type} {R : α → β → Prop} {p : β → Prop} (hp : ∀ a b, R a b → p b)
    {as : List α} {bs : List β} (h : List.Forall₂ R as bs) : ∀ b ∈ bs, p b := by
  induction h with
  | nil => exact fun _ => nofun
  | cons hab _ ih => exact forall_mem_cons.mpr ⟨hp _ _ hab, ih⟩

lemma forall_left_of_forall₂ {α β : Type} {R : α → β → Prop} {p : α → Prop} (hp : ∀ a b, R a b → p a)
    {as : List α} {bs : List β} (h : List.Forall₂ R as bs) : ∀ a ∈ as, p a :=
  forall_right_of_forall₂ (fun b a => hp a b) h.flip

lemma Operand.Placed.lt {o : Operand} (h : o.Placed r place n (.slot j)) : j < n := by
  generalize ho : Operand.slot j = o' at h
  cases h with
  | fixed hf => exact absurd (ho ▸ hf) (Operand.not_isFixed_slot r j)
  | slot hi => exact Operand.slot_injective ho ▸ hi

lemma Line.Placed.lt {l' : Line} (h : l.Placed r place n l') (hj : .slot j ∈ l'.operands) : j < n := by
  cases h with
  | ins hos =>
    exact forall_right_of_forall₂ (p := fun o => o = .slot j → j < n) (fun _ _ ho heq => (heq ▸ ho).lt) hos
      _ hj rfl
  | label | keep => exact absurd hj not_mem_nil

end

/-! ### Tenants -/

/-- Which private slots the slots in use stand for. -/
structure Tenancy where
  /-- The private slots, in the order of the slots that they have. -/
  tenants : List Nat
  /-- The private slots in which the stack pointer has been kept for a `break`. -/
  kept : List (Int × Nat)

namespace Tenancy

/-- One tenancy extends another: all that was in use is in use for the same purpose. -/
instance : Preorder Tenancy where
  le t u := t.tenants <+: u.tenants ∧ t.kept ⊆ u.kept
  le_refl t := ⟨prefix_rfl, List.Subset.refl _⟩
  le_trans _ _ _ h h' := ⟨h.1.trans h'.1, List.Subset.trans h.2 h'.2⟩

lemma tenant_mono {t u : Tenancy} (h : t ≤ u) {k i : Nat} (hk : t.tenants[k]? = some i) :
    u.tenants[k]? = some i := by
  obtain ⟨more, hm⟩ := h.1
  obtain ⟨hlt, -⟩ := List.getElem?_eq_some_iff.mp hk
  rw [← hm, getElem?_append_left hlt, hk]

variable (t : Tenancy)

/-- The tenancy when the slots from `k` on have been given back. -/
def upTo (k : Nat) : Tenancy := { t with tenants := t.tenants.take k }

/-- The tenancy when `c` slots have been taken for the private slots from `n` on. -/
def take (n c : Nat) : Tenancy := { t with tenants := t.tenants ++ range' n c }

/-- The tenancy when the stack pointer is kept in a private slot for a `break`. -/
def keeping (id : Int) (i : Nat) : Tenancy := { t with kept := (id, i) :: t.kept }

lemma le_take (n c : Nat) : t ≤ t.take n c := ⟨prefix_append _ _, List.Subset.refl _⟩

lemma le_keeping (id : Int) (i : Nat) : t ≤ t.keeping id i :=
  ⟨prefix_rfl, subset_cons_self _ _⟩

lemma getElem?_take {n c : Nat} (hj : j < c) :
    (t.take n c).tenants[t.tenants.length + j]? = some (n + j) := by
  rw [take, getElem?_append_right (Nat.le_add_right _ _), Nat.add_sub_cancel_left,
    getElem?_range' hj, one_mul]

variable {r : Routine} {t u : Tenancy} {place : Nat → Nat} {n m : Nat} {code code' : List Line}

/-- An operand, and what stands for it in the private code. If it is a slot, it is in use. -/
inductive Holds (r : Routine) (t : Tenancy) : Operand → Operand → Prop
  | fixed {o} : o.IsFixed r → Holds r t o o
  | slot {k i} : t.tenants[k]? = some i → Holds r t (.slot k) (.slot i)

lemma Holds.mono (htu : t ≤ u) {o o' : Operand} (h : t.Holds r o o') : u.Holds r o o' := by
  cases h with
  | fixed ho => exact .fixed ho
  | slot hk => exact .slot (tenant_mono htu hk)

lemma Holds.mem_tenants {o : Operand} {i : Nat} (h : t.Holds r o (.slot i)) : i ∈ t.tenants := by
  generalize ho : Operand.slot i = o' at h
  cases h with
  | fixed hf => exact absurd (ho ▸ hf) (not_isFixed_slot r i)
  | slot hk => exact Operand.slot_injective ho ▸ mem_iff_getElem?.mpr ⟨_, hk⟩

/-- The tenancy fits to a code and a private code. The private code has taken `n` slots, and the code has
not taken more than `m` at a time. -/
structure Fits (r : Routine) (t : Tenancy) (place : Nat → Nat) (n m : Nat) (code code' : List Line) :
    Prop where
  placed : List.Forall₂ (Line.Placed r place n) code code'
  /-- Each variable has its slot to itself. -/
  named : range (Frame.ofRoutine r).named <+: t.tenants
  named_le : ∀ i < n, (Frame.ofRoutine r).named ≤ i → (Frame.ofRoutine r).named ≤ place i
  place_lt : ∀ i < n, place i < m
  tenant : ∀ k i, t.tenants[k]? = some i → i < n ∧ place i = k
  /-- Of the private slots at one place, the one that has it is the last. -/
  latest : ∀ j < n, ∀ i, t.tenants[place j]? = some i → j ≤ i
  sorted : t.tenants.Pairwise (· < ·)
  /-- The words of a handler record stay together. -/
  record : ∀ f handler, Line.handling f handler <:+: code' → f + 3 < n ∧ ∀ j ≤ 3, place (f + j) = place f + j
  keep : ∀ id i, .keep id i ∈ code' → (id, i) ∈ t.kept
  kept_lt : ∀ p ∈ t.kept, p.2 < n
  unique : ∀ p ∈ t.kept, ∀ q ∈ t.kept, p.1 = q.1 → p = q
  retires : ∀ i j, i < j → j < n → place i = place j → Line.Retires code' i j

lemma add_le_of_sorted {as : List Nat} (h : as.Pairwise (· < ·)) {k d x y : Nat} (hx : as[k]? = some x)
    (hy : as[k + d]? = some y) : x + d ≤ y := by
  induction d generalizing y with
  | zero => exact (Option.some.inj (hx.symm.trans hy)).le
  | succ d ih =>
    obtain ⟨hlt, hy⟩ := List.getElem?_eq_some_iff.mp hy
    have hlt' : k + d < as.length := by omega
    have hs := pairwise_iff_getElem.mp h (k + d) (k + (d + 1)) hlt' hlt (by omega)
    have hle := ih (List.getElem?_eq_getElem hlt')
    omega

namespace Fits

variable (h : Fits r t place n m code code')
include h

lemma placed_of_holds {o o' : Operand} (ho : t.Holds r o o') : o.Placed r place n o' := by
  cases ho with
  | fixed ho => exact .fixed ho
  | slot hk =>
    obtain ⟨hlt, rfl⟩ := h.tenant _ _ hk
    exact .slot hlt

lemma lt_of_needs {before after : List Line} {i : Nat}
    (hs : code' = before ++ l :: after) (hl : l.Needs before i) : i < n := by
  subst hs
  have hmem : l ∈ before ++ l :: after := mem_append_right _ mem_cons_self
  cases hl with
  | operand hi =>
    exact forall_right_of_forall₂ (fun _ _ hl => hl.lt) h.placed l hmem hi
  | keep => exact h.kept_lt _ (h.keep _ _ hmem)
  | resume hk => exact h.kept_lt _ (h.keep _ _ (mem_append_left _ hk))
  | record hp _ hle hle' =>
    have hlt := (h.record _ _ (hp.trans (prefix_append _ _).isInfix)).1
    omega

/-- The words of a record are in use as long as its first word is. -/
lemma mem_tenants_of_record {f i : Nat} {handler : String}
    (hpa : Line.handling f handler <:+: code') (hf : f + 3 ∈ t.tenants) (hle : f ≤ i)
    (hle' : i ≤ f + 3) : i ∈ t.tenants := by
  obtain ⟨j, rfl⟩ := Nat.exists_eq_add_of_le hle
  obtain ⟨hlt, hp⟩ := h.record f handler hpa
  obtain ⟨k, hk⟩ := mem_iff_getElem?.mp hf
  have hk3 := (h.tenant k _ hk).2
  rw [hp 3 le_rfl] at hk3
  obtain ⟨hklt, -⟩ := List.getElem?_eq_some_iff.mp hk
  have hj := hp j (by omega)
  have hjlt : place (f + j) < t.tenants.length := by omega
  obtain ⟨i', hi'⟩ : ∃ i', t.tenants[place (f + j)]? = some i' := ⟨_, List.getElem?_eq_getElem hjlt⟩
  -- the tenant at that word is no earlier than `f + j`, and no later since the tenants are in order
  have hl := h.latest (f + j) (by omega) i' hi'
  have hs := add_le_of_sorted h.sorted hi' (by rw [show place (f + j) + (3 - j) = k by omega]; exact hk)
  obtain rfl : i' = f + j := by omega
  exact mem_iff_getElem?.mpr ⟨_, hi'⟩

theorem write {l' : Line} (hl : l.Placed r place n l') (hn : ∀ i, l'.Needs code' i → i ∈ t.tenants)
    (hr : ∀ f handler, l' = .movl (.addr handler) (.slot f) → ∃ k, ∀ j ≤ 3, t.tenants[k + j]? = some (f + j))
    (hke : ∀ id i, l' = .keep id i → (id, i) ∈ t.kept) :
    Fits r t place n m (code ++ [l]) (code' ++ [l']) where
  placed := rel_append h.placed (.cons hl .nil)
  named := h.named
  named_le := h.named_le
  place_lt := h.place_lt
  tenant := h.tenant
  latest := h.latest
  sorted := h.sorted
  record f handler hp := by
    rcases infix_concat_iff.mp hp with hla | hp
    · obtain ⟨before, hb⟩ := hla
      have hli := congrArg getLast? hb
      obtain ⟨k, hk⟩ := hr f handler (by simpa [Line.handling, eq_comm] using hli)
      refine ⟨(h.tenant _ _ (hk 3 le_rfl)).1, fun j hj => ?_⟩
      rw [(h.tenant _ _ (hk j hj)).2, (h.tenant _ f (hk 0 (Nat.zero_le _))).2]
      rfl
    · exact h.record f handler hp
  keep id i hmem := by
    rcases mem_append.mp hmem with hmem | hmem
    · exact h.keep id i hmem
    · exact hke id i (mem_singleton.mp hmem).symm
  kept_lt := h.kept_lt
  unique := h.unique
  retires i j hij hj hpla := by
    refine (h.retires i j hij hj hpla).concat fun hne => ?_
    -- a tenant is the last one at its place
    obtain ⟨k, hk⟩ := mem_iff_getElem?.mp (hn i hne)
    have hle := h.latest j hj i (by rw [← hpla, (h.tenant k i hk).2, hk])
    omega

lemma ins {opcode : String} {os os' : List Operand} (hos : List.Forall₂ (t.Holds r) os os')
    (hr : ∀ f handler, Line.ins opcode os' = .movl (.addr handler) (.slot f) →
      ∃ k, ∀ j ≤ 3, t.tenants[k + j]? = some (f + j)) :
    Fits r t place n m (code ++ [.ins opcode os]) (code' ++ [.ins opcode os']) := by
  have hs {i} (hi : .slot i ∈ os') : i ∈ t.tenants :=
    forall_right_of_forall₂ (p := fun o => o = .slot i → i ∈ t.tenants)
      (fun _ _ ho heq => (heq ▸ ho).mem_tenants) hos _ hi rfl
  refine h.write (.ins (hos.imp fun _ _ => h.placed_of_holds)) (fun i hn => ?_) hr nofun
  cases hn with
  | operand hi => exact hs hi
  | record hp hf hle hle' => exact h.mem_tenants_of_record hp (hs hf) hle hle'

/-- A label. The slots in which the stack pointer is kept for a `break` that comes back here are in use. -/
lemma label {name : String}
    (hn : ∀ id i, name = ".Lbrk_" ++ decimal id → (id, i) ∈ t.kept → i ∈ t.tenants) :
    Fits r t place n m (code ++ [.label name]) (code' ++ [.label name]) := by
  refine h.write .label (fun i hne => ?_) nofun nofun
  cases hne with
  | operand hi => exact absurd hi not_mem_nil
  | resume hk => exact hn _ _ rfl (h.keep _ _ hk)
  | record _ hf => exact absurd hf not_mem_nil

/-- The stack pointer is to be kept in a slot in use, for a `break` that no slot was kept for. -/
lemma keeping {id : Int} {i : Nat} (hi : i ∈ t.tenants)
    (hid : ∀ p ∈ t.kept, p.1 ≠ id) : Fits r (t.keeping id i) place n m code code' where
  placed := h.placed
  named := h.named
  named_le := h.named_le
  place_lt := h.place_lt
  tenant := h.tenant
  latest := h.latest
  sorted := h.sorted
  record := h.record
  keep id' i' hmem := mem_cons_of_mem _ (h.keep id' i' hmem)
  kept_lt := by
    obtain ⟨k, hk⟩ := mem_iff_getElem?.mp hi
    exact forall_mem_cons.mpr ⟨(h.tenant k i hk).1, h.kept_lt⟩
  unique := by
    refine forall_mem_cons.mpr ⟨forall_mem_cons.mpr ⟨fun _ => rfl, fun q hq heq => ?_⟩,
      fun p hp => forall_mem_cons.mpr ⟨fun heq => ?_, fun q hq => h.unique p hp q hq⟩⟩
    · exact absurd heq.symm (hid q hq)
    · exact absurd heq (hid p hp)
  retires := h.retires

lemma keepLine {id : Int} {k i : Nat} (hk : t.tenants[k]? = some i)
    (hke : (id, i) ∈ t.kept) : Fits r t place n m (code ++ [.keep id k]) (code' ++ [.keep id i]) := by
  obtain ⟨hlt, rfl⟩ := h.tenant k i hk
  refine h.write (.keep hlt) (fun j hn => ?_) nofun fun id' i' heq => ?_
  · obtain rfl : j = i := by
      generalize hl : Line.keep id i = l at hn
      cases hn with
      | operand hj => exact absurd (hl ▸ hj) not_mem_nil
      | keep => exact (Line.keep_injective hl).2.symm
      | resume => cases hl
      | record _ hf => exact absurd (hl ▸ hf) not_mem_nil
    exact mem_iff_getElem?.mpr ⟨_, hk⟩
  · obtain ⟨rfl, rfl⟩ := Line.keep_injective heq
    exact hke

lemma upTo {k : Nat} (hk : (Frame.ofRoutine r).named ≤ k) : Fits r (t.upTo k) place n m code code' := by
  have hsub {j i} (hj : (t.upTo k).tenants[j]? = some i) : t.tenants[j]? = some i :=
    tenant_mono (t := t.upTo k) ⟨ take_prefix _ _, List.Subset.refl _⟩ hj
  refine { h with
    named := ?_
    tenant := fun j i hj => h.tenant j i (hsub hj)
    latest := fun j hj i hi => h.latest j hj i (hsub hi)
    sorted := h.sorted.sublist (take_sublist _ _) }
  rw [Tenancy.upTo, prefix_take_iff, length_range]
  exact ⟨h.named, hk⟩

/-- Slots are taken: in the private code they are new, in the code they follow those in use. -/
theorem take (c : Nat) :
    Fits r (t.take n c) (fun i => if i < n then place i else t.tenants.length + (i - n)) (n + c)
      (max m (t.tenants.length + c)) code code' := by
  have hold {i} (hi : i < n) : (if i < n then place i else t.tenants.length + (i - n)) = place i := if_pos hi
  have hnew {i} (hi : n ≤ i) :
      (if i < n then place i else t.tenants.length + (i - n)) = t.tenants.length + (i - n) :=
    if_neg (Nat.not_lt.mpr hi)
  have hnam : (Frame.ofRoutine r).named ≤ t.tenants.length := by simpa using h.named.length_le
  -- a slot in use has its tenant from before, or is one of the new ones
  have hc {k i} (hk : (t.take n c).tenants[k]? = some i) :
      t.tenants[k]? = some i ∨ ∃ j < c, k = t.tenants.length + j ∧ i = n + j := by
    rw [Tenancy.take, getElem?_append] at hk
    split at hk
    · exact .inl hk
    · obtain ⟨hlt, hi⟩ := List.getElem?_eq_some_iff.mp hk
      rw [length_range'] at hlt
      rw [getElem_range', one_mul] at hi
      exact .inr ⟨k - t.tenants.length, hlt, by omega, hi.symm⟩
  refine
    { placed := h.placed.imp fun _ _ => Line.Placed.mono (Nat.le_add_right _ _) fun i hi => hold hi
      named := h.named.trans (prefix_append _ _)
      named_le := fun i hi hle => ?_
      place_lt := fun i hi => ?_
      tenant := fun k i hk => ?_
      latest := fun j hj i hi => ?_
      sorted := ?_
      record := fun f handler hpa => ?_
      keep := h.keep
      kept_lt := fun p hp => Nat.lt_of_lt_of_le (h.kept_lt p hp) (Nat.le_add_right _ _)
      unique := h.unique
      retires := fun i j hij hj hpla => ?_ }
  · rcases Nat.lt_or_ge i n with hlt | hge
    · rw [hold hlt]
      exact h.named_le i hlt hle
    · rw [hnew hge]
      omega
  · rcases Nat.lt_or_ge i n with hlt | hge
    · rw [hold hlt]
      exact Nat.lt_of_lt_of_le (h.place_lt i hlt) (Nat.le_max_left _ _)
    · rw [hnew hge]
      exact Nat.lt_of_lt_of_le (by omega) (Nat.le_max_right _ _)
  · rcases hc hk with hk | ⟨j, hj, rfl, rfl⟩
    · obtain ⟨hlt, hpla⟩ := h.tenant k i hk
      exact ⟨by omega, by rw [hold hlt, hpla]⟩
    · exact ⟨by omega, by rw [hnew (Nat.le_add_right _ _), Nat.add_sub_cancel_left]⟩
  · rcases Nat.lt_or_ge j n with hlt | hge
    · rw [hold hlt] at hi
      rcases hc hi with hi | ⟨j', -, -, rfl⟩
      · exact h.latest j hlt i hi
      · omega
    · rw [hnew hge] at hi
      rcases hc hi with hi | ⟨j', -, hk, rfl⟩
      · obtain ⟨hlt, -⟩ := List.getElem?_eq_some_iff.mp hi
        omega
      · omega
  · refine pairwise_append.mpr ⟨h.sorted, pairwise_lt_range', fun i hi j hj => ?_⟩
    obtain ⟨k, hk⟩ := mem_iff_getElem?.mp hi
    obtain ⟨j', -, rfl⟩ := mem_range'.mp hj
    have hlt := (h.tenant k i hk).1
    omega
  · obtain ⟨hlt, hpla⟩ := h.record f handler hpa
    refine ⟨by omega, fun j hj => ?_⟩
    rw [hold (by omega), hold (by omega), hpla j hj]
  · rcases Nat.lt_or_ge j n with hlt | hge
    · rw [hold hlt, hold (by omega)] at hpla
      exact h.retires i j hij hlt hpla
    · -- no line needs a slot that was just taken
      intro before l after hs _ before' l' after' hs' hn
      have hco : code' = before' ++ l' :: (after' ++ after) := by
        rw [hs, ← singleton_append, ← append_assoc, hs', append_assoc, cons_append]
      have hlt := h.lt_of_needs hco hn
      omega

end Fits

lemma fits_start (r : Routine) : Fits r ⟨range (Frame.ofRoutine r).named, []⟩ id
    (Frame.ofRoutine r).named (Frame.ofRoutine r).named [] [] where
  placed := .nil
  named := prefix_rfl
  named_le _ _ hle := hle
  place_lt _ hi := hi
  tenant k i hk := by
    obtain ⟨hlt, hi⟩ := List.getElem?_eq_some_iff.mp hk
    rw [getElem_range] at hi
    exact ⟨by simpa [hi] using hlt, hi.symm⟩
  latest j hj i hi := by
    obtain ⟨_, hget⟩ := List.getElem?_eq_some_iff.mp hi
    rw [getElem_range] at hget
    exact hget.le
  sorted := pairwise_lt_range
  record f handler hpa := absurd (infix_nil.mp hpa) (by simp [Line.handling])
  keep id i hmem := absurd hmem not_mem_nil
  kept_lt p hp := absurd hp not_mem_nil
  unique p hp := absurd hp not_mem_nil
  retires i j hij hj hpla := absurd hpla (Nat.ne_of_lt hij)

end Tenancy

end Garnet
