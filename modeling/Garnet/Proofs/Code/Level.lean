import Garnet.Proofs.Code.Binding

/-!
# The stack pointer along the paths of a code

`Reaches code start i d` says that control can come to line `i` with the stack pointer `d` bytes below a fixed
place, from the first line with `start` bytes. Lines follow each other, jumps go to their labels, `break` comes
back to its label with the stack pointer kept for it, and a handler is entered with the one in its record.
Conditions are not looked at, so the relation may follow more paths than the machine takes, never fewer.

Arguments are passed in a sequence of lines, from the one that lowers the stack pointer to the one that raises
it. `Level code` says that these sequences are closed, that only the look-up of a class jumps within them, and
that at a call the stack pointer is lowered by a multiple of 16. Codes that have it have it together
(`Level.append`), and it fixes the stack pointer on every path (`Reaches.eq_of_level`).
-/

namespace Garnet

variable {l : Line} {i : Nat} {code : List Line}

open List Reg Label

/-! ### Lines -/

def Operand.address? : Operand → Option String
  | .addr name => some name
  | _ => none

def Operand.symbol? : Operand → Option String
  | .abs name => some name
  | _ => none

def Operand.isInFrame : Operand → Bool
  | .mem .ebp _ => true
  | _ => false

namespace Line

/-- By how many bytes a line lowers the stack pointer. -/
def lowers : Line → Int
  | .ins "pushl" [_] => 4
  | .ins "popl" [_] => -4
  | .ins "subl" [.imm n, .reg .esp] => n
  | .ins "addl" [.imm n, .reg .esp] => -n
  | _ => 0

/-- Whether arguments are being passed behind a line. -/
def passes (before : Bool) : Line → Bool
  | .ins "subl" [.imm _, .reg .esp] => true
  | .ins "addl" [.imm _, .reg .esp] => false
  | _ => before

def isCall : Line → Bool
  | .ins "call" _ => true
  | _ => false

/-- Whether control can go on with the next line. -/
def falls : Line → Bool
  | .ins "jmp" _ | .ins "ret" _ => false
  | _ => true

def target? : Line → Option String
  | .ins opcode operands =>
    if opcode.toList.head? = some 'j' then operands.head?.bind Operand.symbol? else none
  | _ => none

/-- The label of a handler that a line puts into a record. -/
def handler? : Line → Option String
  | .ins "movl" [src, dst] => if dst.isInFrame then src.address? else none
  | _ => none

/-- Whether a line keeps the stack pointer in the frame. -/
def isSave : Line → Bool
  | .ins "movl" [.reg .esp, .mem .ebp _] => true
  | _ => false

/-- By how many bytes lines lower the stack pointer. -/
def sunk (lines : List Line) : Int := (lines.map lowers).sum

/-- Whether arguments are being passed behind lines. -/
def passing (lines : List Line) : Bool := lines.foldl passes false

@[simp]
lemma sunk_nil : sunk [] = 0 := rfl

@[simp]
lemma sunk_append (lines lines' : List Line) : sunk (lines ++ lines') = sunk lines + sunk lines' := by
  simp [sunk]

@[simp]
lemma sunk_cons (lines : List Line) : sunk (l :: lines) = l.lowers + sunk lines := rfl

lemma sunk_take_succ (h : code[i]? = some l) :
    sunk (code.take (i + 1)) = sunk (code.take i) + l.lowers := by
  obtain ⟨hi, hget⟩ := List.getElem?_eq_some_iff.mp h
  rw [← take_append_getElem hi, sunk_append, hget, sunk_cons, sunk_nil, add_zero]

lemma sunk_eq_zero {lines : List Line} (h : ∀ l ∈ lines, l.lowers = 0) : sunk lines = 0 := by
  induction lines with
  | nil => rfl
  | cons l lines ih =>
    rw [sunk_cons, h l mem_cons_self, ih fun l' hl => h l' (mem_cons_of_mem l hl)]
    rfl

lemma passing_append {lines lines' : List Line} (h : passing lines = false) :
    passing (lines ++ lines') = passing lines' := by
  rw [passing, foldl_append, show lines.foldl passes false = false from h, passing]

end Line

/-! ### Paths -/

/-- Control can come to line `i` of a code with the stack pointer lowered by `d`. -/
inductive Reaches (code : List Line) (start : Int) : Nat → Int → Prop
  | start : Reaches code start 0 start
  | fall {i d l} : Reaches code start i d → code[i]? = some l → l.falls →
      Reaches code start (i + 1) (d + l.lowers)
  | jump {i d l label j} : Reaches code start i d → code[i]? = some l → l.target? = some label →
      code[j]? = some (.label label) → Reaches code start j d
  /-- The stack pointer was kept for a `break`. -/
  | resume {i d j} {id disp : Int} : Reaches code start (i + 1) d →
      code[i]? = some (.directive (".equ\t__brk_sp_" ++ Numeral.decimal id ++ ", " ++ Numeral.decimal disp)) →
      code[i + 1]? = some (.movl esp (.mem ebp disp)) →
      code[j]? = some (.label (".Lbrk_" ++ Numeral.decimal id)) → Reaches code start j d
  /-- The stack pointer was kept in the record of a handler. -/
  | handle {i d j} {disp : Int} {label : String} : Reaches code start i d →
      code[i]? = some (.movl esp (.mem ebp disp)) →
      code[i + 1]? = some (.movl (.addr label) (.mem ebp (disp + 4))) →
      code[j]? = some (.label label) → Reaches code start j d

/-! ### Codes -/

/-- A label in the look-up of the class of a receiver, which stands where arguments are passed. -/
def Label.IsLookup (label : String) : Prop :=
  ∃ k : Int, label = inner "obj" k ∨ label = inner "cls" k

namespace Line

/-- What a code at the level of a frame says of one of its lines, with the lines `before` it. -/
structure Fits (code before : List Line) (l : Line) : Prop where
  call : l.isCall → 16 ∣ sunk before
  save : l.isSave → passing before = false
  handler : ∀ name, l.handler? = some name → ¬IsLookup name
  label : ∀ name, l = .label name → (passing before = true ↔ IsLookup name)
  jumpOut : ∀ name, l.target? = some name → ¬IsLookup name → passing before = false
  jumpIn : ∀ name, l.target? = some name → IsLookup name →
    ∃ before' after, code = before' ++ .label name :: after ∧ sunk before' = sunk before

/-- A code that starts and ends with the stack pointer at the level of a frame, and leaves this level only
to pass arguments. -/
structure Level (code : List Line) : Prop where
  sunk : sunk code = 0
  passing : passing code = false
  outside : ∀ before after, code = before ++ after → Line.passing before = false → Line.sunk before = 0
  line : ∀ before l after, code = before ++ l :: after → Fits code before l

lemma eq_append_cons_cases {a b before after : List Line} (h : a ++ b = before ++ l :: after) :
    (∃ rest, a = before ++ l :: rest) ∨ ∃ before', before = a ++ before' ∧ b = before' ++ l :: after := by
  rcases append_eq_append_iff.mp h with ⟨before', rfl, hb⟩ | ⟨rest, rfl, hr⟩
  · exact .inr ⟨before', rfl, hb⟩
  · cases rest with
    | nil => exact .inr ⟨[], by simp, by simpa using hr.symm⟩
    | cons l' rest =>
      cases hr
      exact .inl ⟨rest, rfl⟩

namespace Level

variable {a b code : List Line}

lemma nil : Level [] where
  sunk := rfl
  passing := rfl
  outside before after h _ := by
    rw [(append_eq_nil_iff.mp h.symm).1]
    rfl
  line before l after h := absurd h.symm (by simp)

theorem append (ha : Level a) (hb : Level b) : Level (a ++ b) where
  sunk := by rw [sunk_append, ha.sunk, hb.sunk]; rfl
  passing := (passing_append ha.passing).trans hb.passing
  outside before after h hp := by
    rcases append_eq_append_iff.mp h with ⟨before', rfl, hb'⟩ | ⟨rest, rfl, -⟩
    · rw [passing_append ha.passing] at hp
      rw [sunk_append, ha.sunk, hb.outside before' after hb' hp]
      rfl
    · exact ha.outside before rest rfl hp
  line before l after h := by
    rcases eq_append_cons_cases h with ⟨rest, hr⟩ | ⟨before', rfl, hb'⟩
    · have hf := ha.line before l rest hr
      refine ⟨hf.call, hf.save, hf.handler, hf.label, hf.jumpOut, fun name hn hin => ?_⟩
      obtain ⟨p, q, rfl, hs⟩ := hf.jumpIn name hn hin
      exact ⟨p, q ++ b, by simp, hs⟩
    · have hf := hb.line before' l after hb'
      have hs : Line.sunk (a ++ before') = Line.sunk before' := by rw [sunk_append, ha.sunk, zero_add]
      have hp : Line.passing (a ++ before') = Line.passing before' := passing_append ha.passing
      refine ⟨?_, ?_, hf.handler, ?_, ?_, fun name hn hin => ?_⟩
      · rw [hs]; exact hf.call
      · rw [hp]; exact hf.save
      · rw [hp]; exact hf.label
      · rw [hp]; exact hf.jumpOut
      · obtain ⟨p, q, rfl, hs'⟩ := hf.jumpIn name hn hin
        exact ⟨a ++ p, q, by simp, by rw [hs, ← hs', sunk_append, ha.sunk, zero_add]⟩

end Level

/-- A line that leaves the stack pointer alone, and has to do with labels outside the look-up of classes
only. -/
structure Calm (l : Line) : Prop where
  lowers : l.lowers = 0
  passes : ∀ before, l.passes before = before
  label : ∀ name, l = .label name → ¬IsLookup name
  target : ∀ name, l.target? = some name → ¬IsLookup name
  handler : ∀ name, l.handler? = some name → ¬IsLookup name

lemma Calm.level (h : l.Calm) : Level [l] where
  sunk := by rw [sunk_cons, h.lowers]; rfl
  passing := h.passes false
  outside before after hc _ := by
    rcases singleton_eq_append_iff.mp hc with ⟨rfl, -⟩ | ⟨rfl, -⟩
    · rfl
    · rw [sunk_cons, h.lowers]; rfl
  line before l' after hc := by
    obtain ⟨rfl, rfl, rfl⟩ : before = [] ∧ l' = l ∧ after = [] := by
      rcases singleton_eq_append_iff.mp hc with ⟨rfl, hr⟩ | ⟨-, hr⟩
      · obtain ⟨rfl, rfl⟩ := cons.inj hr
        exact ⟨rfl, rfl, rfl⟩
      · cases hr
    exact ⟨fun _ => Int.dvd_zero 16, fun _ => rfl, h.handler,
      fun name hn => iff_of_false Bool.false_ne_true (h.label name hn),
      fun _ _ _ => rfl, fun name hn hin => absurd hin (h.target name hn)⟩

/-- A line that leaves the stack pointer alone and does not keep it. -/
structure Still (l : Line) : Prop where
  lowers : l.lowers = 0
  passes : ∀ before, l.passes before = before
  isSave : l.isSave = false
  handler : l.handler? = none

/-- A code that can stand where arguments are passed. -/
structure Inside (code : List Line) : Prop where
  still : ∀ l ∈ code, l.Still
  label : ∀ name, .label name ∈ code → IsLookup name
  jump : ∀ l ∈ code, ∀ name, l.target? = some name → IsLookup name ∧ .label name ∈ code

namespace Inside

variable {a b code : List Line}

theorem append (ha : Inside a) (hb : Inside b) : Inside (a ++ b) where
  still l hl := (mem_append.mp hl).elim (ha.still l) (hb.still l)
  label name hl := (mem_append.mp hl).elim (ha.label name) (hb.label name)
  jump l hl name hn := by
    rcases mem_append.mp hl with hl | hl
    · exact ⟨(ha.jump l hl name hn).1, mem_append_left b (ha.jump l hl name hn).2⟩
    · exact ⟨(hb.jump l hl name hn).1, mem_append_right a (hb.jump l hl name hn).2⟩

lemma sunk_eq (h : ∀ l ∈ code, l.Still) : sunk code = 0 := sunk_eq_zero fun l hl => (h l hl).lowers

lemma foldl_eq (h : ∀ l ∈ code, l.Still) (before : Bool) : code.foldl passes before = before := by
  induction code with
  | nil => rfl
  | cons l code ih =>
    rw [foldl_cons, (h l mem_cons_self).passes]
    exact ih fun l' hl => h l' (mem_cons_of_mem l hl)

end Inside

lemma Inside.level {n : Int} (h : Inside code) (hn : 16 ∣ n) :
    Level ([.subl (.imm n) esp] ++ code ++ [.addl (.imm n) esp]) := by
  have hs : sunk ([.subl (.imm n) esp] ++ code) = n := by
    rw [sunk_append, Inside.sunk_eq h.still]
    exact (Int.add_zero _).trans (Int.add_zero _)
  have hpas {p q} (hpq : code = p ++ q) : passing ([.subl (.imm n) esp] ++ p) = true := by
    exact Inside.foldl_eq (fun l hl => h.still l (hpq ▸ mem_append_left q hl)) true
  refine ⟨?_, ?_, fun before after hc hpa => ?_, fun before l after hc => ?_⟩
  · rw [sunk_append, hs]
    exact (congrArg (n + ·) (Int.add_zero (-n))).trans (Int.add_right_neg n)
  · rw [passing, foldl_append]
    rfl
  · rcases append_eq_append_iff.mp hc with ⟨rest, rfl, hr⟩ | ⟨rest, hr, -⟩
    · rcases singleton_eq_append_iff.mp hr with ⟨rfl, -⟩ | ⟨rfl, -⟩
      · rw [append_nil, hpas (append_nil code).symm] at hpa
        cases hpa
      · rw [sunk_append, hs]
        exact (congrArg (n + ·) (Int.add_zero (-n))).trans (Int.add_right_neg n)
    · rcases append_eq_append_iff.mp hr.symm with ⟨p, hp, -⟩ | ⟨p, rfl, hp⟩
      · rcases singleton_eq_append_iff.mp hp with ⟨rfl, -⟩ | ⟨rfl, -⟩
        · rfl
        · cases hpa
      · rw [hpas hp] at hpa
        cases hpa
  · rcases eq_append_cons_cases hc with ⟨rest, hr⟩ | ⟨p, rfl, hp⟩
    · rcases eq_append_cons_cases hr with ⟨rest, hr⟩ | ⟨p, rfl, hp⟩
      · -- the line that lowers the stack pointer
        rcases singleton_eq_append_iff.mp hr with ⟨rfl, hl⟩ | ⟨-, hl⟩
        · cases hl
          exact ⟨fun h => (Bool.false_ne_true h).elim, fun _ => rfl, nofun, nofun, nofun, nofun⟩
        · cases hl
      · -- a line between
        have hl : l ∈ code := hp ▸ mem_append_right _ mem_cons_self
        have hb : sunk ([.subl (.imm n) esp] ++ p) = n := by
          rw [sunk_append, Inside.sunk_eq fun l' hl' => h.still l' (hp ▸ mem_append_left _ hl')]
          exact (Int.add_zero _).trans (Int.add_zero _)
        refine ⟨fun _ => by rwa [hb], fun hsa => ?_, fun name hna => ?_, fun name hna => ?_,
          fun name hna hout => ?_, fun name hna _ => ?_⟩
        · rw [(h.still l hl).isSave] at hsa
          cases hsa
        · rw [(h.still l hl).handler] at hna
          cases hna
        · exact iff_of_true (hpas hp) (h.label name (hna ▸ hl))
        · exact absurd (h.jump l hl name hna).1 hout
        · obtain ⟨p', q', hp'⟩ := append_of_mem (h.jump l hl name hna).2
          refine ⟨[.subl (.imm n) esp] ++ p', q' ++ [.addl (.imm n) esp], by simp [hp'], ?_⟩
          rw [hb, sunk_append, Inside.sunk_eq fun l' hl' => h.still l' (hp' ▸ mem_append_left _ hl')]
          exact (Int.add_zero _).trans (Int.add_zero _)
    · -- the line that raises it
      rcases singleton_eq_append_iff.mp hp with ⟨rfl, hl⟩ | ⟨-, hl⟩
      · cases hl
        exact ⟨fun h => (Bool.false_ne_true h).elim, nofun, nofun, nofun, nofun, nofun⟩
      · cases hl

/-! ### The stack pointer on every path -/

lemma eq_of_labels_nodup {p q p' q' : List Line} {name : String}
    (hn : (labels (p ++ .label name :: q)).Nodup)
    (h : p ++ .label name :: q = p' ++ .label name :: q') : p = p' := by
  have hs {p q} (hp : .label name ∈ p) : ¬(labels (p ++ .label name :: q)).Nodup := by
    rw [labels_append]
    exact fun hn => (nodup_append.mp hn).2.2 name
      (mem_filterMap.mpr ⟨_, hp, rfl⟩) name mem_cons_self rfl
  rcases eq_append_cons_cases h with ⟨rest, rfl⟩ | ⟨rest, rfl, hr⟩
  · exact absurd hn (hs (by simp))
  · cases rest with
    | nil => simp
    | cons l rest =>
      cases hr
      exact absurd (h ▸ hn) (hs (by simp))

end Line

/-- A stem of labels that stand at the level of a frame. -/
def Label.isOuterStem (stem : String) : Bool := isStem stem && stem != "obj" && stem != "cls"

lemma Label.not_isLookup_inner {stem : String} (h : isOuterStem stem) (k : Int) : ¬IsLookup (inner stem k) := by
  rw [isOuterStem, Bool.and_eq_true, Bool.and_eq_true, bne_iff_ne, bne_iff_ne] at h
  rintro ⟨k', hl | hl⟩
  · exact h.1.2 (inner_injective h.1.1 (by decide) hl).1
  · exact h.2 (inner_injective h.1.1 (by decide) hl).1

lemma Label.not_isLookup_break (id : Int) : ¬IsLookup (".Lbrk_" ++ Numeral.decimal id) :=
  show ¬IsLookup (inner "brk_" id) from not_isLookup_inner (by decide) id

open Line

lemma Line.of_getElem?_append (head : List Line) (h : (head ++ code)[i]? = some l) (hl : l ∉ head) :
    ∃ before after, code = before ++ l :: after ∧ (head ++ code).take i = head ++ before := by
  obtain ⟨hi, hget⟩ := List.getElem?_eq_some_iff.mp h
  have hs : head ++ code = (head ++ code).take i ++ l :: (head ++ code).drop (i + 1) := by
    rw [← hget, ← drop_eq_getElem_cons hi, take_append_drop]
  rcases eq_append_cons_cases hs with ⟨rest, hr⟩ | ⟨before, hb, hc⟩
  · exact absurd (hr ▸ mem_append_right _ mem_cons_self) hl
  · exact ⟨before, _, hc, hb⟩

/-- On every path through a level code, behind a `head` that is gone through once, the stack pointer is
where the lines put it one after the other. -/
theorem Reaches.eq_of_level (head : List Line) (hc : Level code) (hn : (labels code).Nodup)
    (hh : ∀ l ∈ head, l.label? = none ∧ l.target? = none ∧ l.isSave = false ∧ l.handler? = none)
    {start d : Int} (h : Reaches (head ++ code) start i d) :
    d = start + sunk ((head ++ code).take i) := by
  have hlab {name} : .label name ∉ head := fun hmem => by cases (hh _ hmem).1
  have hsa {disp} : .movl esp (.mem ebp disp) ∉ head := fun hmem => by cases (hh _ hmem).2.2.1
  -- a label that is not in a look-up stands at the level of the frame
  have hat {name} {j} (hj : (head ++ code)[j]? = some (.label name))
      (hout : ¬IsLookup name) : sunk ((head ++ code).take j) = sunk head := by
    obtain ⟨before, after, hs, ht⟩ := of_getElem?_append _ hj hlab
    have hp : passing before = false :=
      Bool.eq_false_iff.mpr fun h => hout (((hc.line _ _ _ hs).label name rfl).mp h)
    rw [ht, sunk_append, hc.outside _ _ hs hp, add_zero]
  have hk {disp} {j} (hj : (head ++ code)[j]? = some (.movl esp (.mem ebp disp))) :
      sunk ((head ++ code).take j) = sunk head := by
    obtain ⟨before, after, hs, ht⟩ := of_getElem?_append _ hj hsa
    rw [ht, sunk_append, hc.outside _ _ hs ((hc.line _ _ _ hs).save rfl), add_zero]
  induction h with
  | start => simp
  | @fall i d l _ hl hfal ih =>
    rw [sunk_take_succ hl]
    omega
  | @jump i d l name j _ hl htar hj ih =>
    rw [ih]
    have hnot : l ∉ head := fun hmem => by
      rw [(hh l hmem).2.1] at htar
      cases htar
    obtain ⟨before, after, hs, ht⟩ := of_getElem?_append _ hl hnot
    have hf := hc.line _ _ _ hs
    by_cases hin : IsLookup name
    · obtain ⟨before', after', hs', hsu⟩ := hf.jumpIn name htar hin
      obtain ⟨before'', after'', hs'', ht''⟩ := of_getElem?_append _ hj hlab
      cases eq_of_labels_nodup (hs' ▸ hn) (hs'.symm.trans hs'')
      rw [ht, ht'', sunk_append, sunk_append, hsu]
    · rw [hat hj hin, ht, sunk_append, hc.outside _ _ hs (hf.jumpOut name htar hin), add_zero]
  | resume _ _ hi hj ih => rw [ih, hk hi, hat hj (not_isLookup_break _)]
  | @handle i d j disp name _ hi hhan hj ih =>
    have hnot : Line.movl (.addr name) (.mem ebp (disp + 4)) ∉ head := fun hmem => by
      cases (hh _ hmem).2.2.2
    obtain ⟨before, after, hs, -⟩ := of_getElem?_append _ hhan hnot
    rw [ih, hk hi, hat hj ((hc.line _ _ _ hs).handler name rfl)]

lemma Reaches.eq_of_straight (hc : ∀ l ∈ code, l.target? = none ∧ l.isSave = false)
    {start d : Int} (h : Reaches code start i d) : d = start + sunk (code.take i) := by
  induction h with
  | start => simp
  | @fall i d l _ hl hf ih =>
    rw [sunk_take_succ hl]
    omega
  | jump _ hl ht =>
    rw [(hc _ (mem_of_getElem? hl)).1] at ht
    cases ht
  | resume _ _ hs | handle _ hs => cases (hc _ (mem_of_getElem? hs)).2

lemma Reaches.through {head : List Line} (hf : ∀ l ∈ head, l.falls) (code : List Line)
    (start : Int) : Reaches (head ++ code) start head.length (start + sunk head) := by
  have hs : ∀ k ≤ head.length, Reaches (head ++ code) start k (start + sunk (head.take k)) := by
    intro k hk
    induction k with
    | zero =>
      rw [take_zero, sunk_nil, add_zero]
      exact .start
    | succ k ih =>
      have hlt : k < head.length := hk
      have hget : (head ++ code)[k]? = some head[k] := by
        rw [getElem?_append_left hlt, List.getElem?_eq_getElem hlt]
      have hst := Reaches.fall (ih (Nat.le_of_lt hlt)) hget (hf _ (getElem_mem hlt))
      rwa [← take_append_getElem hlt, sunk_append, sunk_cons, sunk_nil, add_zero, ← add_assoc]
  have hend := hs head.length le_rfl
  rwa [take_length] at hend

end Garnet
