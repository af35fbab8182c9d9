import Garnet.Proofs.Code.Labels
import Mathlib

/-!
# The stack pointer in the code of a program

The code of an expression keeps the stack pointer level; the prologue of a routine lowers it to the bottom of
the frame.

So it is known on every path (`stack_level`).
-/

namespace Garnet

variable {l : Line} {units : List String} {r : Routine}

open List Reg Prologue Label

open Line

/-! ### Prologues -/

namespace Prologue

/-- The lines that set up the frame of a routine. -/
def setUp (r : Routine) (slots : Nat) : List Line :=
  [.pushl ebp, .movl esp ebp] ++ (if r.usesNumArgs then [.pushl ebx] else []) ++
    if 0 < reserve slots r.usesNumArgs then [.subl (.imm (reserve slots r.usesNumArgs)) esp] else []

/-- The lines between the frame of a routine and its body. -/
def entering (r : Routine) (f : Frame) : List Line :=
  .movl (.mem ebp 8) esi :: (range f.named).map (fun i => .movl .nil (.slot i)) ++ ((match r.rest with
      | some rest => collectRest r (f.home? rest)
      | none => [])
    ++ match r.env with
      | some env => makeEnv r f env
      | none => [])

variable (r) (f : Frame)

lemma lines_eq (slots : Nat) : lines r f slots = .label r.label :: (setUp r slots ++ entering r f) := by
  cases hr : r.rest <;> cases henv : r.env <;>
    simp only [lines, setUp, entering, hr, henv, append_assoc, cons_append, nil_append]

lemma sunk_setUp (slots : Nat) : 4 + sunk (setUp r slots) = (align16 (12 + 4 * slots) : Nat) := by
  have hs : 16 ≤ align16 (12 + 4 * slots) := by
    rw [align16]
    omega
  have hpos : 0 < reserve slots r.usesNumArgs := by
    rw [reserve]
    split <;> omega
  rw [setUp, if_pos hpos]
  cases r.usesNumArgs with
  | true =>
    change (4 : Int) + (4 + (0 + (4 + (((align16 (12 + 4 * slots) - 12 : Nat) : Int) + 0)))) = _
    omega
  | false =>
    change (4 : Int) + (4 + (0 + (((align16 (12 + 4 * slots) - 8 : Nat) : Int) + 0))) = _
    omega

lemma not_isLookup_nil : ¬IsLookup "__nil" := by
  have hr : role "__nil" ≠ .inner := by decide
  rintro ⟨k, hk | hk⟩
  all_goals exact hr (hk ▸ role_inner _ k)

lemma level_collectRest (home : Option Operand) : Level (collectRest r home) := by
  have hpass : Level ([.subl (.imm 16) esp] ++ [.movl eax (.mem esp 4),
      .leal (.arg (r.firstParamWord + r.params.length)) eax, .movl eax (.mem esp 0),
      .call "__splat_to_array"] ++ [.addl (.imm 16) esp]) :=
    (Emit.inside_of_labels [] rfl rfl rfl (nil_subset _) nofun).level (Int.dvd_refl 16)
  have hc : Level [.movl (.mem ebp (-4)) eax,
      .subl (.imm ((r.firstParamWord + r.params.length : Nat) : Int)) eax] :=
    level_of_refers [] rfl rfl nofun
  rw [collectRest]
  refine (hc.append hpass).append ?_
  cases home with
  | none => exact .nil
  | some h => exact (calm_movl_reg eax h).level

lemma level_flatten {liness : List (List Line)} (h : ∀ lines ∈ liness, Level lines) :
    Level liness.flatten := by
  induction liness with
  | nil => exact .nil
  | cons lines liness ih =>
    exact (h lines mem_cons_self).append (ih fun l hl => h l (mem_cons_of_mem lines hl))

lemma level_makeEnv (env : List String) : Level (makeEnv r f env) := by
  have hpass : Level ([.subl (.imm 16) esp] ++ [.movl (.imm (env.length + 2)) (.mem esp 0),
      .call "__alloc_env"] ++ [.addl (.imm 16) esp]) :=
    (Emit.inside_of_labels [] rfl rfl rfl (nil_subset _) nofun).level (Int.dvd_refl 16)
  have hh : Level ((f.home? "__env__").map fun h => Line.movl eax h).toList := by
    cases f.home? "__env__" with
    | none => exact .nil
    | some h => exact (calm_movl_reg eax h).level
  have hp : Level (if r.kind = .block then [.movl (.arg 2) ecx, .movl ecx (.mem eax 0)]
      else [.movl .nil (.mem eax 0)]) := by
    split
    all_goals exact level_of_refers [] rfl rfl nofun
  have hm : Level ((env.mapIdx (moveParam r f)).flatten) := by
    refine level_flatten fun lines hlines => ?_
    obtain ⟨i, hi, rfl⟩ := mem_mapIdx.mp hlines
    rw [moveParam]
    split
    · split
      · exact level_of_refers [] rfl rfl nofun
      · exact .nil
    · exact .nil
  exact ((hpass.append hh).append hp).append ((calm_movl_reg ebp _).level.append hm)

lemma level_entering : Level (entering r f) := by
  have hs : Level ((range f.named).map fun i => .movl .nil (.slot i)) := by
    refine level_of_calm fun l hl => ?_
    obtain ⟨i, -, rfl⟩ := mem_map.mp hl
    exact calm_of_refers rfl (forall_mem_singleton.mpr not_isLookup_nil)
  have hse : Level [.movl (.mem ebp 8) esi] := level_of_refers [] rfl rfl nofun
  refine (hse.append hs).append (Level.append ?_ ?_)
  · split
    · exact level_collectRest _ _
    · exact .nil
  · split
    · exact level_makeEnv _ _ _
    · exact .nil

lemma labels_entering : labels (entering r f) = [] := by
  have hl := labels_prologue r f 0
  rw [lines_eq] at hl
  have hn : labels (setUp r 0 ++ entering r f) = [] := (cons.inj hl).2
  rw [labels_append] at hn
  exact (append_eq_nil_iff.mp hn).2

lemma mem_setUp {r : Routine} {slots : Nat} (h : l ∈ setUp r slots) :
    l = .pushl ebp ∨ l = .movl esp ebp ∨ l = .pushl ebx ∨ ∃ n : Nat, l = .subl (.imm n) esp := by
  rcases mem_append.mp h with h | h
  · rcases mem_append.mp h with h | h
    · rcases mem_cons.mp h with rfl | h
      · exact .inl rfl
      · exact .inr (.inl (mem_singleton.mp h))
    · split at h
      · exact .inr (.inr (.inl (mem_singleton.mp h)))
      · cases h
  · split at h
    · exact .inr (.inr (.inr ⟨_, mem_singleton.mp h⟩))
    · cases h

end Prologue

/-! ### Routines -/

lemma Bound.nodup {t t' : Shared} {new : List String} (h : Bound [] t new t') : new.Nodup := by
  obtain ⟨made, hp, hnodup, hm⟩ := h.exact
  have hs : ∀ key ∈ made, isStem key.1 := fun key hkey => by
    have hall : (Shared.breakStem :: Shared.stems).all isStem = true := by decide
    refine all_eq_true.mp hall _ ?_
    rcases hm key hkey with ⟨hs, -⟩ | ⟨hs, -⟩
    · exact mem_cons_of_mem _ hs
    · exact hs ▸ mem_cons_self
  refine hp.nodup_iff.mpr (List.Nodup.map_on (fun key hkey key' hkey' heq => ?_) hnodup)
  obtain ⟨hfst, hsnd⟩ := inner_injective (hs key hkey) (hs key' hkey') heq
  exact Prod.ext hfst hsnd

lemma level_emitRoutine {t t' : Shared} {lines : List Line} (h : emitRoutine r t = .ok (lines, t')) :
    ∃ slots code, lines = .label r.label :: (setUp r slots ++ code) ∧ Level code ∧
      (labels code).Nodup := by
  rw [emitRoutine] at h
  split at h
  · rename_i u s hb
    cases h
    obtain ⟨code, hlines, hlevel, hbound⟩ := (Emit.codes_body (b := true) r).levels hb
    refine ⟨s.maxSlot, entering r s.frame ++ code, ?_,
      (level_entering r s.frame).append hlevel, ?_⟩
    · have hc : s.entries.toList.map Entry.line = code := hlines
      rw [lines_eq, hc, cons_append, append_assoc]
    · rw [labels_append, labels_entering]
      exact hbound.nodup
  · cases h

/-! ### The entry point -/

/-- The lines of the entry point that lower the stack pointer. -/
def entryPoint.opening : List Line :=
  [.directive ".globl\tmain", .label "main", .pushl ebp, .movl esp ebp, .pushl ebx, .pushl esi,
    .pushl edi, .subl (.imm 28) esp]

/-- The lines of the entry point between, with all of its calls. -/
def entryPoint.calls (units : List String) : List Line :=
  [.movl (.mem ebp 12) eax, .movl eax (.mem esp 4), .movl (.mem ebp 8) eax, .movl eax (.mem esp 0),
    .call "__runtime_init"] ++ units.flatMap runUnit

/-- The lines of the entry point that raise the stack pointer. -/
def entryPoint.closing : List Line :=
  [.addl (.imm 28) esp, .movl (.imm 0) eax, .popl edi, .popl esi, .popl ebx, .popl ebp, .ins "ret" []]

lemma entryPoint_eq (units : List String) :
    entryPoint units = entryPoint.opening ++ (entryPoint.calls units ++ entryPoint.closing) := by
  simp only [entryPoint, entryPoint.opening, entryPoint.calls, entryPoint.closing, cons_append, nil_append]

lemma all_flatMap_runUnit {p : Line → Bool} (h : ∀ label, (runUnit label).all p) (units : List String) :
    (units.flatMap runUnit).all p := by
  rw [all_flatMap, all_eq_true]
  exact fun label _ => h label

lemma straight_entryPoint (units : List String) :
    ∀ l ∈ entryPoint units, l.target? = none ∧ l.isSave = false := by
  have hall : (entryPoint units).all fun l => l.target?.isNone && !l.isSave := by
    rw [entryPoint, all_append, all_append, all_flatMap_runUnit fun _ => rfl]
    rfl
  intro l hl
  simpa using all_eq_true.mp hall l hl

lemma entryPoint.lowers_of_mem_calls (h : l ∈ calls units) : l.lowers = 0 := by
  have hall : (calls units).all fun l => l.lowers == 0 := by
    rw [calls, all_append, all_flatMap_runUnit fun _ => rfl]
    rfl
  simpa using all_eq_true.mp hall l h

lemma sunk_entryPoint {i : Nat} (h : (entryPoint units)[i]? = some l) (hcall : l.isCall) :
    4 + sunk ((entryPoint units).take i) = 48 := by
  have ho : l ∉ entryPoint.opening := fun hl => by
    have hall : entryPoint.opening.all (!·.isCall) := rfl
    simpa [hcall] using all_eq_true.mp hall l hl
  have hc : l ∉ entryPoint.closing := fun hl => by
    have hall : entryPoint.closing.all (!·.isCall) := rfl
    simpa [hcall] using all_eq_true.mp hall l hl
  rw [entryPoint_eq] at h ⊢
  obtain ⟨before, after, hsplit, htake⟩ := of_getElem?_append _ h ho
  have hcal : ∀ l ∈ before, l ∈ entryPoint.calls units := by
    rcases eq_append_cons_cases hsplit with ⟨rest, hr⟩ | ⟨before', rfl, hr⟩
    · exact fun l hl => hr ▸ mem_append_left _ hl
    · exact absurd (hr ▸ mem_append_right _ mem_cons_self) hc
  rw [htake, sunk_append, sunk_eq_zero fun l hl => entryPoint.lowers_of_mem_calls (hcal l hl)]
  rfl

/-- The stack pointer, in bytes below where it was before the call of a routine.

On every path through the code of a routine it is a multiple of 16 at a call, it is at the bottom of the frame
wherever no arguments are being passed, and no label stands there but those of the look-up of classes. The
code of an expression leaves it where it was, also where it jumps out. In the entry point it is a
multiple of 16 at a call. -/
theorem stack_level {r : Routine} {t t' : Shared} {lines : List Line}
    (h : emitRoutine r t = .ok (lines, t')) :
    (∃ (slots : Nat) (code : List Line),
      let text := setUp r slots ++ code
      let bottom : Int := align16 (12 + 4 * slots)
      lines = .label r.label :: text ∧ Reaches text 4 (setUp r slots).length bottom ∧
      ∀ i d, Reaches text 4 i d → (∀ l, text[i]? = some l → l.isCall → 16 ∣ d) ∧
        ∀ before, text.take i = setUp r slots ++ before → (passing before = false → d = bottom) ∧
          ∀ name, text[i]? = some (.label name) → (passing before = true ↔ IsLookup name)) ∧
    (∀ (x : Exits) (e : Tree) (s s' : Emitter), x.Outer → Emit.expr x e s = .ok () s' →
      ∃ code, s'.lines = s.lines ++ code ∧ ∀ start i d, Reaches code start i d →
        (i = code.length → d = start) ∧
        ∀ l, code[i]? = some l → (l.isCall → 16 ∣ d - start) ∧
          ∀ name, l.target? = some name → .label name ∉ code → d = start) ∧
    ∀ (units : List String) (i : Nat) (d : Int) (l : Line), Reaches (entryPoint units) 4 i d →
      (entryPoint units)[i]? = some l → l.isCall → 16 ∣ d := by
  refine ⟨?_, fun x e s s' hx hrun => ?_, fun units i d l hreach hl hcall => ?_⟩
  · obtain ⟨slots, code, rfl, hlevel, hnodup⟩ := level_emitRoutine h
    have hsunk := sunk_setUp r slots
    have hplain : ∀ l ∈ setUp r slots, (l.label? = none ∧ l.target? = none ∧
        l.isSave = false ∧ l.handler? = none) ∧ l.falls ∧ l.isCall = false := by
      intro l hl
      rcases mem_setUp hl with rfl | rfl | rfl | ⟨n, rfl⟩ <;> exact ⟨⟨rfl, rfl, rfl, rfl⟩, rfl, rfl⟩
    refine ⟨slots, code, rfl, ?_, fun i d hreach => ?_⟩
    · rw [← hsunk]
      exact .through (fun l hl => (hplain l hl).2.1) code 4
    have hd := Reaches.eq_of_level _ hlevel hnodup (fun l hl => (hplain l hl).1) hreach
    refine ⟨fun l hl hcall => ?_, fun before hbefore => ⟨fun hpass => ?_, fun name hname => ?_⟩⟩
    · have hnot : l ∉ setUp r slots := fun hmem => by
        rw [(hplain l hmem).2.2] at hcall
        cases hcall
      obtain ⟨before, after, hsplit, htake⟩ := of_getElem?_append _ hl hnot
      rw [hd, htake, sunk_append, ← add_assoc, hsunk]
      exact Int.dvd_add (Emit.align16_dvd _) ((hlevel.line _ _ _ hsplit).call hcall)
    · obtain ⟨after, hafter⟩ : before <+: code :=
        (List.prefix_append_right_inj (setUp r slots)).mp (hbefore ▸ List.take_prefix i _)
      rw [hd, hbefore, sunk_append, ← add_assoc, hsunk, hlevel.outside _ _ hafter.symm hpass, add_zero]
    · have hnot : .label name ∉ setUp r slots := fun hmem => by cases (hplain _ hmem).1.1
      obtain ⟨before', after, hsplit, htake⟩ := of_getElem?_append _ hname hnot
      obtain rfl : before = before' := List.append_cancel_left (hbefore.symm.trans htake)
      exact (hlevel.line _ _ _ hsplit).label name rfl
  · have hcodes := Emit.codes_expr (b := true) hx e
    obtain ⟨code, hlines, hlevel, hbound⟩ := hcodes.levels hrun
    refine ⟨code, hlines, fun start i d hreach => ?_⟩
    have hd := Reaches.eq_of_level [] hlevel hbound.nodup nofun hreach
    rw [List.nil_append] at hd
    refine ⟨fun hi => ?_, fun l hl => ?_⟩
    · rw [hd, hi, List.take_length, hlevel.sunk, add_zero]
    · obtain ⟨before, after, hsplit, htake⟩ := of_getElem?_append [] hl List.not_mem_nil
      rw [List.nil_append, List.nil_append] at htake
      have hfits := hlevel.line _ _ _ hsplit
      refine ⟨fun hcall => ?_, fun name hname hout => ?_⟩
      · rw [hd, htake, add_sub_cancel_left]
        exact hfits.call hcall
      · have hin : ¬IsLookup name := fun hin => by
          obtain ⟨p, q, hpq, -⟩ := hfits.jumpIn name hname hin
          exact hout (hpq ▸ List.mem_append_right p List.mem_cons_self)
        rw [hd, htake, hlevel.outside _ _ hsplit (hfits.jumpOut name hname hin), add_zero]
  · rw [Reaches.eq_of_straight (straight_entryPoint units) hreach, sunk_entryPoint hl hcall]
    decide

/-- A method that calls a block that can break: the call passes arguments, and `break` comes back behind
it. -/
def tryEach : Routine where
  label := "try_each"
  kind := .method
  blockParam := "__block__"
  params := ["list"]
  rest := none
  locals := []
  env := none
  body := .node .send .zero 0 [.name "list", .name "each", .node .seq .zero 1 [],
    .node .procNew .zero 2 [.name "__block_1", .name "nil", .int 0]]
  span := .zero

/-- The place that `break` goes to is reached only with the stack pointer at the bottom of the frame. -/
theorem stack_level_tryEach :
    ∃ lines t' slots code, emitRoutine tryEach {} = .ok (lines, t') ∧ .label ".Lbrk_0" ∈ lines ∧
      lines = .label "try_each" :: (setUp tryEach slots ++ code) ∧
      ∀ i d, Reaches (setUp tryEach slots ++ code) 4 i d →
        (setUp tryEach slots ++ code)[i]? = some (.label ".Lbrk_0") →
          d = (align16 (12 + 4 * slots) : Nat) := by
  have hsome : (match emitRoutine tryEach {} with
      | .ok (lines, _) => lines.contains (.label ".Lbrk_0")
      | .error _ => false) = true := by cbv
  split at hsome
  · rename_i lines t' hemit
    obtain ⟨⟨slots, code, hlines, -, hpaths⟩, -, -⟩ := stack_level hemit
    refine ⟨lines, t', slots, code, hemit, List.contains_iff_mem.mp hsome, hlines, fun i d hreach hi => ?_⟩
    have hnot : Line.label ".Lbrk_0" ∉ setUp tryEach slots := fun hmem => by
      rcases mem_setUp hmem with h | h | h | ⟨n, h⟩ <;> cases h
    obtain ⟨before, after, -, htake⟩ := of_getElem?_append _ hi hnot
    obtain ⟨hbottom, hlabel⟩ := (hpaths i d hreach).2 before htake
    refine hbottom (Bool.eq_false_iff.mpr fun hpass => ?_)
    exact not_isLookup_break 0 ((hlabel ".Lbrk_0" hi).mp hpass)
  · cases hsome

end Garnet
