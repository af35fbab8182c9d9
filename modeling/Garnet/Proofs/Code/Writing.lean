import Garnet.Proofs.Code.Leveling

/-!
# The code of an expression

In the code written for a tree, variables are at home where control meets (`Junction`), each label that is made
stands in one place, and the stack pointer is level (`Leveling`). `Codes` says this together, so one walk over the
rules shows it: each rule for a node has it if the walk over the tree does, so the walk does.

The loops and rescue clauses around a place have labels of their own, none of the look-up of classes
(`Exits.Outer`), since ways out jump to them.
-/

namespace Garnet

variable {regions : List Region}

open List Reg Label

/-- The labels that ways out go to are none of the look-up of classes. -/
structure Exits.Outer (x : Exits) : Prop where
  loops : ∀ l ∈ x.loops, ¬IsLookup l.next ∧ ¬IsLookup l.exit
  regions : ∀ r ∈ x.regions, ∀ label ∈ r.retry, ¬IsLookup label

namespace Exits.Outer

variable {r : Region} {x : Exits}

lemma empty : Outer {} := ⟨nofun, nofun⟩

lemma inLoop (h : x.Outer) {next exit : String} (hn : ¬IsLookup next)
    (hex : ¬IsLookup exit) : (x.inLoop next exit).Outer :=
  ⟨forall_mem_cons.mpr ⟨⟨hn, hex⟩, h.loops⟩, h.regions⟩

lemma inRegion (h : x.Outer) (hr : ∀ label ∈ r.retry, ¬IsLookup label) : (x.inRegion r).Outer :=
  ⟨h.loops, forall_mem_cons.mpr ⟨hr, h.regions⟩⟩

lemma inRegion_of_none (h : x.Outer) (hr : r.retry = none) : (x.inRegion r).Outer :=
  h.inRegion fun _ hl => absurd (hr ▸ hl) (Option.not_mem_none _)

lemma of_suffix (h : x.Outer) (hsub : regions <:+ x.regions) : Outer { x with regions } :=
  ⟨h.loops, fun r hr => h.regions r (hsub.subset hr)⟩

end Exits.Outer

/-- A tidy state, in which no variable is cached if `home`. -/
def Emitter.Rests (home : Bool) (s : Emitter) : Prop := if home then s.AtHome else s.Tidy

lemma Emitter.Rests.tidy {home : Bool} {s : Emitter} (h : s.Rests home) : s.Tidy := by
  cases home with
  | false => exact h
  | true => exact AtHome.toTidy h

namespace Emit

variable {line : Line} {cause : EmitCause} {span : Span}

open Emitter Line

variable {α β : Type} {b c d : Bool} {own own' : List String}

/-! ### The two judgements -/

/-- The computation writes no junction and no label, leaves the registers alone and the stack pointer
level. -/
structure Flat (m : Emit α) : Prop where
  plain : Plain m
  levels : Levels [] m

/-- The computation writes code of an expression. It lets the labels `own` stand. If it starts where no
variable is cached or `b` is false, it ends where none is or `c` is false. -/
structure Codes (b : Bool) (m : Emit α) (c : Bool) (own : List String) : Prop where
  rests : Ensures (Rests b) m fun _ => Rests c
  levels : Levels own m

namespace Flat

lemma pure (a : α) : Flat (pure a : Emit α) := ⟨.pure a, .pure a⟩

lemma fail : Flat (fail cause span : Emit α) := ⟨.fail, .fail⟩

lemma bind {m : Emit α} {f : α → Emit β} (hm : Flat m) (hf : ∀ a, Flat (f a)) : Flat (m >>= f) :=
  ⟨hm.plain.bind fun a => (hf a).plain, hm.levels.bind fun a => (hf a).levels⟩

lemma seq {m : Emit α} {f : α → Emit β} (hm : Flat m) (hf : ∀ {a}, Flat (f a)) : Flat (m >>= f) := hm.bind fun _ => hf

lemma codes {m : Emit α} (h : Flat m) : Codes b m b [] where
  rests := by
    cases b with
    | false => exact h.plain.keeps
    | true => exact h.plain.stays
  levels := h.levels

end Flat

namespace Codes

variable {γ : Type} {m : Emit α}

lemma pure (a : α) : Codes b (pure a : Emit α) b [] := (Flat.pure a).codes

lemma fail : Codes b (fail cause span : Emit α) c own := ⟨Ensures.throw, .fail⟩

lemma bind {f : α → Emit β} (hm : Codes b m c own) (hf : ∀ a, Codes c (f a) d own') :
    Codes b (m >>= f) d (own ++ own') :=
  ⟨hm.rests.bind fun a => (hf a).rests, hm.levels.bind fun a => (hf a).levels⟩

lemma seq {f : α → Emit β} (hm : Codes b m c own) (hf : ∀ {a}, Codes c (f a) d own') :
    Codes b (m >>= f) d (own ++ own') := hm.bind fun _ => hf

lemma perm (h : Codes b m c own) (hown : own.Perm own') : Codes b m c own' := ⟨h.rests, h.levels.perm hown⟩

lemma keeps (h : Codes b m c own) : Codes b m false own :=
  ⟨h.rests.mono (fun _ hs => hs) fun _ _ hs => hs.tidy, h.levels⟩

lemma of_tidy (hm : Ensures Tidy m fun _ => Rests c) (hl : Levels own m) : Codes b m c own :=
  ⟨hm.mono (fun _ hs => hs.tidy) fun _ _ hs => hs, hl⟩

lemma forM {f : γ → Emit PUnit} {as : List γ} (hf : ∀ a ∈ as, Codes false (f a) false []) :
    Codes b (as.forM f) false [] :=
  .of_tidy (Ensures.forM fun a ha => (hf a ha).rests) (.forM fun a ha => (hf a ha).levels)

lemma mapM {f : γ → Emit α} {as : List γ} (hf : ∀ a ∈ as, Codes false (f a) false []) :
    Codes b (as.mapM f) false [] :=
  .of_tidy (Ensures.mapM fun a ha => (hf a ha).rests) (.mapM fun a ha => (hf a ha).levels)

section

variable {stem : String} {f : String → Emit β}

lemma rests_newLabel (hf : ∀ k, Ensures (Rests b) (f (inner stem k)) fun _ => Rests c) :
    Ensures (Rests b) (newLabel stem >>= f) fun _ => Rests c := by
  intro s a s' hs h
  obtain ⟨label, t, hl, h⟩ := bind_eq_ok.mp h
  have ht : t.Rests b := by
    cases b with
    | false => exact (plain_newLabel stem).keeps hs hl
    | true => exact (plain_newLabel stem).stays hs hl
  cases hl
  exact hf _ ht h

lemma newLabel (hs : Shared.stems.contains stem && isOuterStem stem)
    (hf : ∀ label, ¬IsLookup label → Codes b (f label) c (own ++ [label])) :
    Codes b (newLabel stem >>= f) c own :=
  have hs := (Bool.and_eq_true _ _).mp hs
  have hk k := hf _ (not_isLookup_inner hs.2 k)
  ⟨rests_newLabel fun k => (hk k).rests, .newLabel (contains_iff_mem.mp hs.1) fun k => (hk k).levels⟩

lemma spareLabel (hs : isOuterStem stem)
    (hf : ∀ label, ¬IsLookup label → Codes b (f label) c own) :
    Codes b (Emit.newLabel stem >>= f) c own :=
  have hk k := hf _ (not_isLookup_inner hs k)
  ⟨rests_newLabel fun k => (hk k).rests, .spareLabel fun k => (hk k).levels⟩

end

end Codes

/-! ### Writing -/

lemma flat_of_unchanged {m : Emit α} (h : ∀ ⦃s a s'⦄, m s = .ok a s' →
    s'.registers = s.registers ∧ s'.entries = s.entries ∧ s.shared.Grows s'.shared) : Flat m :=
  ⟨plain_of_unchanged fun _ _ _ hm => ⟨(h hm).1, (h hm).2.1⟩, .of_unchanged fun _ _ _ hm => (h hm).2⟩

lemma flat_write (h : line.Calm) (hl : line.label?.toList = []) (hs : line.isStraight) :
    Flat (write line) :=
  ⟨plain_write hs, hl ▸ levels_write h⟩

lemma flat_line (h : line.isLevel && line.isStraight) (hn : line.refers = []) : Flat (write line) :=
  have h := (Bool.and_eq_true _ _).mp h
  flat_write (calm_of_refers_eq_nil h.1 hn) (append_eq_nil_iff.mp hn).1 h.2

lemma flat_movl_reg (r : Reg) (o : Operand) : Flat (write (.movl r o)) :=
  flat_write (calm_movl_reg r o) rfl rfl

lemma flat_home (name : String) (span : Option Span) : Flat (home name span) :=
  ⟨plain_home name span, levels_home name span⟩

lemma flat_get : Flat (get : Emit Emitter) :=
  flat_of_unchanged fun _ _ _ hm => by cases hm; exact ⟨rfl, rfl, .refl _⟩

lemma flat_takeSlots (n : Nat) : Flat (takeSlots n) :=
  flat_of_unchanged fun _ _ _ hm => by cases hm; exact ⟨rfl, rfl, .refl _⟩

lemma codes_mark : Codes b mark b [] := (flat_get.seq <| .pure _).codes

lemma codes_release (n : Nat) : Codes b (release n) b [] :=
  (flat_of_unchanged fun _ _ _ hm => by cases hm; exact ⟨rfl, rfl, .refl _⟩).codes

lemma codes_stash : Codes b stash b [] :=
  ((flat_takeSlots 1).seq <| (flat_line rfl rfl).seq <| .pure _).codes

lemma codes_takeRecord : Codes b takeRecord b [] := ((flat_takeSlots 4).seq <| .pure _).codes

lemma codes_write (h : line.Calm) : Codes true (write line) true line.label?.toList :=
  ⟨stays_write line, levels_write h⟩

lemma codes_line (h : line.isLevel && line.isStraight) (hn : line.refers = []) :
    Codes b (write line) b [] :=
  (flat_line h hn).codes

lemma codes_writeAll (lines : List Line) (names : List String)
    (h : lines.all isLevel && (lines.all isStraight || b)) (hr : lines.flatMap refers = names)
    (hn : ∀ name ∈ names, ¬IsLookup name) : Codes b (writeAll lines) b (labels lines) where
  rests := by
    cases b with
    | false => exact (plain_writeAll (by simpa using ((Bool.and_eq_true _ _).mp h).2)).keeps
    | true => exact stays_writeAll lines
  levels := lays_writeAll (level_of_refers names ((Bool.and_eq_true _ _).mp h).1 hr hn)

/-! ### The register cache -/

lemma codes_evictAll : Codes b (withCache Cache.evictAll) true [] :=
  .of_tidy clears_evictAll (levels_withCache _)

lemma codes_cache (var : String) : Codes b (withCache (·.cache var)) false [] :=
  .of_tidy (keeps_cache var) (levels_withCache _)

lemma codes_withRegister {body : Reg → Emit α} (h : ∀ r, Flat (body r)) :
    Codes b (withRegister body) false [] :=
  .of_tidy (keeps_withRegister fun r => (h r).plain) (levels_withRegister fun r => (h r).levels)

/-! ### Labels and jumps -/

lemma codes_branchPoint : Codes b branchPoint true [] := .of_tidy clears_branchPoint levels_branchPoint

lemma codes_unreachable : Codes b unreachable true [] := codes_evictAll.seq <| .pure _

lemma codes_epilogue : Codes b epilogue true [] :=
  (codes_writeAll _ [] rfl rfl nofun).seq <| codes_unreachable

section

variable {label : String} (h : ¬IsLookup label)
include h

lemma codes_label : Codes true (write (.label label)) true [label] :=
  codes_write (calm_of_refers rfl (forall_mem_singleton.mpr h))

lemma codes_jmp : Codes true (write (.jmp label)) true [] :=
  codes_write (calm_of_refers rfl (forall_mem_singleton.mpr h))

lemma codes_bindLabel : Codes b (bindLabel label) true [label] := codes_branchPoint.seq <| codes_label h

lemma codes_jump : Codes b (jump label) true [] :=
  codes_branchPoint.seq <| (codes_jmp h).seq <| codes_unreachable

lemma codes_branchIfFalse : Codes b (branchIfFalse label) true [] :=
  codes_branchPoint.seq <| codes_writeAll _ [label, label] rfl rfl (by simpa using h)

lemma codes_exitIfNil : Codes b (exitIfNil label) true [] :=
  codes_branchPoint.seq <| codes_writeAll _ [label] rfl rfl (by simpa using h)

lemma codes_branchIfTrue : Codes b (branchIfTrue label) true [] :=
  codes_branchPoint.seq <| .newLabel rfl fun skip hs =>
  codes_writeAll _ [skip, label, skip] rfl rfl (by simp [h, hs])

end

/-! ### Variables -/

variable (n : Node)

lemma flat_indexDisp : Flat (indexDisp n) := by
  rw [indexDisp]
  split
  · exact .pure _
  · exact .fail

lemma flat_constLabel : Flat (constLabel n) := by
  rw [constLabel]
  split
  · exact .pure _
  · exact .fail

lemma codes_nameAt (i : Nat) : Codes b (nameAt n i) b [] := by
  rw [nameAt]
  split
  · exact .pure _
  · exact .fail

lemma flat_loadFrame (reg : Reg) (around : Span) (e : Tree) : Flat (loadFrame reg around e) := by
  fun_induction loadFrame reg around e with
  | case1 around name =>
    refine flat_get.bind fun s => ?_
    cases s.registers.cached? name with
    | some r => exact flat_line rfl rfl
    | none => exact (flat_home _ _).seq <| flat_line rfl rfl
  | case2 around span id base rest ih =>
    exact (flat_indexDisp _).seq <| ih.seq <| flat_line rfl rfl
  | case3 around span id => exact (flat_indexDisp _).seq <| .pure _
  | case4 => exact .fail

lemma codes_loadName (name : String) (span : Span) : Codes b (loadName name span) false [] := by
  rw [loadName]
  split
  · exact (codes_line rfl rfl).keeps
  · split
    · exact (codes_line rfl rfl).keeps
    · refine (flat_home _ _).codes.bind fun o => flat_get.codes.bind fun s => ?_
      split
      · exact (codes_line rfl rfl).keeps
      · refine (codes_cache name).bind fun r => ?_
        split
        · exact codes_writeAll _ [] rfl rfl nofun
        · exact codes_line rfl rfl

lemma codes_storeName (name : String) (span : Span) : Codes b (storeName name span) false [] := by
  rw [storeName]
  split
  · exact .fail
  · refine (flat_home _ _).codes.bind fun o => (codes_cache name).bind fun r => ?_
    split
    · exact (flat_movl_reg _ _).codes.seq <| .of_tidy (keeps_markDirty name) (levels_withCache _)
    · exact (flat_movl_reg _ _).codes

lemma codes_loadIndex : Codes b (loadIndex n) b [] := by
  refine (flat_indexDisp n).codes.bind fun disp => ?_
  split
  · exact codes_line rfl rfl
  · exact ((flat_loadFrame _ _ _).seq <| flat_line rfl rfl).codes

lemma codes_storeIndex : Codes b (storeIndex n) false [] := by
  refine (flat_indexDisp n).codes.bind fun disp => ?_
  split
  · exact (codes_line rfl rfl).keeps
  · simp only [Bool.false_eq_true, if_false]
    exact codes_withRegister fun _ => (flat_loadFrame _ _ _).seq <| flat_movl_reg _ _

lemma codes_loadConst : Codes b (loadConst n) b [] :=
  ((flat_constLabel n).seq <| flat_line rfl rfl).codes

lemma codes_store (target : Tree) (span : Span) : Codes b (store target span) false [] := by
  fun_cases store target span with
  | case1 name => exact codes_storeName _ _
  | case2 s id children => exact codes_storeIndex _
  | case3 s id children n =>
    refine (flat_constLabel _).codes.bind fun label => ?_
    split
    · exact .fail
    · exact (codes_line rfl rfl).keeps
  | case4 => exact .fail

/-! ### Calls and literals -/

variable (x : Exits)

/-- A call of a function of the run-time library, of one that spreads an array only where no variable is
cached. -/
lemma codes_callRuntime (name : String) (args : List Operand)
    (hs : !splatCalls.contains name || b) : Codes b (callRuntime x name args) b [] where
  rests := by
    cases b with
    | false => exact keeps_callRuntime x args (by simpa using hs)
    | true => exact stays_callRuntime x name args
  levels := levels_callRuntime x name args

lemma codes_invoke (target : CallTarget) (call : CallArgs) :
    Codes b (invoke x target call) true [] :=
  .of_tidy (clears_invoke x target call) (levels_invoke x target call)

lemma flat_literal {add : Literals → Nat × Literals}
    (hadd : ∀ l, l.integers.toList <+: (add l).2.integers.toList) : Flat (literal add) :=
  flat_of_unchanged fun _ _ _ hm => by cases hm; exact ⟨rfl, rfl, le_rfl, .refl _, hadd _⟩

lemma codes_loadInteger (i : Integer) : Codes b (loadInteger i) b [] := by
  rw [loadInteger]
  split
  · exact codes_line rfl rfl
  · exact (flat_literal fun l => by simp [Literals.integer]).codes.seq <| codes_line rfl rfl

lemma codes_makeString (bytes : Bytes) : Codes b (makeString x bytes) b [] :=
  (flat_literal fun _ => prefix_rfl).codes.seq <| codes_callRuntime x _ _ rfl

lemma codes_loadSymbol (name : String) : Codes b (loadSymbol x name) true [] :=
  (flat_literal fun _ => prefix_rfl).codes.seq <| .newLabel rfl fun done hdone => codes_branchPoint.seq <|
  (codes_writeAll _ [done] rfl rfl (by simpa using hdone)).seq <|
  (codes_callRuntime x _ _ rfl).seq <| codes_writeAll _ [done] rfl rfl (by simpa using hdone)

section

variable {done : String} {rec : Exits → Tree → Emit Unit}
  (hrec : ∀ ⦃b : Bool⦄ (x : Exits) (e : Tree), x.Outer → Codes b (rec x e) false []) {x : Exits}
  (hx : x.Outer)
include hrec hx

/-! ### Operands and calls -/

variable (n : Node)

lemma codes_operand (e : Tree) : Codes b (operand rec x e) false [] := by
  rw [operand]
  split
  · exact (Codes.pure _).keeps
  · exact (hrec x e hx).seq <| codes_stash

lemma codes_makeProc : Codes b (makeProc rec x n) false [] :=
  (codes_nameAt n 0).seq <| (hrec x _ hx).seq <| codes_callRuntime x _ _ rfl

lemma codes_plainArgument (e : Tree) : Codes b (plainArgument rec x e) false [] := by
  rw [plainArgument]
  split
  · exact .fail
  · exact codes_operand hrec hx e

lemma codes_callArgs (receiver : Operand) (args block : Tree) :
    Codes b (callArgs rec x receiver args block) false [] := by
  rw [callArgs]
  split
  on_goal 1 => refine (hrec x _ hx).seq <| codes_stash.seq <| ?_
  on_goal 2 => refine (Codes.mapM fun e _ => codes_plainArgument hrec hx e).seq <| ?_
  all_goals
    split
    · exact .pure _
    · exact (codes_makeProc hrec hx _).seq <| codes_stash.seq <| .pure _
    · exact (codes_operand hrec hx _).seq <| .pure _

lemma codes_callOn (receiver : Operand) (target : CallTarget) (args block : Tree) (mark : Nat) :
    Codes b (callOn rec x receiver target args block mark) true [] :=
  (codes_callArgs hrec hx receiver args block).seq <|
  (codes_invoke x target _).seq <| codes_release mark

lemma codes_callSelf : Codes b (callSelf rec x n) true [] :=
  (codes_nameAt n 0).seq <| codes_mark.seq <| codes_callOn hrec hx _ _ _ _ _

lemma codes_callSend : Codes b (callSend rec x n) true [] :=
  (codes_nameAt n 1).seq <| codes_mark.seq <| (codes_operand hrec hx _).seq <|
  codes_callOn hrec hx _ _ _ _ _

lemma codes_callSuper : Codes b (callSuper rec x n) true [] :=
  (codes_nameAt n 0).seq <| codes_mark.seq <| codes_callOn hrec hx _ _ _ _ _

lemma codes_callSafe : Codes b (callSafe rec x n) true [] :=
  (codes_nameAt n 1).seq <| .newLabel rfl fun _ hdone => codes_mark.bind fun mark =>
  (hrec x _ hx).seq <| (codes_exitIfNil hdone).seq <| codes_stash.seq <|
  (codes_callArgs hrec hx _ _ _).seq <| (codes_invoke x _ _).seq <|
  (codes_bindLabel hdone).seq <| codes_release mark

lemma codes_chain {exit : String} (hex : ¬IsLookup exit) (e : Tree) :
    Codes b (chain rec x exit e) false [] := by
  induction e using chain.induct generalizing b with
  | case1 s id receiver rest ih =>
    exact (codes_nameAt _ 1).seq <| codes_mark.seq <| ih.seq <|
      codes_stash.seq <| (codes_callOn hrec hx _ _ _ _ _).keeps
  | case2 s id receiver rest ih =>
    exact (codes_nameAt _ 1).seq <| codes_mark.seq <| ih.seq <|
      (codes_exitIfNil hex).seq <| codes_stash.seq <|
      (codes_callOn hrec hx _ _ _ _ _).keeps
  | case3 | case4 => exact ((codes_nameAt _ 1).seq <| Codes.pure _).keeps
  | case5 e h₁ h₂ h₃ h₄ =>
    rw [chain.eq_5 rec x exit e h₁ h₂ h₃ h₄]
    exact hrec x e hx

lemma codes_safeChain : Codes b (safeChain rec x n) true [] := by
  refine .newLabel rfl fun exit hex => ?_
  split
  · exact (codes_chain hrec hx hex _).seq <| (codes_store _ _).seq <|
      (Codes.forM fun e _ => hrec x e hx).seq <| codes_bindLabel hex
  · exact (Codes.forM fun e _ => hrec x e hx).seq <| codes_bindLabel hex
  · exact (codes_chain hrec hx hex _).seq <| codes_bindLabel hex

/-! ### Collections -/

lemma codes_makeArray : Codes b (makeArray rec x n) false [] :=
  codes_mark.seq <| (Codes.mapM fun e _ => codes_operand hrec hx e).seq <|
  (codes_callRuntime x _ _ rfl).seq <| codes_release _

lemma codes_hashEntry (around : Span) (pair : Tree) : Codes b (hashEntry rec x around pair) false [] := by
  rw [hashEntry]
  split
  · exact (codes_operand hrec hx _).seq <| (codes_operand hrec hx _).seq <| .pure _
  · exact .fail

lemma codes_makeHash : Codes b (makeHash rec x n) false [] :=
  codes_mark.seq <| (Codes.mapM fun e _ => codes_hashEntry hrec hx n.span e).seq <|
  (codes_callRuntime x _ _ rfl).seq <| codes_release _

/-! ### Arithmetic -/

lemma codes_arithOperand (e : Tree) : Codes b (arithOperand rec x e) false [] := by
  rw [arithOperand]
  split
  · exact (Codes.pure _).keeps
  · exact (hrec x e hx).seq <| codes_stash

omit hrec hx in
lemma codes_boolean {condition : String}
    (hcondition : ∀ yes, (Line.jumpIf condition yes).isLevel ∧ (Line.jumpIf condition yes).refers = [yes])
    (hdone : ¬IsLookup done) : Codes true (boolean condition done) true [] := by
  refine .newLabel rfl fun yes hyes => codes_writeAll _ [yes, done, yes, done] ?_ ?_ ?_
  · rw [all_cons, (hcondition yes).1, Bool.or_true]
    rfl
  · rw [flatMap_cons, (hcondition yes).2]
    rfl
  · simp [hyes, hdone]

omit hrec hx in
lemma codes_arithFixnum (op : ArithOp) {overflow : String} (hdone : ¬IsLookup done)
    (hoverflow : ¬IsLookup overflow) :
    Codes true (arithFixnum x op done overflow) true (if op.condition?.isSome then [] else [overflow]) := by
  cases op with
  | add | sub | mul =>
    exact (codes_writeAll _ [overflow, done, overflow] rfl rfl (by simp [hdone, hoverflow])).seq <|
      (codes_callRuntime x _ _ rfl).seq <| codes_jmp hdone
  | _ => exact (codes_line rfl rfl).seq <| codes_boolean (fun _ => ⟨rfl, rfl⟩) hdone

omit hrec hx in
lemma codes_arithBoxed (op : ArithOp) (a a' : Operand) (hdone : ¬IsLookup done) (helper : String) :
    Codes true (arithBoxed x op a a' done helper) true [] := by
  refine .newLabel rfl fun heap hheap => .newLabel rfl fun send hsend =>
    (codes_writeAll _ [heap, send, heap] rfl rfl (by simp [hheap, hsend])).seq <|
    (codes_callRuntime x _ _ (Bool.or_true _)).seq <| ?_
  cases op with
  | add | sub | mul => exact (codes_jmp hdone).seq <| codes_label hsend
  | _ =>
    exact (codes_line rfl rfl).seq <| (codes_boolean (fun _ => ⟨rfl, rfl⟩) hdone).seq <| codes_label hsend

/-- The variables are brought home once, before the ways of an operation part. -/
lemma codes_arithmetic (op : ArithOp) (left right : Tree) :
    Codes b (arithmetic rec x op left right) true [] := by
  refine codes_mark.bind fun mark => (codes_arithOperand hrec hx left).bind fun a =>
    (codes_arithOperand hrec hx right).bind fun a' => .newLabel rfl fun slow hs => ?_
  cases hop : op.condition?
  -- a comparison does not overflow, so the label is not used
  on_goal 2 => refine .spareLabel rfl fun overflow hoverflow => .newLabel rfl fun done hdone => ?_
  on_goal 1 =>
    refine .newLabel rfl fun overflow hoverflow => .newLabel rfl fun done hdone =>
      .perm ?_ (.swap slow overflow [done])
  all_goals
    have hf := codes_arithFixnum (x := x) op hdone hoverflow
    rw [hop] at hf
    refine codes_branchPoint.seq <| (codes_writeAll _ [slow] rfl rfl (by simpa using hs)).seq <|
      hf.seq <| (codes_label hs).seq <| ?_
    cases op.helper?
    on_goal 2 => refine (codes_arithBoxed op a a' hdone _).seq <| ?_
    all_goals exact (codes_invoke x _ _).seq <| (codes_label hdone).seq <| codes_release _

lemma codes_send : Codes b (send rec x n) true [] := by
  refine (codes_nameAt n 1).bind fun name => ?_
  split
  · split
    · exact codes_arithmetic hrec hx _ _ _
    · exact codes_callSend hrec hx n
  · exact codes_callSend hrec hx n

/-! ### Conditions and loops -/

lemma codes_conditional : Codes b (conditional rec x n) true [] :=
  .newLabel rfl fun _ ho => .newLabel rfl fun _ hdone => (hrec x _ hx).seq <|
  (codes_branchIfFalse ho).seq <| (hrec x _ hx).seq <|
  (codes_jump hdone).seq <| (codes_bindLabel ho).seq <|
  (hrec x _ hx).seq <| codes_bindLabel hdone

lemma codes_logical : Codes b (logical rec x n) true [] := by
  refine .newLabel rfl fun done hdone => (hrec x _ hx).bind fun _ => ?_
  have hr : Codes true (do rec x (n.child 1); bindLabel done) true [done] :=
    (hrec x _ hx).bind fun _ => codes_bindLabel hdone
  split
  · exact (codes_branchIfFalse hdone).bind fun _ => hr
  · exact (codes_branchIfTrue hdone).bind fun _ => hr

lemma codes_negation : Codes b (negation rec x n) true [] :=
  .newLabel rfl fun falsy hf => .newLabel rfl fun done hdone =>
  (hrec x _ hx).seq <| (codes_branchIfFalse hf).seq <|
  codes_writeAll _ [done, falsy, done] rfl rfl (by simp [hf, hdone])

lemma codes_loop : Codes b (loop rec x n) true [] :=
  .newLabel rfl fun _ htop => .newLabel rfl fun _ hf =>
  .newLabel rfl fun _ hex =>
  (codes_bindLabel htop).seq <| (hrec x _ hx).seq <|
  (codes_branchIfFalse hf).seq <| (hrec _ _ (hx.inLoop htop hex)).seq <|
  (codes_jump htop).seq <| (codes_bindLabel hf).seq <|
  (codes_line rfl rfl).seq <| codes_bindLabel hex

lemma codes_doLoop : Codes b (doLoop rec x n) true [] :=
  .newLabel rfl fun _ htop => .newLabel rfl fun _ ht =>
  .newLabel rfl fun _ hf =>
  .newLabel rfl fun _ hex => (codes_bindLabel htop).seq <|
  (hrec _ _ (hx.inLoop ht hex)).seq <| (codes_bindLabel ht).seq <|
  (hrec x _ hx).seq <| (codes_branchIfFalse hf).seq <|
  (codes_jump htop).seq <| (codes_bindLabel hf).seq <|
  (codes_line rfl rfl).seq <| codes_bindLabel hex

/-! ### Ways out -/

omit hrec hx in
lemma codes_unlinkHandler (record : Int) : Codes b (unlinkHandler record) false [] :=
  codes_withRegister fun _ => (flat_line rfl rfl).seq <| (flat_line rfl rfl).seq <| Flat.pure _

lemma codes_leaveEach (depth : Nat) (hsub : regions <:+ x.regions) :
    Codes b (leaveEach rec x depth regions) false [] := by
  induction regions generalizing b with
  | nil => exact (Codes.pure _).keeps
  | cons r outer ih =>
    have hout : outer <:+ x.regions := (suffix_cons r outer).trans hsub
    rw [leaveEach]
    split
    · cases r.handler
      on_goal 2 => refine (codes_unlinkHandler _).seq <| ?_
      all_goals
        split
        · exact (hrec _ _ (hx.of_suffix hout)).seq <| ih hout
        · exact ih hout
    · exact (Codes.pure _).keeps

lemma codes_leaveRegions (depth : Nat) : Codes b (leaveRegions rec x depth) false [] := by
  rw [leaveRegions]
  split
  · exact codes_mark.seq <| codes_stash.seq <| (codes_leaveEach hrec hx depth (suffix_refl _)).seq <|
      (codes_line rfl rfl).seq <| codes_release _
  · exact (Codes.pure _).keeps

lemma codes_unwind (frame : Tree) (span : Span) : Codes b (unwind rec x frame span) true [] :=
  (codes_leaveRegions hrec hx 0).seq <| codes_mark.seq <| codes_stash.seq <|
  (flat_loadFrame _ _ _).codes.seq <| (codes_line rfl rfl).seq <| codes_stash.seq <|
  (codes_callRuntime x _ _ rfl).seq <| codes_branchPoint.seq <|
  (codes_writeAll _ [] rfl rfl nofun).seq <| codes_release _

lemma codes_returnValue : Codes b (returnValue rec x n) true [] := by
  refine (hrec x _ hx).seq <| ?_
  split
  · exact (codes_leaveRegions hrec hx 0).seq <| codes_epilogue
  · exact (codes_unwind hrec hx _ _).seq <| codes_epilogue

lemma codes_breakOut : Codes b (breakOut rec x n) true [] := by
  refine (hrec x _ hx).bind fun _ => ?_
  split
  · split
    · rename_i target outer hl
      have hex := (hx.loops target (hl ▸ mem_cons_self)).2
      exact (codes_leaveRegions hrec hx _).bind fun _ => codes_jump hex
    · exact .fail
  · split
    · exact (codes_unwind hrec hx _ _).bind fun _ =>
        (codes_writeAll _ [_] rfl rfl (forall_mem_singleton.mpr (not_isLookup_break _))).bind fun _ =>
        codes_unreachable
    · exact .fail

lemma codes_nextRound : Codes b (nextRound rec x n) true [] := by
  rw [nextRound]
  split
  · rename_i target outer hl
    have hn := (hx.loops target (hl ▸ mem_cons_self)).1
    exact (hrec x _ hx).seq <| (codes_leaveRegions hrec hx _).seq <| codes_jump hn
  · exact .fail

omit hrec in
lemma not_isLookup_retryTarget {depth : Nat} {label : String}
    (h : retryTarget x.regions = some (depth, label)) : ¬IsLookup label := by
  have hretry regions (hsub : regions <:+ x.regions)
      (h : retryTarget regions = some (depth, label)) : ¬IsLookup label := by
    induction regions with
    | nil => cases h
    | cons r outer ih =>
      rw [retryTarget] at h
      split at h
      · rename_i name hname
        cases h
        exact hx.regions r (hsub.subset mem_cons_self) _ hname
      · exact ih ((suffix_cons r outer).trans hsub) h
  exact hretry _ (suffix_refl _) h

lemma codes_retry : Codes b (retry rec x n) true [] := by
  rw [retry]
  split
  · rename_i hl
    exact (codes_leaveRegions hrec hx _).seq <| codes_jump (not_isLookup_retryTarget hx hl)
  · exact .fail

/-! ### Exceptions -/

lemma codes_runEnsure (ensure : Tree) : Codes b (runEnsure rec x ensure) false [] := by
  rw [runEnsure]
  split
  · exact codes_mark.seq <| codes_stash.seq <| (hrec x _ hx).seq <|
      (codes_line rfl rfl).seq <| codes_release _
  · exact (Codes.pure _).keeps

lemma codes_rescueClause (ensure : Tree) {retry : String} (hretry : ¬IsLookup retry)
    (hdone : ¬IsLookup done) (around : Span) (clause : Tree) :
    Codes b (rescueClause rec x ensure retry done around clause) true [] := by
  have hr : (x.inRegion { ensure, retry := some retry }).Outer :=
    hx.inRegion fun _ h => Option.some.inj h ▸ hretry
  rw [rescueClause.eq_def]
  split
  · exact .newLabel rfl fun _ hn => (hrec x _ hx).seq <|
      (codes_branchIfFalse hn).seq <| (hrec _ _ hr).seq <|
      (codes_runEnsure hrec hx ensure).seq <| (codes_jump hdone).seq <|
      codes_bindLabel hn
  · exact .fail

lemma codes_rescueBody (clauses : List Tree) (otherwise ensure : Tree) :
    Codes b (rescueBody rec x n clauses otherwise ensure) true [] := by
  refine .newLabel rfl fun retry hretry => .newLabel rfl fun rescue hr =>
    .newLabel rfl fun done hdone =>
    codes_takeRecord.bind fun record => (codes_bindLabel hretry).seq <|
    (codes_writeAll _ [rescue] rfl rfl (by simpa using hr)).seq <|
    (hrec _ _ (hx.inRegion_of_none rfl)).seq <| (codes_unlinkHandler record).seq <| ?_
  split
  on_goal 1 => refine (hrec _ _ (hx.inRegion_of_none rfl)).seq <| ?_
  all_goals exact (codes_runEnsure hrec hx ensure).seq <| (codes_jump hdone).seq <|
    (codes_bindLabel hr).seq <| (codes_line rfl rfl).seq <| (codes_store _ _).seq <|
    (Codes.forM fun c _ => (codes_rescueClause hrec hx ensure hretry hdone n.span c).keeps).seq <|
    (codes_runEnsure hrec hx ensure).seq <| codes_mark.seq <| (hrec x _ hx).seq <|
    codes_stash.seq <| (codes_callRuntime x _ _ rfl).seq <| (codes_release _).seq <|
    codes_unreachable.seq <| codes_bindLabel hdone

lemma codes_protect : Codes b (protect rec x n) false [] := by
  rw [protect]
  split
  · exact hrec x _ hx
  · dsimp only
    split
    · exact (hrec _ _ (hx.inRegion_of_none rfl)).seq <|
        (hrec _ _ (hx.inRegion_of_none rfl)).seq <| codes_runEnsure hrec hx _
    · exact (codes_rescueBody hrec hx n _ _ _).keeps

/-! ### Definitions -/

omit hrec hx in
lemma codes_defineMethod : Codes b (defineMethod x n) true [] := by
  refine (codes_nameAt n 0).bind fun name => (codes_nameAt n 1).bind fun label => ?_
  split
  · exact codes_loadSymbol x name
  · exact (codes_line rfl rfl).seq <| codes_loadSymbol x name
  · exact .fail

lemma codes_defineSingleton : Codes b (defineSingleton rec x n) true [] :=
  (codes_nameAt n 1).seq <| (codes_nameAt n 2).seq <| (hrec x _ hx).seq <|
  (codes_callRuntime x _ _ rfl).seq <| (codes_line rfl rfl).seq <| codes_loadSymbol x _

omit hrec hx in
lemma codes_classBody : Codes b (classBody x n) true [] := by
  refine (codes_nameAt n 0).bind fun label => (codes_nameAt n 1).bind fun body => ?_
  split
  · exact .newLabel rfl fun done hdone => codes_branchPoint.seq <|
      (codes_writeAll _ [done] rfl rfl (by simpa using hdone)).seq <|
      (codes_invoke x _ _).seq <| (codes_bindLabel hdone).seq <| codes_line rfl rfl
  · exact .fail

lemma codes_singletonBody : Codes b (singletonBody rec x n) true [] :=
  (codes_nameAt n 1).seq <| codes_mark.seq <| (hrec x _ hx).seq <|
  (codes_callRuntime x _ _ rfl).seq <| codes_stash.seq <| (codes_invoke x _ _).seq <|
  codes_release _

/-! ### The walk -/

lemma codes_nodeStep : Codes b (nodeStep rec x n) false [] := by
  obtain ⟨tag, span, id, children⟩ := n
  cases tag with
  | seq =>
    have hall : Codes b (children.forM (rec x)) false [] := .forM fun e _ => hrec x e hx
    cases children with
    | nil => exact (codes_line rfl rfl).seq <| hall
    | cons e es => exact hall
  | assign => exact (hrec x _ hx).seq <| codes_store _ _
  | index => exact (codes_loadIndex _).keeps
  | const => exact (codes_loadConst _).keeps
  | numArgs => exact (codes_writeAll _ [] rfl rfl nofun).keeps
  | cond => exact (codes_conditional hrec hx _).keeps
  | and | or => exact (codes_logical hrec hx _).keeps
  | not => exact (codes_negation hrec hx _).keeps
  | loop => exact (codes_loop hrec hx _).keeps
  | doLoop => exact (codes_doLoop hrec hx _).keeps
  | protect => exact codes_protect hrec hx _
  | ret => exact (codes_returnValue hrec hx _).keeps
  | leave => exact (codes_breakOut hrec hx _).keeps
  | proceed => exact (codes_nextRound hrec hx _).keeps
  | retry => exact (codes_retry hrec hx _).keeps
  | call => exact (codes_callSelf hrec hx _).keeps
  | send => exact (codes_send hrec hx _).keeps
  | safeSend => exact (codes_callSafe hrec hx _).keeps
  | safeChain => exact (codes_safeChain hrec hx _).keeps
  | super => exact (codes_callSuper hrec hx _).keeps
  | procNew => exact codes_makeProc hrec hx _
  | array => exact codes_makeArray hrec hx _
  | hash => exact codes_makeHash hrec hx _
  | method => exact (codes_defineMethod _).keeps
  | singletonMethod => exact (codes_defineSingleton hrec hx _).keeps
  | classBody => exact (codes_classBody _).keeps
  | singletonClass => exact (codes_singletonBody hrec hx _).keeps
  | _ => exact .fail

lemma codes_step (e : Tree) : Codes b (step rec x e) false [] := by
  refine flat_get.codes.bind fun s => ?_
  cases e with
  | absent => exact (codes_line rfl rfl).keeps
  | int n => exact (codes_loadInteger _).keeps
  | big text =>
    dsimp only
    split
    · exact (codes_loadInteger _).keeps
    · exact .fail
  | float text => exact .fail
  | str bytes => exact (codes_makeString x bytes).keeps
  | sym name => exact (codes_loadSymbol x name).keeps
  | name name => exact codes_loadName name _
  | node tag span id children => exact codes_nodeStep hrec hx _

end

lemma codes_expr {x : Exits} (hx : x.Outer) (e : Tree) : Codes b (expr x e) false [] :=
  recurseOn_induction (C := fun p m => p.1.Outer → ∀ b, Codes b m false [])
    (fun _ _ _ => (Codes.pure _).keeps)
    (fun _ p hrec hp _ => codes_step (fun b x e hx => hrec (x, e) hx b) hp p.2) (x, e) hx b

lemma codes_body (r : Routine) : Codes b (body r) true [] :=
  (codes_expr .empty r.body).seq <| codes_epilogue

end Emit

end Garnet
