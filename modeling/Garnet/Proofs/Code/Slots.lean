import Garnet.Proofs.Code.Twins

/-!
# The private code of a tree

The private code follows the code through every rule (`steps_expr`). A rule passes on operands that are in
use: receivers and arguments up to the call, the value that is saved across an `ensure` body, the record of a
handler throughout the body that it protects. It gives slots back up to a mark of its own, so what is around
it stays in use (`Exits.Stands`).
-/

namespace Garnet

open List Reg Tenancy

/-! ### Where control goes -/

/-- The trees of a routine that look at the number of arguments. -/
abbrev Tree.Counted (r : Routine) (e : Tree) : Prop := e.Everywhere fun n => n.tag = .numArgs → r.usesNumArgs

/-- The distance of a handler record in use, and of the record that stands for it. -/
def Tenancy.Records (t : Tenancy) (d d' : Int) : Prop :=
  ∃ k f, d = slotDisp (k + 3) ∧ d' = slotDisp (f + 3) ∧ ∀ j ≤ 3, t.tenants[k + j]? = some (f + j)

lemma Tenancy.Records.mono {t u : Tenancy} (htu : t ≤ u) {d d' : Int} (h : t.Records d d') :
    u.Records d d' := by
  obtain ⟨k, f, hd, hd', htenant⟩ := h
  exact ⟨k, f, hd, hd', fun j hj => tenant_mono htu (htenant j hj)⟩

/-- A protected region, and the one that stands for it. -/
structure Region.Stands (r : Routine) (t : Tenancy) (g g' : Region) : Prop where
  ensure : g.ensure = g'.ensure
  counted : g.ensure.Counted r
  handler : Option.Rel t.Records g.handler g'.handler
  retry : g.retry = g'.retry

/-- What is around a place, and what stands for it. -/
structure Exits.Stands (r : Routine) (t : Tenancy) (x x' : Exits) : Prop where
  loops : x.loops = x'.loops
  regions : List.Forall₂ (Region.Stands r t) x.regions x'.regions

section

variable {r : Routine} {t u : Tenancy} {x x' : Exits}

lemma Region.Stands.mono (htu : t ≤ u) {g g' : Region} (h : g.Stands r t g') : g.Stands r u g' where
  ensure := h.ensure
  counted := h.counted
  handler := by
    have hh := h.handler
    generalize g.handler = a, g'.handler = a' at hh ⊢
    cases hh with
    | some hr => exact .some (hr.mono htu)
    | none => exact .none
  retry := h.retry

namespace Exits.Stands

lemma mono (htu : t ≤ u) (h : x.Stands r t x') : x.Stands r u x' :=
  ⟨h.loops, h.regions.imp fun _ _ => Region.Stands.mono htu⟩

variable (h : x.Stands r t x')
include h

lemma isGuarded_eq : x.isGuarded = x'.isGuarded := by
  have hregions := h.regions
  rw [isGuarded, isGuarded]
  generalize x.regions = gs, x'.regions = gs' at hregions ⊢
  cases hregions <;> rfl

lemma weight_eq : x.weight = x'.weight := by
  have hregions := h.regions
  rw [weight, weight]
  generalize x.regions = gs, x'.regions = gs' at hregions ⊢
  induction hregions with
  | nil => rfl
  | cons hg _ ih => rw [foldr_cons, foldr_cons, hg.ensure, ih]

lemma inLoop (next exit : String) : (x.inLoop next exit).Stands r t (x'.inLoop next exit) := by
  refine ⟨?_, h.regions⟩
  rw [Exits.inLoop, Exits.inLoop, h.loops, h.regions.length_eq]

lemma inRegion {g g' : Region} (hg : g.Stands r t g') : (x.inRegion g).Stands r t (x'.inRegion g') :=
  ⟨h.loops, .cons hg h.regions⟩

end Exits.Stands

end

namespace Emit

variable {e : Tree}

section

variable {n : Node} {ensure : Tree} {r : Routine} {rec rec' : Exits → Tree → Emit Unit}
  (hrec : ∀ t x x' e, x.Stands r t x' → e.Counted r → Steps r t (rec x e) (rec' x' e)) {b t : Tenancy}
  {x x' : Exits} (hx : x.Stands r t x')
include hrec hx

/-! ### Calls -/

omit hrec hx in
lemma isOutside_of_immediate? {o : Operand} (h : immediate? e = some o) : o.isOutside := by
  rw [immediate?.eq_def] at h
  split at h
  · obtain ⟨w, -, rfl⟩ := Option.map_eq_some_iff.mp h
    rfl
  · split at h
    · cases h
      rfl
    · split at h
      · cases h
        rfl
      · cases h
  · dsimp only at h
    split at h
    · obtain ⟨label, -, rfl⟩ := Option.map_eq_some_iff.mp h
      rfl
    · cases h
  · cases h

lemma gives_operand (he : e.Counted r) : Gives r t (operand rec x e) (operand rec' x' e) := by
  rw [operand, operand]
  split
  · rename_i o ho
    exact .pure fun _ _ => holds_outside (isOutside_of_immediate? ho)
  · exact (hrec t x x' e hx he).seq gives_stash

lemma steps_makeProc (hn : n.tree.Counted r) : Steps r t (makeProc rec x n) (makeProc rec' x' n) :=
  (same_nameAt n 0).bind_same fun _ => (hrec t x x' _ hx (hn.child 1)).seq
    (steps_callRuntime_outside hx.isGuarded_eq _ rfl)

lemma gives_plainArgument (he : e.Counted r) :
    Gives r t (plainArgument rec x e) (plainArgument rec' x' e) := by
  rw [plainArgument, plainArgument]
  split
  · exact .fail
  · exact gives_operand hrec hx he

lemma follows_callArgs {receiver receiver' : Operand} (hreceiver : t.Holds r receiver receiver')
    {args block : Tree} (ha : args.Counted r) (hb : block.Counted r) :
    Follows r t (callArgs rec x receiver args block) (callArgs rec' x' receiver' args block)
      fun w call call' => call.Stands r w call' := by
  rw [callArgs, callArgs]
  split
  on_goal 1 =>
    rename_i s id children hchi
    have hs := ha.children (.node .splat s id children) (hchi ▸ mem_cons_self)
    refine (hrec t x x' _ hx (Tree.Everywhere.child hs 0)).seq ?_
    refine gives_stash.bind fun w o o' hw ho => ?_
    have hc : CallArgs.Stands r w { receiver, splat := o } { receiver := receiver', splat := o' } :=
      ⟨hreceiver.mono hw, holds_outside rfl, .nil, .some ho, rfl⟩
  on_goal 2 =>
    refine (Follows.mapM (fun _ _ _ _ hw ho => ho.mono hw) fun e he => gives_plainArgument hrec hx (ha.children e he)).bind
      fun w os os' hw hos => ?_
    have hc : CallArgs.Stands r w { receiver, args := os } { receiver := receiver', args := os' } :=
      ⟨hreceiver.mono hw, holds_outside rfl, hos, .none, rfl⟩
  -- the block comes last
  all_goals
    have hxw := hx.mono hw
    split
    · exact .pure fun _ hv => hc.mono hv
    · refine (steps_makeProc hrec hxw (n := ⟨.procNew, _, _, _⟩) hb).seq
        (gives_stash.bind fun w o o' hw ho => .pure fun v hv => ?_)
      have hm := hc.mono (le_trans hw hv)
      exact ⟨hm.receiver, ho.mono hv, hm.args, hm.splat, rfl⟩
    · refine (gives_operand hrec hxw hb).bind fun w o o' hw ho => .pure fun v hv => ?_
      have hm := hc.mono (le_trans hw hv)
      exact ⟨hm.receiver, ho.mono hv, hm.args, hm.splat, hm.breakId⟩

lemma frees_callOn (hbt : b ≤ t) {receiver receiver' : Operand} (hreceiver : t.Holds r receiver receiver')
    (target : CallTarget) {args block : Tree} (ha : args.Counted r) (hb : block.Counted r) (k' : Nat) :
    Frees r b t (callOn rec x receiver target args block b.tenants.length)
      (callOn rec' x' receiver' target args block k') :=
  (follows_callArgs hrec hx hreceiver ha hb).frees fun _ _ _ hw hc =>
    .after (steps_invoke hx.isGuarded_eq target hc) (frees_release (le_trans hbt hw) k')

lemma steps_callSelf (hn : n.tree.Counted r) : Steps r t (callSelf rec x n) (callSelf rec' x' n) :=
  (same_nameAt n 0).bind_same fun _ => .mark fun _ _ hw =>
    frees_callOn hrec (hx.mono hw) le_rfl (holds_outside rfl) _ (hn.child 1) (hn.child 2) _

lemma steps_callSend (hn : n.tree.Counted r) : Steps r t (callSend rec x n) (callSend rec' x' n) :=
  (same_nameAt n 1).bind_same fun _ => .mark fun _ _ hw =>
    (gives_operand hrec (hx.mono hw) (hn.child 0)).frees fun _ _ _ hv hreceiver =>
    frees_callOn hrec (hx.mono (le_trans hw hv)) hv hreceiver _ (hn.child 2) (hn.child 3) _

lemma steps_callSuper (hn : n.tree.Counted r) : Steps r t (callSuper rec x n) (callSuper rec' x' n) :=
  (same_nameAt n 0).bind_same fun _ => .mark fun _ _ hw =>
    frees_callOn hrec (hx.mono hw) le_rfl (holds_outside rfl) _ (hn.child 1) (hn.child 2) _

lemma steps_callSafe (hn : n.tree.Counted r) : Steps r t (callSafe rec x n) (callSafe rec' x' n) := by
  refine (same_nameAt n 1).bind_same fun name => .newLabel rfl fun done hdone =>
    .mark fun w k' hw => ?_
  have hxw := hx.mono hw
  refine .after (hrec w x x' _ hxw (hn.child 0)) (.after (steps_exitIfNil done) ?_)
  refine gives_stash.frees fun w₁ receiver receiver' hw₁ hreceiver => ?_
  refine (follows_callArgs hrec (hxw.mono hw₁) hreceiver (hn.child 2) (hn.child 3)).frees
    fun w₂ call call' hw₂ hc => ?_
  exact .after (steps_invoke hx.isGuarded_eq _ hc) (.after (steps_bindLabel hdone)
    (frees_release (le_trans hw₁ hw₂) k'))

omit hx in
lemma steps_chain (exit : String) (he : e.Counted r) {t : Tenancy} {x x' : Exits} (hx : x.Stands r t x') :
    Steps r t (chain rec x exit e) (chain rec' x' exit e) := by
  induction e using chain.induct generalizing t with
  | case1 s id receiver rest ih =>
    have hn : (Node.mk .send s id (receiver :: rest)).tree.Counted r := he
    refine (same_nameAt _ 1).bind_same fun name => .mark fun w k' hw => ?_
    refine .after (ih (hn.children _ mem_cons_self) (hx.mono hw)) ?_
    exact gives_stash.frees fun v _ _ hv hreceiver =>
      frees_callOn hrec (hx.mono (le_trans hw hv)) hv hreceiver _ (hn.child 2) (hn.child 3) _
  | case2 s id receiver rest ih =>
    have hn : (Node.mk .safeSend s id (receiver :: rest)).tree.Counted r := he
    refine (same_nameAt _ 1).bind_same fun name => .mark fun w k' hw => ?_
    refine .after (ih (hn.children _ mem_cons_self) (hx.mono hw)) (.after (steps_exitIfNil exit) ?_)
    exact gives_stash.frees fun v _ _ hv hreceiver =>
      frees_callOn hrec (hx.mono (le_trans hw hv)) hv hreceiver _ (hn.child 2) (hn.child 3) _
  | case3 | case4 => exact (same_nameAt _ 1).seq (.pure fun _ _ => trivial)
  | case5 e h₁ h₂ h₃ h₄ =>
    rw [chain.eq_5 rec x exit e h₁ h₂ h₃ h₄, chain.eq_5 rec' x' exit e h₁ h₂ h₃ h₄]
    exact hrec t x x' e hx he

lemma steps_safeChain (hn : n.tree.Counted r) : Steps r t (safeChain rec x n) (safeChain rec' x' n) := by
  refine .newLabel rfl fun exit hex => ?_
  have hall {es : List Tree} (hes : ∀ e ∈ es, e.Counted r) : Steps r t (es.forM (rec x)) (es.forM (rec' x')) :=
    .forM fun e he => hrec t x x' e hx (hes e he)
  have hf := hn.child 0
  split
  · rename_i s₀ id₀ s id children rest heq
    rw [heq] at hf
    have hset := hf.children _ mem_cons_self
    exact (steps_chain hrec exit (Tree.Everywhere.child hset 1) hx).seq
      ((steps_store _ _).seq ((hall fun e he => hf.children e (mem_cons_of_mem _ he)).seq
        (steps_bindLabel hex)))
  · rename_i s₀ id₀ stmt rest ho heq
    rw [heq] at hf
    exact (hall hf.children).seq (steps_bindLabel hex)
  · exact (steps_chain hrec exit hf hx).seq (steps_bindLabel hex)

/-! ### Collections -/

lemma steps_makeArray (hn : n.tree.Counted r) : Steps r t (makeArray rec x n) (makeArray rec' x' n) := by
  refine .mark fun w k' hw => ?_
  refine (Follows.mapM (fun _ _ _ _ hw ho => ho.mono hw) fun e he => gives_operand hrec (hx.mono hw) (hn.children e he)).frees
    fun v items items' hv hite => ?_
  exact .after (steps_callRuntime hx.isGuarded_eq _ (.cons (holds_outside rfl) hite)) (frees_release hv k')

lemma follows_hashEntry (around : Span) {pair : Tree} (hpa : pair.Counted r) :
    Follows r t (hashEntry rec x around pair) (hashEntry rec' x' around pair)
      fun w => List.Forall₂ (w.Holds r) := by
  rw [hashEntry, hashEntry]
  split
  · rename_i key value hc
    have hkey := hpa.children key (hc ▸ mem_cons_self)
    have hval := hpa.children value (hc ▸ mem_cons_of_mem _ mem_cons_self)
    refine (gives_operand hrec hx hkey).bind fun w o o' hw ho => ?_
    refine (gives_operand hrec (hx.mono hw) hval).bind fun v p p' hv hp => .pure fun u hu => ?_
    exact .cons (ho.mono (le_trans hv hu)) (.cons (hp.mono hu) .nil)
  · exact .fail

lemma steps_makeHash (hn : n.tree.Counted r) : Steps r t (makeHash rec x n) (makeHash rec' x' n) := by
  refine .mark fun w k' hw => ?_
  refine (Follows.mapM (fun _ _ _ _ hw hos => hos.imp fun _ _ => Tenancy.Holds.mono hw) fun pair hpa =>
    follows_hashEntry hrec (hx.mono hw) n.span (hn.children pair hpa)).frees fun v entries entries' hv hent => ?_
  exact .after (steps_callRuntime hx.isGuarded_eq _ (.cons (holds_outside rfl) (rel_flatten hent)))
    (frees_release hv k')

/-! ### Arithmetic -/

lemma gives_arithOperand (he : e.Counted r) :
    Gives r t (arithOperand rec x e) (arithOperand rec' x' e) := by
  rw [arithOperand, arithOperand]
  split
  · exact .pure fun _ _ => holds_outside rfl
  · exact (hrec t x x' e hx he).seq gives_stash

omit hrec hx in
lemma steps_boolean (condition done : String) : Echoes r t (boolean condition done) :=
  .newLabel rfl fun yes hyes => steps_lines [yes] rfl rfl (forall_mem_singleton.mpr hyes)

omit hrec in
lemma steps_arithFixnum (op : ArithOp) (done : String) {overflow : String}
    (hoverflow : ¬Label.IsBreak overflow) :
    Steps r t (arithFixnum x op done overflow) (arithFixnum x' op done overflow) := by
  cases op with
  | add | sub | mul =>
    exact (steps_lines [overflow] rfl rfl (forall_mem_singleton.mpr hoverflow)).seq
      ((steps_callRuntime_outside hx.isGuarded_eq _ rfl).seq (steps_line rfl rfl))
  | _ => exact (steps_line rfl rfl).seq (steps_boolean _ _)

omit hrec in
lemma steps_arithBoxed (op : ArithOp) {a a' b b' : Operand} (ha : t.Holds r a a') (hb : t.Holds r b b')
    (done helper : String) :
    Steps r t (arithBoxed x op a b done helper) (arithBoxed x' op a' b' done helper) := by
  refine .newLabel rfl fun heap hheap => .newLabel rfl fun send hsend =>
    (steps_lines [heap] rfl rfl (forall_mem_singleton.mpr hheap)).seq
    ((steps_callRuntime hx.isGuarded_eq _ (.cons ha (.cons hb .nil))).seq ?_)
  cases op with
  | add | sub | mul => exact (steps_line rfl rfl).seq (steps_label hsend)
  | _ => exact (steps_line rfl rfl).seq ((steps_boolean _ _).seq (steps_label hsend))

omit hrec hx in
lemma steps_test {a a' b b' : Operand} (ha : t.Holds r a a') (hb : t.Holds r b b') (slow : String) :
    Steps r t (writeAll (ArithOp.test a b slow)) (writeAll (ArithOp.test a' b' slow)) :=
  steps_writeAll (.cons (writes_load ha ecx) (.cons (writes_load hb edx)
    (.cons (writes_line rfl rfl) (.cons (writes_line rfl rfl)
      (.cons (writes_line rfl rfl) (.cons (writes_line rfl rfl) .nil))))))

lemma steps_arithmetic (op : ArithOp) {left right : Tree} (hl : left.Counted r)
    (hr : right.Counted r) :
    Steps r t (arithmetic rec x op left right) (arithmetic rec' x' op left right) := by
  refine .mark fun w k' hw => ?_
  refine (gives_arithOperand hrec (hx.mono hw) hl).frees fun w₁ a a' hw₁ ha => ?_
  refine (gives_arithOperand hrec (hx.mono (le_trans hw hw₁)) hr).frees fun w₂ b b' hw₂ hb => ?_
  refine .newLabel rfl fun slow hs => .newLabel rfl fun overflow hoverflow =>
    .newLabel rfl fun done hdone => ?_
  have hx₂ := hx.mono (le_trans hw (le_trans hw₁ hw₂))
  have ha₂ := ha.mono hw₂
  refine .after steps_branchPoint (.after (steps_test ha₂ hb slow)
    (.after (steps_arithFixnum hx₂ op done hoverflow) (.after (steps_label hs) ?_)))
  generalize op.helper? = helper
  cases helper
  case' some helper => refine .after (steps_arithBoxed hx₂ op ha₂ hb done helper) ?_
  all_goals
    exact .after (steps_invoke hx.isGuarded_eq _ ⟨ha₂, holds_outside rfl, .cons hb .nil, .none, rfl⟩)
      (.after (steps_label hdone) (frees_release (le_trans hw₁ hw₂) k'))

section

variable (hn : n.tree.Counted r)
include hn

lemma steps_send : Steps r t (send rec x n) (send rec' x' n) := by
  refine (same_nameAt n 1).bind_same fun name => ?_
  split
  · rename_i op arg hop hc
    have harg := (hn.child 2).children arg (hc ▸ mem_cons_self)
    split
    · exact steps_arithmetic hrec hx op (hn.child 0) harg
    · exact steps_callSend hrec hx hn
  · exact steps_callSend hrec hx hn

/-! ### Conditions and loops -/

lemma steps_conditional : Steps r t (conditional rec x n) (conditional rec' x' n) :=
  have hc i : Steps r t (rec x (n.child i)) (rec' x' (n.child i)) := hrec t x x' _ hx (hn.child i)
  .newLabel rfl fun otherwise ho => .newLabel rfl fun done hdone =>
  (hc 0).seq ((steps_branchIfFalse otherwise).seq ((hc 1).seq ((steps_jump done).seq
    ((steps_bindLabel ho).seq ((hc 2).seq (steps_bindLabel hdone))))))

lemma steps_logical : Steps r t (logical rec x n) (logical rec' x' n) := by
  refine .newLabel rfl fun done hdone => (hrec t x x' _ hx (hn.child 0)).seq ?_
  have hr : Steps r t (do rec x (n.child 1); bindLabel done) (do rec' x' (n.child 1); bindLabel done) :=
    (hrec t x x' _ hx (hn.child 1)).seq (steps_bindLabel hdone)
  split
  · exact (steps_branchIfFalse done).seq hr
  · exact (steps_branchIfTrue done).seq hr

lemma steps_negation : Steps r t (negation rec x n) (negation rec' x' n) :=
  .newLabel rfl fun falsy hf => .newLabel rfl fun done hdone =>
  (hrec t x x' _ hx (hn.child 0)).seq ((steps_branchIfFalse falsy).seq
    (steps_lines [falsy, done] rfl rfl (by simp [hf, hdone])))

lemma steps_loop : Steps r t (loop rec x n) (loop rec' x' n) :=
  .newLabel rfl fun top htop => .newLabel rfl fun finished hf =>
  .newLabel rfl fun exit hex => (steps_bindLabel htop).seq
    ((hrec t x x' _ hx (hn.child 0)).seq ((steps_branchIfFalse finished).seq
      ((hrec t _ _ _ (hx.inLoop top exit) (hn.child 1)).seq ((steps_jump top).seq
        ((steps_bindLabel hf).seq ((steps_line rfl rfl).seq (steps_bindLabel hex)))))))

lemma steps_doLoop : Steps r t (doLoop rec x n) (doLoop rec' x' n) :=
  .newLabel rfl fun top htop => .newLabel rfl fun test ht =>
  .newLabel rfl fun finished hf => .newLabel rfl fun exit hex =>
  (steps_bindLabel htop).seq ((hrec t _ _ _ (hx.inLoop test exit) (hn.child 1)).seq
    ((steps_bindLabel ht).seq ((hrec t x x' _ hx (hn.child 0)).seq
      ((steps_branchIfFalse finished).seq ((steps_jump top).seq ((steps_bindLabel hf).seq
        ((steps_line rfl rfl).seq (steps_bindLabel hex))))))))

end

/-! ### Ways out -/

omit hrec hx in
lemma steps_handler {k f : Nat} (h : ∀ j ≤ 3, t.tenants[k + j]? = some (f + j)) (handler : String) :
    Steps r t (write (.movl (.addr handler) (.slot k))) (write (.movl (.addr handler) (.slot f))) := by
  intro u s s' a v hu hs hm
  cases hm
  have hu' : ∀ j ≤ 3, u.tenants[k + j]? = some (f + j) := fun j hj => tenant_mono hu (h j hj)
  refine ⟨(), _, u, rfl, hs.push fun hfits => ?_, le_rfl, trivial⟩
  refine hfits.ins (.cons (holds_outside rfl) (.cons (.slot (hu' 0 (Nat.zero_le _))) .nil)) ?_
  intro f' handler' heq
  have hslot : Operand.slot f = .slot f' := by
    injection (Line.ins.inj heq).2 with _ hlast
    exact (cons.inj hlast).1
  exact ⟨k, Operand.slot_injective hslot ▸ hu'⟩

omit hrec hx in
lemma steps_installHandler {d d' : Int} (h : t.Records d d') (handler : String) :
    Steps r t (writeAll (installHandler d handler)) (writeAll (installHandler d' handler)) := by
  obtain ⟨k, f, rfl, rfl, htenant⟩ := h
  have hslot j (hj : j ≤ 3) : t.Holds r (.slot (k + j)) (.slot (f + j)) := .slot (htenant j hj)
  exact (steps_line rfl rfl).seq ((steps_save (hslot 3 le_rfl) eax).seq
    ((steps_save (hslot 2 (by decide)) ebp).seq ((steps_save (hslot 1 (by decide)) esp).seq
      ((steps_handler htenant handler).seq
        (steps_writeAll (.cons (.ins (.cons (hslot 3 le_rfl) (.cons (holds_outside rfl) .nil)) rfl)
          (.cons (writes_line rfl rfl) .nil)))))))

omit hrec hx in
lemma steps_unlinkHandler {d d' : Int} (h : t.Records d d') :
    Steps r t (unlinkHandler d) (unlinkHandler d') := by
  obtain ⟨k, f, rfl, rfl, htenant⟩ := h
  have hslot : t.Holds r (.slot (k + 3)) (.slot (f + 3)) := .slot (htenant 3 le_rfl)
  exact steps_withRegister fun reg _ =>
    steps_writeAll (.cons (writes_load hslot reg) (.cons (writes_line rfl rfl) .nil))

lemma steps_leaveEach (depth : Nat) {gs gs' : List Region} (hgs : List.Forall₂ (Region.Stands r t) gs gs') :
    Steps r t (leaveEach rec x depth gs) (leaveEach rec' x' depth gs') := by
  induction hgs with
  | nil => exact .pure fun _ _ => trivial
  | @cons g g' outer outer' hg hout ih =>
    have ho : Exits.Stands r t { x with regions := outer } { x' with regions := outer' } := ⟨hx.loops, hout⟩
    have hh := hg.handler
    rw [leaveEach, leaveEach, hout.length_eq, ← hg.ensure]
    split
    · generalize g.handler = a, g'.handler = a' at hh ⊢
      cases hh
      case' some hr => refine (steps_unlinkHandler hr).seq ?_
      all_goals
        split
        · exact (hrec t _ _ _ ho hg.counted).seq ih
        · exact ih
    · exact .pure fun _ _ => trivial

lemma steps_leaveRegions (depth : Nat) :
    Steps r t (leaveRegions rec x depth) (leaveRegions rec' x' depth) := by
  rw [leaveRegions, leaveRegions, hx.regions.length_eq]
  split
  · refine .mark fun w k' hw => gives_stash.frees fun v value value' hv hval => ?_
    have hxv := hx.mono (le_trans hw hv)
    exact .after (steps_leaveEach hrec hxv depth hxv.regions)
      (.after (steps_load hval eax) (frees_release hv k'))
  · exact .pure fun _ _ => trivial

lemma steps_unwind (frame : Tree) (span : Span) :
    Steps r t (unwind rec x frame span) (unwind rec' x' frame span) := by
  refine (steps_leaveRegions hrec hx 0).seq (.mark fun w k' hw => ?_)
  refine gives_stash.frees fun w₁ value value' hw₁ hv => ?_
  refine .after (steps_loadFrame (by decide) _ _) (.after (steps_line rfl rfl) ?_)
  refine gives_stash.frees fun w₂ target target' hw₂ ht => ?_
  exact .after (steps_callRuntime hx.isGuarded_eq _ (.cons ht .nil)) (.after steps_branchPoint
    (.after (steps_writeAll (.cons (writes_load (hv.mono hw₂) eax) (.cons (writes_load ht ebp) .nil)))
      (frees_release (le_trans hw₁ hw₂) k')))

lemma steps_returnValue (hn : n.tree.Counted r) :
    Steps r t (returnValue rec x n) (returnValue rec' x' n) := by
  refine (hrec t x x' _ hx (hn.child 0)).seq ?_
  split
  · exact (steps_leaveRegions hrec hx 0).seq steps_epilogue
  · exact (steps_unwind hrec hx _ _).seq steps_epilogue

lemma steps_breakOut (hn : n.tree.Counted r) : Steps r t (breakOut rec x n) (breakOut rec' x' n) := by
  refine (hrec t x x' _ hx (hn.child 0)).seq ?_
  rw [hx.loops]
  split
  · split
    · exact (steps_leaveRegions hrec hx _).seq (steps_jump _)
    · exact .fail
  · split
    · rename_i id _
      have hl : t.Holds r (.symMem ("__brk_sp_" ++ Numeral.decimal id) ebp)
          (.symMem ("__brk_sp_" ++ Numeral.decimal id) ebp) := .fixed ⟨id, rfl⟩
      exact (steps_unwind hrec hx _ _).seq ((steps_writeAll (.cons (writes_load hl esp)
        (.cons (writes_line rfl rfl) .nil))).seq steps_unreachable)
    · exact .fail

lemma steps_nextRound (hn : n.tree.Counted r) : Steps r t (nextRound rec x n) (nextRound rec' x' n) := by
  rw [nextRound, nextRound, hx.loops]
  split
  · exact (hrec t x x' _ hx (hn.child 0)).seq ((steps_leaveRegions hrec hx _).seq (steps_jump _))
  · exact .fail

omit hrec in
lemma retryTarget_eq : retryTarget x.regions = retryTarget x'.regions := by
  have hregions := hx.regions
  generalize x.regions = gs, x'.regions = gs' at hregions ⊢
  induction hregions with
  | nil => rfl
  | cons hg hout ih => rw [retryTarget, retryTarget, hg.retry, hout.length_eq, ih]

lemma steps_retry (n : Node) : Steps r t (retry rec x n) (retry rec' x' n) := by
  rw [retry, retry, retryTarget_eq hx]
  split
  · exact (steps_leaveRegions hrec hx _).seq (steps_jump _)
  · exact .fail

/-! ### Exceptions -/

lemma steps_runEnsure (h : ensure.Counted r) :
    Steps r t (runEnsure rec x ensure) (runEnsure rec' x' ensure) := by
  rw [runEnsure, runEnsure]
  split
  · refine .mark fun w k' hw => gives_stash.frees fun v value value' hv hval => ?_
    exact .after (hrec v x x' ensure (hx.mono (le_trans hw hv)) h)
      (.after (steps_load hval eax) (frees_release hv k'))
  · exact .pure fun _ _ => trivial

lemma steps_rescueClause (hens : ensure.Counted r) (retry done : String) (around : Span) {clause : Tree}
    (hc : clause.Counted r) :
    Steps r t (rescueClause rec x ensure retry done around clause)
      (rescueClause rec' x' ensure retry done around clause) := by
  have hr : Region.Stands r t { ensure, retry := some retry } { ensure, retry := some retry } :=
    ⟨rfl, hens, .none, rfl⟩
  fun_cases rescueClause rec x ensure retry done around clause with
  | case1 s id children n =>
    have hn : n.tree.Counted r := hc
    exact .newLabel rfl fun next hne => (hrec t x x' _ hx (hn.child 0)).seq
      ((steps_branchIfFalse next).seq ((hrec t _ _ _ (hx.inRegion hr) (hn.child 1)).seq
        ((steps_runEnsure hrec hx hens).seq ((steps_jump done).seq (steps_bindLabel hne)))))
  | case2 => exact .fail

omit hrec hx in
lemma follows_takeRecord : Follows r t takeRecord takeRecord fun w d d' => w.Records d d' :=
  (follows_takeSlots 4).bind fun _ k f _ htenant => .pure fun _ hw =>
    ⟨k, f, rfl, rfl, fun j hj => tenant_mono hw (htenant j (Nat.lt_succ_of_le hj))⟩

lemma steps_rescueBody (hn : n.tree.Counted r) {clauses : List Tree}
    (hcla : ∀ c ∈ clauses, c.Counted r) {otherwise : Tree} (hoth : otherwise.Counted r)
    (hens : ensure.Counted r) :
    Steps r t (rescueBody rec x n clauses otherwise ensure)
      (rescueBody rec' x' n clauses otherwise ensure) := by
  refine .newLabel rfl fun retry hret => .newLabel rfl fun rescue hres =>
    .newLabel rfl fun done hdone => follows_takeRecord.bind fun w d d' hw hr => ?_
  have hxw := hx.mono hw
  have hp : Region.Stands r w { ensure } { ensure } := ⟨rfl, hens, .none, rfl⟩
  have hreg : Region.Stands r w { ensure, handler := some d } { ensure, handler := some d' } :=
    ⟨rfl, hens, .some hr, rfl⟩
  refine (steps_bindLabel hret).seq ((steps_installHandler hr rescue).seq
    ((hrec w _ _ _ (hxw.inRegion hreg) (hn.child 0)).seq ((steps_unlinkHandler hr).seq ?_)))
  split
  on_goal 1 => refine (hrec w _ _ _ (hxw.inRegion hp) hoth).seq ?_
  all_goals
    refine (steps_runEnsure hrec hxw hens).seq ((steps_jump done).seq ((steps_bindLabel hres).seq
      (steps_loadSelf.seq ((steps_store _ _).seq ((Follows.forM fun c hc =>
        steps_rescueClause hrec hxw hens retry done n.span (hcla c hc)).seq
          ((steps_runEnsure hrec hxw hens).seq ?_))))))
    -- the exception is raised again if no clause fits
    refine .mark fun w₁ k' hw₁ => .after (hrec w₁ x x' _ (hxw.mono hw₁) (hn.child 1)) ?_
    refine gives_stash.frees fun w₂ o o' hw₂ ho => ?_
    exact .after (steps_callRuntime hx.isGuarded_eq _ (.cons ho .nil))
      ((frees_release hw₂ k').seq (steps_unreachable.seq (steps_bindLabel hdone)))

lemma steps_protect (hn : n.tree.Counted r) : Steps r t (protect rec x n) (protect rec' x' n) := by
  rw [protect, protect]
  split
  · exact hrec t x x' _ hx (hn.child 0)
  · dsimp only
    have hens := hn.child (n.children.length - 1)
    have hp : Region.Stands r t { ensure := n.child (n.children.length - 1) }
        { ensure := n.child (n.children.length - 1) } := ⟨rfl, hens, .none, rfl⟩
    split
    · exact (hrec t _ _ _ (hx.inRegion hp) (hn.child 0)).seq
        ((hrec t _ _ _ (hx.inRegion hp) (hn.child _)).seq (steps_runEnsure hrec hx hens))
    · refine steps_rescueBody hrec hx hn (fun c hc => ?_) (hn.child _) hens
      exact hn.children c (mem_of_mem_drop (mem_of_mem_take hc))

/-! ### Definitions -/

omit hrec in
lemma steps_defineMethod (n : Node) : Steps r t (defineMethod x n) (defineMethod x' n) := by
  refine (same_nameAt n 0).bind_same fun name => (same_nameAt n 1).bind_same fun label => ?_
  split
  · exact steps_loadSymbol hx.isGuarded_eq name
  · exact (steps_line rfl rfl).seq (steps_loadSymbol hx.isGuarded_eq name)
  · exact .fail

lemma steps_defineSingleton (hn : n.tree.Counted r) :
    Steps r t (defineSingleton rec x n) (defineSingleton rec' x' n) :=
  (same_nameAt n 1).bind_same fun _ => (same_nameAt n 2).bind_same fun _ =>
  (hrec t x x' _ hx (hn.child 0)).seq ((steps_callRuntime_outside hx.isGuarded_eq _ rfl).seq
    ((steps_line rfl rfl).seq (steps_loadSymbol hx.isGuarded_eq _)))

omit hrec in
lemma steps_classBody (n : Node) : Steps r t (classBody x n) (classBody x' n) := by
  refine (same_nameAt n 0).bind_same fun label => (same_nameAt n 1).bind_same fun body => ?_
  split
  · exact .newLabel rfl fun done hdone => steps_branchPoint.seq
      ((steps_lines [] rfl rfl nofun).seq ((steps_invoke hx.isGuarded_eq _
        ⟨holds_outside rfl, holds_outside rfl, .nil, .none, rfl⟩).seq
          ((steps_bindLabel hdone).seq (steps_line rfl rfl))))
  · exact .fail

lemma steps_singletonBody (hn : n.tree.Counted r) :
    Steps r t (singletonBody rec x n) (singletonBody rec' x' n) := by
  refine (same_nameAt n 1).bind_same fun body => .mark fun w k' hw => ?_
  refine .after (hrec w x x' _ (hx.mono hw) (hn.child 0))
    (.after (steps_callRuntime_outside hx.isGuarded_eq _ rfl) ?_)
  exact gives_stash.frees fun v receiver receiver' hv hreceiver =>
    .after (steps_invoke hx.isGuarded_eq _ ⟨hreceiver, holds_outside rfl, .nil, .none, rfl⟩)
      (frees_release hv k')

/-! ### The walk -/

lemma steps_nodeStep (hn : n.tree.Counted r) : Steps r t (nodeStep rec x n) (nodeStep rec' x' n) := by
  have hc i : Steps r t (rec x (n.child i)) (rec' x' (n.child i)) := hrec t x x' _ hx (hn.child i)
  obtain ⟨tag, span, id, children⟩ := n
  cases tag with
  | seq =>
    have hall : Steps r t (children.forM (rec x)) (children.forM (rec' x')) :=
      .forM fun e he => hrec t x x' e hx (hn.children e he)
    cases children with
    | nil => exact (steps_line rfl rfl).seq hall
    | cons e es => exact hall
  | assign => exact (hc 1).seq (steps_store _ _)
  | index => exact steps_loadIndex _
  | const => exact steps_loadConst _
  | numArgs =>
    -- the one operand of this kind, and the prologue has pushed what it reads
    have hcou : r.usesNumArgs := (Tree.everywhere_node.mp hn).1 rfl
    have hw : t.Holds r (.mem ebp (-4)) (.mem ebp (-4)) := .fixed (Or.inr ⟨rfl, hcou⟩)
    exact steps_writeAll (.cons (writes_load hw eax) (.cons (writes_line rfl rfl)
      (.cons (writes_line rfl rfl) .nil)))
  | cond => exact steps_conditional hrec hx hn
  | and | or => exact steps_logical hrec hx hn
  | not => exact steps_negation hrec hx hn
  | loop => exact steps_loop hrec hx hn
  | doLoop => exact steps_doLoop hrec hx hn
  | protect => exact steps_protect hrec hx hn
  | ret => exact steps_returnValue hrec hx hn
  | leave => exact steps_breakOut hrec hx hn
  | proceed => exact steps_nextRound hrec hx hn
  | retry => exact steps_retry hrec hx _
  | call => exact steps_callSelf hrec hx hn
  | send => exact steps_send hrec hx hn
  | safeSend => exact steps_callSafe hrec hx hn
  | safeChain => exact steps_safeChain hrec hx hn
  | super => exact steps_callSuper hrec hx hn
  | procNew => exact steps_makeProc hrec hx hn
  | array => exact steps_makeArray hrec hx hn
  | hash => exact steps_makeHash hrec hx hn
  | method => exact steps_defineMethod hx _
  | singletonMethod => exact steps_defineSingleton hrec hx hn
  | classBody => exact steps_classBody hx _
  | singletonClass => exact steps_singletonBody hrec hx hn
  | _ => exact .fail

lemma steps_step (he : e.Counted r) : Steps r t (step rec x e) (step rec' x' e) := by
  refine .get fun s s' hf _ => ?_
  rw [hf]
  cases e with
  | absent => exact steps_line rfl rfl
  | int n => exact steps_loadInteger _
  | big text =>
    dsimp only
    split
    · exact steps_loadInteger _
    · exact .fail
  | float text => exact .fail
  | str bytes =>
    exact (same_literal _).bind_same fun _ => steps_callRuntime_outside hx.isGuarded_eq _ rfl
  | sym name => exact steps_loadSymbol hx.isGuarded_eq name
  | name name => exact steps_loadName name _
  | node tag span id children => exact steps_nodeStep hrec hx he

end

theorem steps_expr {r : Routine} {t : Tenancy} {x x' : Exits} (hx : x.Stands r t x') (he : e.Counted r) :
    Steps r t (expr x e) (expr x' e) := by
  have hs : (x, e).1.Stands r t (x', e).1 ∧ (x, e).2 = (x', e).2 ∧ (x, e).2.Counted r := ⟨hx, rfl, he⟩
  -- the bodies of `ensure` are walked again at every exit, so the walk descends on exits and tree together
  refine recurseOn_induction₂ (R := fun t (p p' : Exits × Tree) => p.1.Stands r t p'.1 ∧ p.2 = p'.2 ∧
    p.2.Counted r) ?_ ?_ ?_ hs
  · rintro t ⟨x, e⟩ ⟨x', e'⟩ ⟨hx, rfl, -⟩
    exact congrArg (· + e.size) hx.weight_eq
  · exact fun _ => .pure fun _ _ => trivial
  · rintro rec rec' hrec t ⟨x, e⟩ ⟨x', e'⟩ ⟨hx, rfl, he⟩
    exact steps_step (fun t x x' e hx he => hrec t (x, e) (x', e) ⟨hx, rfl, he⟩) hx he

lemma steps_body (r : Routine) (t : Tenancy) : Echoes r t (body r) := by
  have hc : r.body.Counted r := by
    intro n hn htag
    rw [Routine.usesNumArgs, Bool.or_eq_true]
    exact .inr (any_eq_true.mpr ⟨n.tree, hn, by simp [Tree.is, Node.tree, htag]⟩)
  have ho : Exits.Stands r t {} {} := ⟨rfl, .nil⟩
  exact (steps_expr ho hc).seq steps_epilogue

end Emit

end Garnet
