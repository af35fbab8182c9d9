import Garnet.Proofs.Closure.Closed
import Garnet.Proofs.Closure.Unit
import Mathlib.Data.List.Nodup

/-!
# The routines of a unit

Lifting a unit succeeds, and the heap frames of its routines are laid out and reached as the bodies expect.
`liftRoutines_reaches` is about the paths in a body, and `liftRoutines_closed` about its names.
-/

namespace Garnet

open List

namespace Closure

open Scopes

/-! ### A captured variable has one word -/

lemma nodup_addNew {names : List String} (h : names.Nodup) (name : String) : (addNew names name).Nodup := by
  rw [addNew]
  split
  · exact h
  · rename_i hnew
    have hname : name ∉ names := fun hmem => hnew (contains_iff_mem.mpr hmem)
    exact nodup_append.mpr ⟨h, by simp, fun a ha b hb hab => hname (mem_singleton.mp hb ▸ hab ▸ ha)⟩

namespace Scopes

variable {ss : Scopes}

lemma nodup_captured_settle (hn : ∀ i, (ss.get i).captured = []) (o : Nat) :
    (ss.settle.get o).captured.Nodup := by
  refine captureAll_induction (P := fun ss => ∀ o, (ss.get o).captured.Nodup) (fun o => ?_)
    (fun ss i name h o => ?_) (range ss.size) o
  · rw [(declares_declareAll ss (range ss.size)).kept o, hn o]
    exact nodup_nil
  · rw [captureName]
    split
    · exact h o
    · rw [get_modify]
      split
      · exact nodup_addNew (h o) name
      · exact h o

/-- The variables of scope `o` that scope `i` inside it or around it uses. -/
lemma Settled.within_of_captured (h : ss.Settled) {o : Nat} {v : String} (hv : v ∈ (ss.get o).captured) :
    ∃ i, v ∈ (ss.get i).mentioned ∧ i ≠ o ∧ ss.Within i o ∧ ss.owner? i v = some o := by
  obtain ⟨i, hm, hown, hne⟩ := (h.captured o v).mp hv
  obtain ⟨o', ho'⟩ := Option.isSome_iff_exists.mp (h.owned i v hm)
  have hw := within_ownerOf ss i v
  rw [hown] at hw
  rw [ownerOf, ho'] at hown
  exact ⟨i, hm, hne, hw, hown ▸ ho'⟩

end Scopes

/-! ### The variables of a routine -/

section

variable {ss : Scopes} (i : Nat) (body : Tree) (v : String)

lemma isParam_iff : (ss.get i).isParam v ↔ v ∈ (routine ss i body).params ∨
    (routine ss i body).rest = some v ∨ v = (routine ss i body).blockParam := by
  simp only [routine, Scope.isParam, Bool.or_eq_true, beq_iff_eq, contains_iff_mem]
  tauto

lemma mem_locals_iff : v ∈ (routine ss i body).locals ↔
    v ∈ (ss.get i).declared ∧ v ∉ (ss.get i).captured := by
  simp [routine]

lemma isSome_env_iff : (routine ss i body).env.isSome ↔ (ss.get i).frame := by
  simp only [routine]
  split <;> simp_all

lemma getD_env (h : ss.Settled) : (routine ss i body).env.getD [] = (ss.get i).captured := by
  simp only [routine]
  split
  · rfl
  · rename_i hframe
    exact (eq_nil_iff_forall_not_mem.mpr fun v hv => hframe (h.frame i v hv)).symm

lemma mem_frame_of_owns (ho : (ss.get i).owns v) (hfree : v ∉ (ss.get i).captured) :
    v ∈ (routine ss i body).params ∨ (routine ss i body).rest = some v ∨
      v = (routine ss i body).blockParam ∨ v ∈ (routine ss i body).locals := by
  rw [Scope.owns, Bool.or_eq_true, isParam_iff i body v, contains_iff_mem] at ho
  rw [mem_locals_iff]
  tauto

end

/-! ### The routines of a unit -/

section

variable {body e : Tree} (unit : String) (he : e.Everywhere Node.SingleExit)
include he

lemma nodup_captured (i : Nat) : ((analyse unit e).get i).captured.Nodup := by
  have hw := walked_scopeBodies unit he
  exact nodup_captured_settle (fun i => (hw.untreated (fun j => ⟨rfl, rfl⟩) i).2) i

lemma envSlot?_routine (i : Nat) (body : Tree) (v : String) (k : Nat) :
    (routine (analyse unit e) i body).envSlot? v = some (k + 2) ↔
      ((analyse unit e).get i).captured[k]? = some v := by
  have hframe := (settled_analyse unit he).1.frame i
  have hn := nodup_captured unit he i
  simp only [Routine.envSlot?, routine]
  generalize (analyse unit e).get i = s at hframe hn ⊢
  by_cases hs : s.frame
  · have hidx : s.captured.idxOf? v = some k ↔ s.captured[k]? = some v := by
      rw [idxOf?_eq_some_iff, getElem?_eq_some_iff]
      refine ⟨fun ⟨hlt, hget, _⟩ => ⟨hlt, hget⟩, fun ⟨hlt, hget⟩ => ⟨hlt, hget, fun j hj heq => ?_⟩⟩
      have hjk : j = k := (List.Nodup.getElem_inj_iff hn).mp (heq.trans hget.symm)
      exact absurd hjk (Nat.ne_of_lt hj)
    rw [← hidx, if_pos hs]
    simp [Option.bind_eq_some_iff]
  · rw [if_neg hs]
    constructor
    · intro h
      cases h
    · intro h
      exact absurd (hframe v (mem_of_getElem? h)) hs

lemma mem_mentioned {i : Nat} (hbody : e.scopeBodies[i]? = some body) (v : String) :
    v ∈ ((analyse unit e).get i).mentioned ↔ v ∈ body.ownNames ∧ VarName.isLocal v := by
  have hw := walked_scopeBodies unit he
  have hm := (settled_settle hw.nested (hw.untreated fun j => ⟨rfl, rfl⟩)).2.2.2 i
  have hinn := hw.inner i body hbody v
  rw [show Array.size #[] + i = i from Nat.zero_add i] at hinn
  rw [analyse_eq, hm.2, hinn]

lemma owns_iff {i : Nat} (hbody : e.scopeBodies[i]? = some body) {v : String} (hlocal : VarName.isLocal v) :
    ((analyse unit e).get i).owns v ↔ ((analyse unit e).get i).isParam v ∨ (v ∈ body.ownNames ∧
        ∀ p, ((analyse unit e).get i).outer? = some p → (analyse unit e).owner? p v = none) := by
  obtain ⟨hsettled, -, -, hn⟩ := settled_analyse unit he
  obtain ⟨hm, hass⟩ := hn i body hbody v hlocal
  have hu : (v ∈ ((analyse unit e).get i).assigned ∨ v ∈ ((analyse unit e).get i).mentioned) ↔
      v ∈ body.ownNames := ⟨fun h => h.elim hass hm.mp, fun h => .inr (hm.mpr h)⟩
  rw [Scope.owns, Bool.or_eq_true, contains_iff_mem, hsettled.declared, hu]
  cases ((analyse unit e).get i).isParam v <;> simp

lemma mem_captured (i : Nat) (v : String) : v ∈ ((analyse unit e).get i).captured ↔
    VarName.isLocal v ∧ ∃ j inner, j ≠ i ∧ e.scopeBodies[j]? = some inner ∧
      (analyse unit e).Within j i ∧ v ∈ inner.ownNames ∧ (analyse unit e).owner? j v = some i := by
  obtain ⟨hsettled, -, hs, -⟩ := settled_analyse unit he
  constructor
  · intro hv
    obtain ⟨j, hm, hne, hw, hown⟩ := hsettled.within_of_captured hv
    have hlt : j < e.scopeBodies.length := hs ▸ lt_size_of_mentioned hm
    have hbody := getElem?_eq_getElem hlt
    obtain ⟨hu, hlocal⟩ := (mem_mentioned unit he hbody v).mp hm
    exact ⟨hlocal, j, _, hne, hbody, hw, hu, hown⟩
  · rintro ⟨hlocal, j, inner, hne, hbody, -, hu, hown⟩
    refine (hsettled.captured i v).mpr ⟨j, (mem_mentioned unit he hbody v).mpr ⟨hu, hlocal⟩, ?_, hne⟩
    rw [ownerOf, hown, Option.getD_some]

end

/-- A variable that two nested blocks share with the unit; the inner one leaves the outer one with
its value. -/
def sharedVariable : Tree := .node .seq .zero 0 [.node .assign .zero 1 [.name "x", .int 1],
    .node .call .zero 2 [.name "each", .node .args .zero 3 [],
      .node .lambda .zero 4 [.node .args .zero 5 [], .node .call .zero 6 [.name "each",
        .node .args .zero 7 [], .node .lambda .zero 8 [.node .args .zero 9 [],
          .node .leave .zero 10 [.name "x"]]]]]]

lemma sharedVariable_singleExit : sharedVariable.Everywhere Node.SingleExit := by
  rintro ⟨tag, span, id, cs⟩ hn htag
  simp only [sharedVariable, Tree.subtrees, Tree.subtreesOf, Node.tree] at hn
  rcases htag with rfl | rfl | rfl
  all_goals simp at hn
  simp [hn]

lemma sharedVariable_inner : sharedVariable.scopeBodies[2]? = some (.node .leave .zero 10 [.name "x"]) := by
  have hn tag id cs := Tree.bodies_tree ⟨tag, .zero, id, cs⟩
  simp only [Node.tree] at hn
  have hname v : (Tree.name v).bodies = [] := Tree.bodies_of_node? rfl
  have hint k : (Tree.int k).bodies = [] := Tree.bodies_of_node? rfl
  simp [Tree.scopeBodies, sharedVariable, hn, hname, hint, Node.parts, Node.body?,
    Tag.calleePlace?, Node.child]

/-- **Heap frames are reached.** Lifting a unit succeeds, and gives each scope a routine. Whatever
activation of the scope runs it, the paths in its body lead to the heap frames they are meant for:
that of the owner of a captured variable, that of the method around for a `return` out of a block, and
that of the creator of the block for a `break`; and a captured variable is in the word of its owner's
heap frame that is read. -/
theorem liftRoutines_reaches (unit : String) {e : Tree} (he : e.Everywhere Node.SingleExit) (nextId : Nat) :
    ∃ rs, liftRoutines unit e nextId = .ok rs ∧ rs.length = e.scopeBodies.length ∧ ∀ i r, rs[i]? = some r →
        (r.env.isSome ↔ ((analyse unit e).get i).frame) ∧
        (∀ v k, r.envSlot? v = some (k + 2) ↔ ((analyse unit e).get i).captured[k]? = some v) ∧
        (∃ a : Activation, a.Fits (analyse unit e) ∧ a.scope = i) ∧
        ∃ body, e.scopeBodies[i]? = some body ∧
          Lifted (analyse unit e) (fun j q => rs[j]? = some q) ⟨i, 0⟩ body r.body := by
  obtain ⟨rs, hrs, hlen, hof⟩ := liftRoutines_spec unit he nextId
  refine ⟨rs, hrs, hlen, fun i r hr => ?_⟩
  obtain ⟨body, hbody, hr⟩ := hof i r hr
  refine ⟨?_, fun v k => ?_, ?_, body, hbody, hr.body⟩
  · rw [hr.eq]
    exact isSome_env_iff i r.body
  · rw [hr.eq]
    exact envSlot?_routine unit he i r.body v k
  · exact Activation.exists_fits (settled_analyse unit he).1.nested i

theorem liftRoutines_reaches_shared :
    ∃ rs, liftRoutines "__unit_0" sharedVariable 11 = .ok rs ∧ rs.length = 3 ∧
      (∀ r, rs[0]? = some r → r.envSlot? "x" = some 2) ∧
      ∀ r, rs[2]? = some r → Lifted (analyse "__unit_0" sharedVariable) (fun j q => rs[j]? = some q)
        ⟨2, 0⟩ (.node .leave .zero 10 [.name "x"]) r.body := by
  obtain ⟨rs, hrs, hlen, h⟩ := liftRoutines_reaches "__unit_0" sharedVariable_singleExit 11
  refine ⟨rs, hrs, hlen.trans (by decide +kernel), fun r hr => ?_, fun r hr => ?_⟩
  · exact ((h 0 r hr).2.1 "x" 0).mpr (by decide +kernel)
  · obtain ⟨-, -, -, body, hbody, hlifted⟩ := h 2 r hr
    exact Option.some.inj (sharedVariable_inner.symm.trans hbody) ▸ hlifted

/-- **Routines are closed.** There is a routine for each scope. A local name that its body uses is a
parameter, a variable of the stack frame, or an environment that the routine has. A scope owns its parameters, and what it uses and no
scope around owns. The variables in its heap frame are those of them that a block inside uses; they
are in no stack frame, and no body uses them by name. -/
theorem liftRoutines_closed (unit : String) {e : Tree} (he : e.Everywhere Node.SingleExit)
    {nextId : Nat} {rs : List Routine} (h : liftRoutines unit e nextId = .ok rs) :
    rs.length = e.scopeBodies.length ∧ ∀ i r body, rs[i]? = some r → e.scopeBodies[i]? = some body →
      (∀ v ∈ r.body.names true, VarName.isLocal v → v ∈ r.params ∨ r.rest = some v ∨
        v = r.blockParam ∨ v ∈ r.locals ∨ (v = ownEnv ∧ r.env.isSome) ∨ (v = parentEnv ∧ r.kind = .block)) ∧
      (∀ v, VarName.isLocal v → (((analyse unit e).get i).owns v ↔ v ∈ r.params ∨ r.rest = some v ∨
        v = r.blockParam ∨ (v ∈ body.ownNames ∧
          ∀ p, ((analyse unit e).get i).outer? = some p → (analyse unit e).owner? p v = none))) ∧
      (∀ v, v ∈ r.env.getD [] ↔ VarName.isLocal v ∧ ∃ j inner, j ≠ i ∧ e.scopeBodies[j]? = some inner ∧
        (analyse unit e).Within j i ∧ v ∈ inner.ownNames ∧ (analyse unit e).owner? j v = some i) ∧
      ∀ v ∈ r.env.getD [], ((analyse unit e).get i).owns v ∧ v ∉ r.locals ∧
        ∀ j q, rs[j]? = some q → (analyse unit e).owner? j v = some i → v ∉ q.body.names false := by
  obtain ⟨rs', hrs', hlen, hof⟩ := liftRoutines_spec unit he nextId
  obtain rfl : rs = rs' := Except.ok.inj (h.symm.trans hrs')
  have hsettled := (settled_analyse unit he).1
  refine ⟨hlen, fun i r body hr hbody => ?_⟩
  obtain ⟨_, -, hroutine⟩ := hof i r hr
  have henv : r.env.getD [] = ((analyse unit e).get i).captured := by
    rw [hroutine.eq, getD_env i r.body hsettled]
  refine ⟨fun v hv hlocal => ?_, fun v hlocal => ?_, fun v => ?_, fun v hv => ?_⟩
  · rcases hroutine.body.owned_or_env hsettled.nested hv hlocal with ⟨howner, hfree⟩ | ⟨-, hname⟩
    · have hframe := mem_frame_of_owns i r.body v (owns_of_owner? howner) hfree
      rw [← hroutine.eq] at hframe
      tauto
    · rcases hname with ⟨hv, hf⟩ | ⟨hv, hkind⟩
      · have hsome := (isSome_env_iff i r.body).mpr hf
        rw [← hroutine.eq] at hsome
        exact .inr (.inr (.inr (.inr (.inl ⟨hv, hsome⟩))))
      · have hk : r.kind = ((analyse unit e).get i).kind := congrArg Routine.kind hroutine.eq
        exact .inr (.inr (.inr (.inr (.inr ⟨hv, hk.trans hkind⟩))))
  · have hparam := @isParam_iff (analyse unit e) i r.body v
    rw [← hroutine.eq] at hparam
    rw [owns_iff unit he hbody hlocal, hparam, or_assoc, or_assoc]
  · rw [henv, mem_captured unit he]
  · rw [henv] at hv
    obtain ⟨j, -, -, -, howner⟩ := hsettled.within_of_captured hv
    refine ⟨owns_of_owner? howner, fun hmem => ?_, fun j q hq howner hbare => ?_⟩
    · rw [hroutine.eq, mem_locals_iff] at hmem
      exact hmem.2 hv
    · obtain ⟨_, -, hq⟩ := hof j q hq
      have hlocal := ((mem_captured unit he i v).mp hv).1
      -- a body has as a value only a variable that its own scope owns
      rcases hq.body.owned_or_env hsettled.nested hbare hlocal with ⟨hself, hfree⟩ | ⟨hnot, -⟩
      · obtain rfl : i = j := Option.some.inj (howner.symm.trans hself)
        exact hfree hv
      · cases hnot

theorem liftRoutines_closed_shared : ∃ rs r q, liftRoutines "__unit_0" sharedVariable 11 = .ok rs ∧
    rs[0]? = some r ∧ rs[2]? = some q ∧ "x" ∈ r.env.getD [] ∧ "x" ∉ r.locals ∧ "x" ∉ q.body.names false := by
  obtain ⟨rs, hrs, -, -⟩ := liftRoutines_spec "__unit_0" sharedVariable_singleExit 11
  obtain ⟨hlen, h⟩ := liftRoutines_closed "__unit_0" sharedVariable_singleExit hrs
  have hthree : rs.length = 3 := hlen.trans (by decide +kernel)
  have hr := getElem?_eq_getElem (l := rs) (i := 0) (by omega)
  have hq := getElem?_eq_getElem (l := rs) (i := 2) (by omega)
  obtain ⟨-, -, hshared, hcaptured⟩ := h 0 _ sharedVariable hr rfl
  have hx : "x" ∈ (rs.get ⟨0, by omega⟩).env.getD [] :=
    (hshared "x").mpr ⟨by decide, 2, .node .leave .zero 10 [.name "x"], by decide, sharedVariable_inner,
      .step (p := 1) (by decide +kernel) (.step (p := 0) (by decide +kernel) (.refl 0)),
      by decide +kernel, by decide +kernel⟩
  obtain ⟨-, hlocals, hbare⟩ := hcaptured "x" hx
  exact ⟨rs, _, _, hrs, hr, hq, hx, hlocals, hbare 2 _ hq (by decide +kernel)⟩

/-- A variable that a block uses and does not take belongs to the scope around that owns it, whose heap frame
it is in, and to the block only if none does. -/
theorem owner?_block (unit : String) {e body : Tree} (he : e.Everywhere Node.SingleExit) {i p : Nat} {v : String}
    (hbody : e.scopeBodies[i]? = some body) (hp : ((analyse unit e).get i).outer? = some p)
    (hlocal : VarName.isLocal v) (hu : v ∈ body.ownNames) (hv : ((analyse unit e).get i).isParam v = false) :
    (∀ j, (analyse unit e).owner? p v = some j →
      (analyse unit e).owner? i v = some j ∧ v ∈ ((analyse unit e).get j).captured) ∧
    ((analyse unit e).owner? p v = none → (analyse unit e).owner? i v = some i) := by
  obtain ⟨hsettled, -⟩ := settled_analyse unit he
  have howns := owns_iff unit he hbody hlocal
  have howner : (analyse unit e).owner? i v =
      (if ((analyse unit e).get i).owns v then some i else none).or ((analyse unit e).owner? p v) := by
    rw [owner?, searchOut_eq hsettled.nested, hp]
    rfl
  refine ⟨fun j hj => ?_, fun hnone => ?_⟩
  · have hnot : ¬((analyse unit e).get i).owns v := by simp [howns, hv, hp, hj]
    rw [if_neg hnot, hj] at howner
    refine ⟨howner, (hsettled.captured j v).mpr ⟨i, (mem_mentioned unit he hbody v).mpr ⟨hu, hlocal⟩, ?_, ?_⟩⟩
    · rw [ownerOf, howner]
      rfl
    · rintro rfl
      exact hnot (owns_of_owner? howner)
  · rw [howner, if_pos (howns.mpr (.inr ⟨hu, fun q hq => Option.some.inj (hp.symm.trans hq) ▸ hnone⟩))]
    rfl

theorem owner?_block_shared : (analyse "__unit_0" sharedVariable).owner? 2 "x" = some 0 ∧
    "x" ∈ ((analyse "__unit_0" sharedVariable).get 0).captured :=
  (owner?_block "__unit_0" sharedVariable_singleExit sharedVariable_inner (p := 1) (by decide +kernel) (by decide)
    (by decide +kernel) (by decide +kernel)).1 0 (by decide +kernel)

end Closure

end Garnet
