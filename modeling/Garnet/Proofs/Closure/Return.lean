import Garnet.Proofs.Closure.Closed
import Garnet.Proofs.Closure.Unit

/-!
# Where `return` goes

A `return` leaves the nearest strict block around it, or the method if there is none in between
(`Scopes.returnTarget`): so it is in a strict block itself. A block that is not strict returns to the method
instead, past every strict block on the way. The main statement is `return_leaves_iff`.
-/

namespace Garnet

namespace Closure

namespace Scopes

variable {ss : Scopes} {i : Nat}

/-- The nearest strict block that a scope is or stands in, or else the method. -/
def returnTarget (ss : Scopes) (i : Nat) : Nat :=
  (ss.searchOut (fun j s => if s.strict || s.outer?.isNone then some j else none) i).getD i

/-- No block around a place of the scope is strict. -/
def Lenient (ss : Scopes) (i : Nat) : Prop :=
  ∀ j, ss.Within i j → (ss.get j).outer?.isSome → (ss.get j).strict = false

lemma returnTarget_of_strict (hn : ss.Nested) (h : (ss.get i).strict || (ss.get i).outer?.isNone) :
    ss.returnTarget i = i := by
  rw [returnTarget, searchOut_eq hn, if_pos h]
  rfl

lemma getD_searchOut_of_outer? (hn : ss.Nested) {t : Scope → Bool} {p : Nat}
    (ht : ∀ s : Scope, s.outer? = none → t s) (hp : (ss.get i).outer? = some p)
    (hi : t (ss.get i) = false) :
    (ss.searchOut (fun j s => if t s then some j else none) i).getD i =
      (ss.searchOut (fun j s => if t s then some j else none) p).getD p := by
  obtain ⟨hw, hm⟩ := within_methodOf hn p
  obtain ⟨j, a, hs, -⟩ := searchOut_of_within (f := fun j s => if t s then some j else none) hn hw
    (by rw [ht _ hm]; rfl)
  rw [searchOut_eq hn, hi, hp, Option.bind_some, hs]
  rfl

lemma methodOf_eq_returnTarget_iff (hn : ss.Nested) (i : Nat) :
    ss.methodOf i = ss.returnTarget i ↔ ss.Lenient i := by
  induction i using Nat.strongRecOn with
  | ind i ih =>
    cases hp : (ss.get i).outer? with
    | none =>
      rw [returnTarget_of_strict hn (by simp [hp]), methodOf, searchOut_eq hn, hp]
      refine ⟨fun _ j hj hso => ?_, fun _ => rfl⟩
      cases hj with
      | refl => simp [hp] at hso
      | step ho _ => cases hp.symm.trans ho
    | some p =>
      have hlt := hn.lt_of_outer? hp
      have hmethod : ss.methodOf i = ss.methodOf p :=
        getD_searchOut_of_outer? hn (t := fun s => s.outer?.isNone) (by simp) hp (by simp [hp])
      cases hstrict : (ss.get i).strict with
      | true =>
        rw [returnTarget_of_strict hn (by simp [hstrict]), hmethod]
        constructor
        · intro h
          have hle := hn.le_of_within (within_methodOf hn p).1
          omega
        · intro h
          have hf := h i (.refl i) (by simp [hp])
          cases hstrict.symm.trans hf
      | false =>
        have htarget : ss.returnTarget i = ss.returnTarget p :=
          getD_searchOut_of_outer? hn (t := fun s => s.strict || s.outer?.isNone)
            (fun s hs => by simp [hs]) hp (by simp [hp, hstrict])
        rw [hmethod, htarget, ih p hlt]
        constructor
        · intro h j hj
          cases hj with
          | refl => exact fun _ => hstrict
          | step ho hw =>
            cases hp.symm.trans ho
            exact h j hw
        · exact fun h j hj => h j (.step hp hj)

end Scopes

lemma Reaches.eq {ss : Scopes} (hn : ss.Nested) {i j k : Nat} {path : Tree} (hj : Reaches ss i path j)
    (hk : Reaches ss i path k) : j = k := by
  obtain ⟨a, ha, hs⟩ := Activation.exists_fits hn i
  obtain ⟨b, hb, heva⟩ := hj.2 a ha hs
  obtain ⟨c, hc, hev⟩ := hk.2 a ha hs
  cases heva.symm.trans hev
  exact (Activation.scope_of_around hb).symm.trans (Activation.scope_of_around hc)

lemma Lifted.of_ret {ss : Scopes} {T : Nat → Routine → Prop} {p : Place} {n : Node} {e : Tree}
    (htag : n.tag = .ret) (h : Lifted ss T p n.tree e) :
    (∃ value, e = n.rebuild [value] ∧ p.leavesBlock ss = false) ∨
      ∃ value path, e = n.rebuild [value, path] ∧ Reaches ss p.scope path (ss.methodOf p.scope) := by
  have hinj {m : Node} (h : n.tree = m.tree) : n = m := by
    obtain ⟨_, _, _, _⟩ := n
    cases h
    rfl
  generalize ht : n.tree = t at h
  cases h with
  | literal hn =>
    subst ht
    cases hn
  | bare | word => cases ht
  | ret _ _ hstays =>
    cases hinj ht
    exact .inl ⟨_, rfl, hstays⟩
  | retOut _ _ _ hpath =>
    cases hinj ht
    exact .inr ⟨_, _, rfl, hpath⟩
  | _ =>
    cases hinj ht
    simp_all [Tag.isUniform, Tag.calleePlace?]

/-- **Where `return` goes.** A `return` in a method or a strict block leaves that; in any other block its
operand leads to the heap frame of the method. This is the frame of the nearest strict block or method
exactly if no block on the way out is strict. -/
theorem return_leaves_iff (unit : String) {e : Tree} (he : e.Everywhere Node.SingleExit) (nextId : Nat) :
    ∃ rs, liftRoutines unit e nextId = .ok rs ∧ rs.length = e.scopeBodies.length ∧ ∀ i r, rs[i]? = some r →
      ∃ body, e.scopeBodies[i]? = some body ∧
        Lifted (analyse unit e) (fun j q => rs[j]? = some q) ⟨i, 0⟩ body r.body ∧
        ∀ (p : Place) (n : Node) e', p.scope = i → n.tag = .ret →
          Lifted (analyse unit e) (fun j q => rs[j]? = some q) p n.tree e' →
          (∃ value, e' = n.rebuild [value] ∧ i = (analyse unit e).returnTarget i) ∨
          ∃ value path, e' = n.rebuild [value, path] ∧
            Reaches (analyse unit e) i path ((analyse unit e).methodOf i) ∧
            (Reaches (analyse unit e) i path ((analyse unit e).returnTarget i) ↔
              (analyse unit e).Lenient i) := by
  obtain ⟨rs, hrs, hlen, hof⟩ := liftRoutines_spec unit he nextId
  have hn := (settled_analyse unit he).1.nested
  refine ⟨rs, hrs, hlen, fun i r hr => ?_⟩
  obtain ⟨body, hbody, hroutine⟩ := hof i r hr
  refine ⟨body, hbody, hroutine.body, ?_⟩
  rintro p n e' rfl htag hlifted
  rcases hlifted.of_ret htag with ⟨value, he', hstays⟩ | ⟨value, path, he', hpath⟩
  · refine .inl ⟨value, he', (Scopes.returnTarget_of_strict hn ?_).symm⟩
    rw [Place.leavesBlock, Bool.and_eq_false_iff] at hstays
    rcases hstays with hkind | hstrict
    · simp [Scope.outer?, of_decide_eq_false hkind]
    · rw [Bool.not_eq_false'] at hstrict
      simp [hstrict]
  · refine .inr ⟨value, path, he', hpath, ?_⟩
    rw [← Scopes.methodOf_eq_returnTarget_iff hn]
    exact ⟨fun h => hpath.eq hn h, fun h => h ▸ hpath⟩

/-- A method that gives a block to the method `taker`, and returns from a block in that. -/
def returnsWithin (taker : String) : Tree :=
  .node .seq .zero 0 [.node .method .zero 1 [.name "m", .name "__method_Object_m", .name "static",
    .node .args .zero 2 [], .node .call .zero 3 [.name taker, .node .args .zero 4 [],
      .node .lambda .zero 5 [.node .args .zero 6 [], .node .call .zero 7 [.name "each", .node .args .zero 8 [],
        .node .lambda .zero 9 [.node .args .zero 10 [.name "x"], .node .ret .zero 11 [.name "x"]]]]]]]

lemma returnsWithin_singleExit (taker : String) : (returnsWithin taker).Everywhere Node.SingleExit := by
  rintro ⟨tag, span, id, cs⟩ hn htag
  simp only [returnsWithin, Tree.subtrees, Tree.subtreesOf, Node.tree] at hn
  rcases htag with rfl | rfl | rfl <;> simp at hn
  simp [hn]

/-- Out of two blocks that are not strict, a `return` leads to the method. -/
theorem return_leaves_iff_nested : ∃ rs r, liftRoutines "u" (returnsWithin "each") 12 = .ok rs ∧
    rs[3]? = some r ∧ ∀ e', Lifted (analyse "u" (returnsWithin "each")) (fun j q => rs[j]? = some q) ⟨3, 0⟩
      (.node .ret .zero 11 [.name "x"]) e' → ∃ value path, e' = .node .ret .zero 11 [value, path] ∧
        Reaches (analyse "u" (returnsWithin "each")) 3 path 1 := by
  obtain ⟨rs, hrs, hlen, h⟩ := return_leaves_iff "u" (returnsWithin_singleExit "each") 12
  have hfour : rs.length = 4 := hlen.trans (by decide +kernel)
  have hr := List.getElem?_eq_getElem (l := rs) (i := 3) (by omega)
  refine ⟨rs, _, hrs, hr, fun e' he' => ?_⟩
  obtain ⟨_, -, -, hret⟩ := h 3 _ hr
  have hmethod : (analyse "u" (returnsWithin "each")).methodOf 3 = 1 := by decide +kernel
  have htarget : (analyse "u" (returnsWithin "each")).returnTarget 3 = 1 := by decide +kernel
  rcases hret ⟨3, 0⟩ ⟨.ret, .zero, 11, [.name "x"]⟩ e' rfl rfl he' with ⟨_, -, hself⟩ | ⟨value, path, rfl, hpath, -⟩
  · cases hself.trans htarget
  · exact ⟨value, path, rfl, hmethod ▸ hpath⟩

/-- Where one of the blocks is strict, the `return` goes past it: the strict block has no frame to go to. -/
theorem return_passes_lambda : (analyse "u" (returnsWithin "lambda")).returnTarget 3 = 2 ∧
      (analyse "u" (returnsWithin "lambda")).methodOf 3 = 1 ∧
      ((analyse "u" (returnsWithin "lambda")).get 2).frame = false := by
  decide +kernel

end Closure

end Garnet
