import Garnet.Proofs.Closure.Lifted
import Garnet.Proofs.Closure.Ownership

/-!
# The two walks in lockstep

The walk that finds the scopes and the walk that lifts them go over the same trees in the same order, so the
second one takes the scope that the first one opened there. `InStep` relates a step of each: if the scopes that
the first one leaves only gain facts later, the second one succeeds, takes as many scopes as the first one opened,
and makes the routines of exactly these. The first walk opens each scope for its node (`Scope.IsOf`), and gives no
number of a place that `break` goes to twice. The walks are in step on every tree whose ways out have one value at
most (`inStep_recurse`), since the second one goes over the first child of these only.
-/

namespace Garnet

open List Array

/-- The label of the scope that a node opens, if it is scope `k` of the unit. -/
def Node.scopeLabel (unit : String) (k : Nat) (n : Node) : String := match n.tag with
  | .lambda => unit ++ "_block_" ++ Numeral.decimal k
  | .singletonClass => unit ++ "_sclass_" ++ Numeral.decimal k
  | .method => (n.name? 1).getD ""
  | .singletonMethod => (n.name? 2).getD ""
  | _ => Closure.classBodyLabel (n.child 0) (n.child 1)

/-- What the scope that a node opens is a scope of, and the parameters of the node. -/
def Node.scopeKind (n : Node) : RoutineKind × Tree := match n.tag with
  | .lambda => (.block, n.child 0)
  | .method | .singletonMethod => (.method, n.child 3)
  | _ => (.classBody, .absent)

namespace Closure

open Scopes (get_modify get_push)

variable {n : Nat} {recL : Site → Tree → Lift Tree} {body : Tree} {v : String} {sc : Scope}

/-! ### The first walk -/

/-- What the first walk does in scope `scope` to the scopes, on trees in which the bodies `bs` are
opened and that use the names `names`. -/
structure Walked (scope : Nat) (bs : List Tree) (names : List String) (a b : Scopes) : Prop where
  grows : a.Grows b
  nested : b.Nested
  size : b.size = a.size + bs.length
  untreated : (∀ j, (a.get j).declared = [] ∧ (a.get j).captured = []) →
    ∀ j, (b.get j).declared = [] ∧ (b.get j).captured = []
  assigned : ∀ j v, v ∈ (b.get j).assigned → VarName.isLocal v →
    v ∈ (a.get j).assigned ∨ v ∈ (b.get j).mentioned
  mentioned : ∀ j < a.size, ∀ v, v ∈ (b.get j).mentioned ↔
    v ∈ (a.get j).mentioned ∨ j = scope ∧ v ∈ names ∧ VarName.isLocal v
  inner : ∀ k body, bs[k]? = some body → ∀ v,
    v ∈ (b.get (a.size + k)).mentioned ↔ v ∈ body.ownNames ∧ VarName.isLocal v

namespace Walked

variable {scope : Nat} {bs bs' : List Tree} {names names' : List String} {a b c : Scopes}

lemma refl (scope : Nat) (h : a.Nested) : Walked scope [] [] a a where
  grows := .refl a
  nested := h
  size := rfl
  untreated := id
  assigned := fun j v hv _ => .inl hv
  mentioned := fun j _ v => by simp
  inner := fun k body hk => by cases hk

lemma trans (h : Walked scope bs names a b) (h' : Walked scope bs' names' b c)
    (hs : scope < a.size) : Walked scope (bs ++ bs') (names ++ names') a c where
  grows := h.grows.trans h'.grows
  nested := h'.nested
  size := by rw [h'.size, h.size, length_append, Nat.add_assoc]
  untreated := fun ha => h'.untreated (h.untreated ha)
  assigned := by
    intro j v hv hl
    rcases h'.assigned j v hv hl with hv | hv
    · refine (h.assigned j v hv hl).imp id fun hm => ?_
      exact (h'.grows.get j (Scopes.lt_size_of_mentioned hm)).mentioned hm
    · exact .inr hv
  mentioned := by
    intro j hj v
    rw [h'.mentioned j (by have := h.size; omega), h.mentioned j hj, List.mem_append]
    tauto
  inner := by
    intro k body hk v
    rw [List.getElem?_append] at hk
    split at hk
    · rename_i hlt
      have hne : a.size + k ≠ scope := by omega
      rw [h'.mentioned (a.size + k) (by have := h.size; omega), h.inner k body hk]
      simp [hne]
    · rename_i hge
      have hk' := h'.inner (k - bs.length) body hk v
      have hidx : b.size + (k - bs.length) = a.size + k := by
        have := h.size
        omega
      rwa [hidx] at hk'

lemma of_modify (ha : a.Nested) {i : Nat} {f : Scope → Scope} (hf : (a.get i).Grows (f (a.get i)))
    (has : ∀ s, (f s).assigned = s.assigned)
    (hm : ∀ s v, v ∈ (f s).mentioned ↔ v ∈ s.mentioned ∨ v ∈ names ∧ VarName.isLocal v)
    (hi : ∀ v ∈ names, i = scope) (hd : ∀ s, (f s).declared = s.declared ∧ (f s).captured = s.captured) :
    Walked scope [] names a (a.modify i f) where
  grows := .modify hf
  nested := ha.of_grows (Scopes.rel_get_modify .refl hf)
  size := size_modify ..
  untreated := by
    intro h j
    rw [get_modify]
    split
    · rw [(hd _).1, (hd _).2]
      exact h j
    · exact h j
  assigned := by
    intro j v hv _
    rw [get_modify] at hv
    split at hv
    · rw [has] at hv
      exact .inl hv
    · exact .inl hv
  mentioned := by
    intro j hj v
    rw [get_modify]
    split
    · rename_i hij
      obtain ⟨rfl, -⟩ := hij
      rw [hm]
      exact or_congr_right ⟨fun h => ⟨hi v h.1, h⟩, fun h => h.2⟩
    · rename_i hij
      refine ⟨.inl, fun h => h.elim id fun ⟨hs, hv, _⟩ => absurd ⟨?_, hj⟩ hij⟩
      exact (hi v hv).trans hs.symm
  inner := fun k body hk => by cases hk

lemma noting {v : String} (hs : scope < a.size) (hv : VarName.isLocal v → v ∈ names)
    (h : Walked scope bs names (a.modify scope fun s => { s with assigned := addNew s.assigned v }) b) :
    Walked scope bs names a b where
  grows := .trans (.modify { Scope.Grows.refl _ with assigned := subset_addNew _ _ })
    h.grows
  nested := h.nested
  size := by rw [h.size, size_modify]
  untreated := by
    intro ha
    refine h.untreated fun j => ?_
    rw [get_modify]
    split <;> exact ha j
  assigned := by
    intro j u hu hl
    rcases h.assigned j u hu hl with hu | hu
    · rw [get_modify] at hu
      split at hu
      · rename_i hj
        obtain ⟨rfl, -⟩ := hj
        rcases mem_addNew.mp hu with hu | rfl
        · exact .inl hu
        · exact .inr ((h.mentioned scope (by rwa [size_modify]) u).mpr (.inr ⟨rfl, hv hl, hl⟩))
      · exact .inl hu
    · exact .inr hu
  mentioned := by
    intro j hj u
    rw [h.mentioned j (by rwa [size_modify]), get_modify]
    split <;> rfl
  inner := by
    intro k body hk u
    have hi := h.inner k body hk u
    rwa [size_modify] at hi

end Walked

/-- The scope was opened for the node, as scope `k` of the unit. -/
structure Scope.IsOf (s : Scope) (unit : String) (k : Nat) (outer : Option Nat) (n : Node) : Prop where
  isFor : s.IsFor n.scopeKind.1 outer n.scopeKind.2
  label : s.label = n.scopeLabel unit k
  span : s.span = n.span

lemma Scope.IsOf.of_opened {s s' : Scope} {unit : String} {k : Nat} {outer : Option Nat} {n : Node}
    (h : s.IsOf unit k outer n) (ho : s'.opened = s.opened) : s'.IsOf unit k outer n where
  isFor := .of_opened (ho ▸ ⟨h.isFor.kind, h.isFor.parent, h.isFor.params, h.isFor.rest, h.isFor.blockParam⟩)
  label := (congrArg Scope.label ho).trans h.label
  span := (congrArg Scope.span ho).trans h.span

/-- Each number of a place that `break` goes to belongs to one block. -/
structure Found.Numbered (f : Found) : Prop where
  lt : ∀ {i b}, (f.scopes.get i).breakId = some b → b < f.breaks
  unique : ∀ {i j b}, (f.scopes.get i).breakId = some b → (f.scopes.get j).breakId = some b → i = j

namespace Found.Numbered

variable {f g : Found}

lemma mono (h : f.Numbered) (hb : g.breaks = f.breaks)
    (hget : ∀ i b, (g.scopes.get i).breakId = some b → (f.scopes.get i).breakId = some b) : g.Numbered :=
  ⟨fun hi => hb ▸ h.lt (hget _ _ hi), fun hi hj => h.unique (hget _ _ hi) (hget _ _ hj)⟩

lemma modify (hf : f.Numbered) (i : Nat) {h : Scope → Scope} (hh : ∀ s, (h s).breakId = s.breakId) :
    Numbered { f with scopes := f.scopes.modify i h } := by
  refine hf.mono rfl fun j b hj => ?_
  rw [get_modify] at hj
  split at hj
  · rwa [hh] at hj
  · exact hj

lemma number (h : f.Numbered) (i : Nat) : Numbered { f with
    scopes := f.scopes.modify i fun s => { s with breakId := some f.breaks }, breaks := f.breaks + 1 } := by
  have hget {j b} (hj : (Scopes.get (f.scopes.modify i fun s =>
      { s with breakId := some f.breaks }) j).breakId = some b) :
      j = i ∧ b = f.breaks ∨ (f.scopes.get j).breakId = some b := by
    rw [get_modify] at hj
    split at hj
    · rename_i hij
      exact .inl ⟨hij.1.symm, (Option.some.inj hj).symm⟩
    · exact .inr hj
  refine ⟨fun {j b} hj => ?_, fun {j k b} hj hk => ?_⟩
  · change b < f.breaks + 1
    rcases hget hj with ⟨-, rfl⟩ | hj
    · omega
    · exact Nat.lt_succ_of_lt (h.lt hj)
  · rcases hget hj with ⟨hji, hb⟩ | hj' <;> rcases hget hk with ⟨hki, hb'⟩ | hk'
    · exact hji.trans hki.symm
    · exact absurd (h.lt hk') (by omega)
    · exact absurd (h.lt hj') (by omega)
    · exact h.unique hj' hk'

lemma push (hf : f.Numbered) (hsc : sc.opened = sc) : Numbered { f with scopes := f.scopes.push sc } := by
  refine hf.mono rfl fun j b hj => ?_
  rw [get_push] at hj
  split at hj
  · rw [← hsc] at hj
    cases hj
  · exact hj

end Found.Numbered

/-- What the first walk does in scope `scope`, on trees in which scopes are opened at the nodes `ns` and that
use the names `names`. -/
structure Walks (unit : String) (scope : Nat) (ns : List Node) (names : List String) (f g : Found) : Prop
    extends Walked scope (ns.map Node.body) names f.scopes g.scopes where
  opens : ∀ k n, ns[k]? = some n →
    ∃ outer, (g.scopes.get (f.scopes.size + k)).IsOf unit (f.scopes.size + k) outer n
  numbered : f.Numbered → g.Numbered

namespace Walks

variable {unit : String} {scope : Nat} {ns ns' : List Node} {names names' : List String} {f g k : Found}

lemma still (h : Walked scope [] names f.scopes g.scopes) (hn : f.Numbered → g.Numbered) :
    Walks unit scope [] names f g := ⟨h, (fun _ _ hk => by cases hk), hn⟩

lemma refl (scope : Nat) (h : f.scopes.Nested) : Walks unit scope [] [] f f := .still (.refl scope h) id

lemma trans (h : Walks unit scope ns names f g) (h' : Walks unit scope ns' names' g k)
    (hs : scope < f.scopes.size) : Walks unit scope (ns ++ ns') (names ++ names') f k := by
  have hsi : g.scopes.size = f.scopes.size + ns.length := by rw [h.size, length_map]
  refine ⟨?_, fun i n hn => ?_, fun hf => h'.numbered (h.numbered hf)⟩
  · rw [List.map_append]
    exact h.toWalked.trans h'.toWalked hs
  · rw [List.getElem?_append] at hn
    split at hn
    · obtain ⟨outer, ho⟩ := h.opens i n hn
      exact ⟨outer, ho.of_opened (h'.grows.get _ (by omega)).opened⟩
    · have ho := h'.opens (i - ns.length) n hn
      rwa [show g.scopes.size + (i - ns.length) = f.scopes.size + i by omega] at ho

end Walks

/-! ### Both walks -/

section

variable {β : Type} (ss : Scopes) (T : Nat → Routine → Prop) (unit : String)

/-- A step of the second walk succeeds, takes a scope for each of the bodies `bs`, beginning with
scope `n`, and makes the routines of these. If the table has them, the result satisfies `Q`. -/
def Lifts (n : Nat) (bs : List Tree) (l : Lift β) (Q : β → Prop) : Prop :=
  ∀ s : Lifting, s.nextScope = n → ∃ b s' new, l s = .ok b s' ∧ s'.nextScope = n + bs.length ∧
    s'.routines = new ++ s.routines ∧ (new.map Prod.fst).Perm (range' n bs.length) ∧
    ((∀ q ∈ new, T q.1 q.2) → Q b ∧ ∀ q ∈ new, ∃ body, bs[q.1 - n]? = some body ∧ RoutineOf ss T q.1 body q.2)

/-- A step of the first walk and one of the second walk, over trees in which scopes are opened at the nodes
`ns` and that use the names `names`. -/
def InStep (scope : Nat) (w : Walk Unit) (l : Lift β) (ns : List Node) (names : List String) (Q : β → Prop) :
    Prop :=
  ∀ f : Found, scope < f.scopes.size → f.scopes.Nested → Walks unit scope ns names f (w.run f).2 ∧
      ((w.run f).2.scopes.Grows ss → Lifts ss T f.scopes.size (ns.map Node.body) l Q)

end

variable {ss : Scopes} {T : Nat → Routine → Prop} {unit : String} {bs : List Tree}

lemma Lifts.mono {β : Type} {l : Lift β} {Q Q' : β → Prop} (h : Lifts ss T n bs l Q)
    (hQ : ∀ b, Q b → Q' b) : Lifts ss T n bs l Q' := by
  intro s hs
  obtain ⟨b, s', new, hl, hn, hr, hp, hnew⟩ := h s hs
  refine ⟨b, s', new, hl, hn, hr, hp, fun hT => ?_⟩
  obtain ⟨hb, hq⟩ := hnew hT
  exact ⟨hQ b hb, hq⟩

lemma Lifts.pure {β : Type} {b : β} {Q : β → Prop} (h : Q b) : Lifts ss T n [] (pure b) Q := by
  intro s hs
  exact ⟨b, s, [], rfl, hs, rfl, .nil, fun _ => ⟨h, fun q hq => by cases hq⟩⟩

lemma Lifts.of_sameWork {β : Type} {l : Lift β} {Q : β → Prop}
    (h : ∀ s, ∃ b s', l s = .ok b s' ∧ s.SameWork s' ∧ Q b) : Lifts ss T n [] l Q := by
  intro s hs
  obtain ⟨b, s', hl, ⟨hn, hr⟩, hQ⟩ := h s
  exact ⟨b, s', [], hl, hn.trans hs, hr, .nil, fun _ => ⟨hQ, fun q hq => by cases hq⟩⟩

lemma Lifts.bind {β γ : Type} {bs' : List Tree} {l : Lift β} {k : β → Lift γ} {Q : β → Prop}
    {Q' : γ → Prop} (h : Lifts ss T n bs l Q)
    (h' : ∀ b, Lifts ss T (n + bs.length) bs' (k b) fun c => Q b → Q' c) :
    Lifts ss T n (bs ++ bs') (l >>= k) Q' := by
  intro s hs
  obtain ⟨b, s', new, hl, hn, hrou, hp, hnew⟩ := h s hs
  obtain ⟨c, s'', new', hk, hn', hr', hp', hnew'⟩ := h' b s' hn
  refine ⟨c, s'', new' ++ new, bind_eq_ok.mpr ⟨b, s', hl, hk⟩, ?_, ?_, ?_, fun hT => ?_⟩
  · rw [hn', length_append, Nat.add_assoc]
  · rw [hr', hrou, List.append_assoc]
  · rw [List.map_append, length_append, List.range'_append_1.symm]
    exact (hp'.append hp).trans perm_append_comm
  · obtain ⟨hQ, hq⟩ := hnew fun q hq => hT q (mem_append_right new' hq)
    obtain ⟨hQ', hq'⟩ := hnew' fun q hq => hT q (mem_append_left new hq)
    refine ⟨hQ' hQ, fun q hmem => ?_⟩
    rcases mem_append.mp hmem with hmem | hmem
    · obtain ⟨body, hb, hof⟩ := hq' q hmem
      have hge : n + bs.length ≤ q.1 := by
        have hr := hp'.mem_iff.mp (mem_map_of_mem hmem)
        rw [List.mem_range'_1] at hr
        exact hr.1
      refine ⟨body, ?_, hof⟩
      rw [List.getElem?_append_right (by omega)]
      rwa [show q.1 - n - bs.length = q.1 - (n + bs.length) by omega]
    · obtain ⟨body, hb, hof⟩ := hq q hmem
      have hlt : q.1 - n < bs.length := by
        by_contra hge
        rw [List.getElem?_eq_none (by omega)] at hb
        cases hb
      exact ⟨body, by rw [List.getElem?_append_left hlt, hb], hof⟩

namespace InStep

variable {β γ : Type} {scope : Nat} {w w' : Walk Unit} {l : Lift β} {k : β → Lift γ}
  {ns ns' : List Node} {names names' : List String} {Q : β → Prop} {Q' : γ → Prop}

lemma mono {Q' : β → Prop} (h : InStep ss T unit scope w l ns names Q) (hQ : ∀ b, Q b → Q' b) :
    InStep ss T unit scope w l ns names Q' :=
  fun f hf hn => ⟨(h f hf hn).1, fun hg => ((h f hf hn).2 hg).mono hQ⟩

lemma pure {b : β} (h : Q b) : InStep ss T unit scope (pure ()) (pure b) [] [] Q :=
  fun _ _ hn => ⟨.refl scope hn, fun _ => .pure h⟩

lemma bind [Inhabited β] (h : InStep ss T unit scope w l ns names Q)
    (h' : ∀ b, InStep ss T unit scope w' (k b) ns' names' fun c => Q b → Q' c) :
    InStep ss T unit scope (w >>= fun _ => w') (l >>= k) (ns ++ ns') (names ++ names') Q' := by
  intro f hf hn
  obtain ⟨hw, hl⟩ := h f hf hn
  have hf' : scope < (w.run f).2.scopes.size := Nat.lt_of_lt_of_le hf hw.grows.size
  have hr b := h' b (w.run f).2 hf' hw.nested
  -- what the second walk gave does not matter for the rest of the first one
  have hw' := (hr default).1
  refine ⟨hw.trans hw' hf, fun hg => ?_⟩
  rw [List.map_append]
  refine (hl (hw'.grows.trans hg)).bind fun b => ?_
  rw [← hw.size]
  exact (hr b).2 hg

lemma noting (hv : VarName.isLocal v → v ∈ names) (h : InStep ss T unit scope w l ns names Q) :
    InStep ss T unit scope (noteAssigned scope v >>= fun _ => w) l ns names Q := by
  intro f hf hn
  let noted : Scopes := f.scopes.modify scope fun s => { s with assigned := addNew s.assigned v }
  have hs : noted.size = f.scopes.size := Array.size_modify ..
  have hnes : noted.Nested := by
    refine hn.of_grows (Scopes.rel_get_modify .refl ?_)
    exact { Scope.Grows.refl _ with assigned := subset_addNew _ _ }
  obtain ⟨hw, hli⟩ := h { f with scopes := noted } (hs.symm ▸ hf) hnes
  have ho := hw.opens
  rw [show size (Found.scopes { f with scopes := noted }) = f.scopes.size from hs] at ho hli
  exact ⟨⟨hw.toWalked.noting hf hv, ho, fun hf => hw.numbered (hf.modify scope fun _ => rfl)⟩, hli⟩

lemma thenLift (h : InStep ss T unit scope w l ns names Q)
    (h' : ∀ b n, Lifts ss T n [] (k b) fun c => Q b → Q' c) :
    InStep ss T unit scope w (l >>= k) ns names Q' := by
  intro f hf hn
  obtain ⟨hw, hl⟩ := h f hf hn
  refine ⟨hw, fun hg => ?_⟩
  rw [← append_nil (ns.map _)]
  exact (hl hg).bind fun b => h' b _

lemma each {recW : Tree → Walk Unit} {recL : Tree → Lift Tree} {R : Tree → Tree → Prop}
    {cs : List Tree} (h : ∀ c ∈ cs, InStep ss T unit scope (recW c) (recL c) c.openers c.ownNames (R c)) :
    InStep ss T unit scope (cs.forM recW) (cs.mapM recL) (cs.flatMap Tree.openers)
      (cs.flatMap Tree.ownNames) (List.Forall₂ R cs) := by
  induction cs with
  | nil => exact .pure .nil
  | cons c cs ih =>
    rw [mapM_cons]
    refine (h c mem_cons_self).bind fun c' => ?_
    exact (ih fun d hd => h d (mem_cons_of_mem c hd)).thenLift fun cs' n => .pure fun hcs hc => .cons hc hcs

end InStep

/-! ### Scopes -/

lemma Scopes.Nested.push {a : Scopes} (ha : a.Nested) {scope : Nat} (hs : scope < a.size)
    (hsc : (sc.kind = .block ∧ sc.parent = some scope) ∨ (sc.kind ≠ .block ∧ sc.parent = none)) :
    Scopes.Nested (a.push sc) := by
  intro j
  rw [get_push]
  split
  · rename_i hj
    subst hj
    exact hsc.imp (fun h => ⟨h.1, scope, hs, h.2⟩) id
  · exact ha j

lemma Walked.opened {scope : Nat} {a b : Scopes} (hsc : sc.opened = sc)
    (h : Walked a.size bs body.ownNames (a.push sc) b) : Walked scope (body :: bs) [] a b where
  grows := (Scopes.Grows.push a sc).trans h.grows
  nested := h.nested
  size := by
    rw [h.size, size_push, length_cons]
    omega
  untreated := by
    intro ha
    refine h.untreated fun j => ?_
    rw [get_push]
    split
    · exact ⟨congrArg Scope.declared hsc.symm, congrArg Scope.captured hsc.symm⟩
    · exact ha j
  assigned := by
    intro j v hv hl
    rcases h.assigned j v hv hl with hv | hv
    · rw [get_push] at hv
      split at hv
      · rw [← hsc] at hv
        cases hv
      · exact .inl hv
    · exact .inr hv
  mentioned := by
    intro j hj v
    have hne : j ≠ a.size := by omega
    rw [h.mentioned j (by rw [size_push]; omega), get_push, if_neg hne]
    simp [hne]
  inner := by
    intro k body' hk v
    cases k with
    | zero =>
      cases hk
      rw [Nat.add_zero, h.mentioned a.size (by rw [size_push]; omega), get_push,
        if_pos rfl, ← hsc]
      simp [Scope.opened]
    | succ k =>
      have hinn := h.inner k body' hk v
      rwa [size_push, show a.size + 1 + k = a.size + (k + 1) by omega] at hinn

lemma Walks.opened {scope : Nat} {m : Node} {ns : List Node} {f g : Found} {outer : Option Nat}
    (hsc : sc.opened = sc) (hm : sc.IsOf unit f.scopes.size outer m)
    (h : Walks unit f.scopes.size ns m.body.ownNames { f with scopes := f.scopes.push sc } g) :
    Walks unit scope (m :: ns) [] f g := by
  refine ⟨h.toWalked.opened hsc, fun k n hk => ?_, fun hf => h.numbered (hf.push hsc)⟩
  cases k with
  | zero =>
    cases hk
    refine ⟨outer, hm.of_opened ((h.grows.get _ (by simp)).opened.trans ?_)⟩
    rw [Nat.add_zero, get_push, if_pos rfl]
  | succ k =>
    have ho := h.opens k n hk
    rwa [size_push, show f.scopes.size + 1 + k = f.scopes.size + (k + 1) by omega] at ho

lemma Lifts.scope {k : Nat → Lift Tree} {Q : Tree → Prop}
    (hrec : Lifts ss T (n + 1) bs (recL (⟨n, 0⟩, .zero) body) (Lifted ss T ⟨n, 0⟩ body))
    (hk : ∀ s, ∃ e s', k n s = .ok e s' ∧ s.SameWork s' ∧ ∀ r, RoutineOf ss T n body r → Q e) :
    Lifts ss T n (body :: bs) (do let i ← takeScope; liftScope ss recL i body; k i) Q := by
  intro s hs
  obtain ⟨body', s₁, new, hrun, hn, hrou, hp, hnew⟩ := hrec { s with nextScope := n + 1 } rfl
  obtain ⟨e, s₂, hke, ⟨hn₂, hr₂⟩, hQ⟩ :=
    hk { s₁ with routines := (n, routine ss n body') :: s₁.routines }
  have ht : takeScope s = .ok n { s with nextScope := n + 1 } := by
    rw [← hs]
    rfl
  have hl : liftScope ss recL n body { s with nextScope := n + 1 } =
      .ok () { s₁ with routines := (n, routine ss n body') :: s₁.routines } :=
    bind_eq_ok.mpr ⟨body', s₁, hrun, rfl⟩
  refine ⟨e, s₂, (n, routine ss n body') :: new, ?_, ?_, ?_, ?_, fun hT => ?_⟩
  · exact bind_eq_ok.mpr ⟨n, _, ht, bind_eq_ok.mpr ⟨(), _, hl, hke⟩⟩
  · rw [hn₂, hn, length_cons]
    omega
  · rw [hr₂, hrou]
    rfl
  · exact hp.cons n
  · obtain ⟨hbo, hq⟩ := hnew fun q hq => hT q (mem_cons_of_mem _ hq)
    have hof : RoutineOf ss T n body (routine ss n body') := ⟨hT _ mem_cons_self, rfl, hbo⟩
    refine ⟨hQ _ hof, fun q hmem => ?_⟩
    rcases mem_cons.mp hmem with rfl | hmem
    · exact ⟨body, by simp, hof⟩
    · obtain ⟨b, hb, hofb⟩ := hq q hmem
      have hge : n + 1 ≤ q.1 := by
        have hr := hp.mem_iff.mp (mem_map_of_mem hmem)
        rw [List.mem_range'_1] at hr
        exact hr.1
      refine ⟨b, ?_, hofb⟩
      rwa [show q.1 - n = q.1 - (n + 1) + 1 by omega, getElem?_cons_succ]

/-- Both walks over a node that opens a scope, which the scope `scope` creates if it is a block. What
the scope is opened for stays known. -/
lemma InStep.opens {recW : Place → Tree → Walk Unit} {scope : Nat} {w : Walk Unit} {m : Node}
    (hm : m.body? = some body) (outer : Option Nat) {k : Nat → Lift Tree} {Q : Tree → Prop}
    (hrec : ∀ i, InStep ss T unit i (recW ⟨i, 0⟩ body) (recL (⟨i, 0⟩, .zero) body) body.openers body.ownNames
      (Lifted ss T ⟨i, 0⟩ body))
    (hw : ∀ f : Found, ∃ sc : Scope, sc.opened = sc ∧ sc.IsOf unit f.scopes.size outer m ∧
      ((sc.kind = .block ∧ sc.parent = some scope) ∨ (sc.kind ≠ .block ∧ sc.parent = none)) ∧
      w.run f = (recW ⟨f.scopes.size, 0⟩ body).run { f with scopes := f.scopes.push sc })
    (hk : ∀ i s, ∃ e s', k i s = .ok e s' ∧ s.SameWork s' ∧ ∀ r, (ss.get i).IsOf unit i outer m →
      RoutineOf ss T i body r → Q e) :
    InStep ss T unit scope w (do let i ← takeScope; liftScope ss recL i body; k i) (m :: body.openers) [] Q := by
  intro f hf hn
  obtain ⟨sc, hfre, hof, hsc, hrun⟩ := hw f
  obtain rfl : m.body = body := by rw [Node.body, hm, Option.getD_some]
  have hs : f.scopes.size < (f.scopes.push sc).size := by
    rw [size_push]
    omega
  obtain ⟨hwa, hl⟩ := hrec f.scopes.size { f with scopes := f.scopes.push sc } hs (hn.push hf hsc)
  rw [hrun, map_cons]
  refine ⟨.opened hfre hof hwa, fun hg => ?_⟩
  have hl := hl hg
  rw [show size (f.scopes.push sc) = f.scopes.size + 1 from size_push ..] at hl
  refine hl.scope fun s => ?_
  obtain ⟨e, s', hke, hsa, hQ⟩ := hk f.scopes.size s
  have hgro := ((hwa.grows.trans hg).get f.scopes.size hs).opened
  rw [get_push, if_pos rfl] at hgro
  exact ⟨e, s', hke, hsa, fun r hr => hQ r (hof.of_opened hgro) hr⟩

/-! ### Variables and ways out -/

variable (hss : ss.Settled)
include hss

lemma inStep_variable (p : Place) (hv : VarName.isLocal v) (span : Span) :
    InStep ss T unit p.scope (modifyScope p.scope fun s => { s with mentioned := addNew s.mentioned v })
      (localVariable ss p.scope v span) [] [v] (Lifted ss T p (.name v)) := by
  intro f hf hn
  have hw : Walked p.scope [] [v] f.scopes
      (f.scopes.modify p.scope fun s => { s with mentioned := addNew s.mentioned v }) :=
    .of_modify hn { Scope.Grows.refl _ with mentioned := subset_addNew _ _ }
      (fun _ => rfl) (fun s u => by rw [mem_addNew]; grind) (fun _ _ => rfl) fun _ => ⟨rfl, rfl⟩
  refine ⟨.still hw fun hf => hf.modify _ fun _ => rfl, fun hg => Lifts.of_sameWork fun s => ?_⟩
  have hm : v ∈ (ss.get p.scope).mentioned := by
    have hgro := hg.get p.scope (Nat.lt_of_lt_of_le hf hw.grows.size)
    exact hgro.mentioned ((hw.mentioned p.scope hf v).mpr (.inr ⟨rfl, mem_singleton_self v, hv⟩))
  obtain ⟨o, ho⟩ := Option.isSome_iff_exists.mp (hss.owned p.scope v hm)
  have hown : ss.ownerOf p.scope v = o := by rw [Scopes.ownerOf, ho, Option.getD_some]
  rw [localVariable, hown]
  cases hk : (ss.get o).captured.idxOf? v with
  | some k =>
    obtain ⟨hlt, hget, -⟩ := idxOf?_eq_some_iff.mp hk
    have hwo : (ss.get o).captured[k]? = some v := List.getElem?_eq_some_iff.mpr ⟨hlt, hget⟩
    have hwit : ss.Within p.scope o := hown ▸ Scopes.within_ownerOf ss p.scope v
    obtain ⟨path, s', hp, hr, hs⟩ :=
      framePath_reaches hss.nested span hwit (hss.frame o v (mem_of_getElem? hwo)) s
    refine ⟨.node .index span s'.nextId [path, .int (k + 2)],
      { s' with nextId := s'.nextId + 1 }, bind_eq_ok.mpr ⟨path, s', hp, rfl⟩, hs, ?_⟩
    exact .word ho hwo hr
  | none =>
    have hnot : v ∉ (ss.get o).captured := idxOf?_eq_none_iff.mp hk
    refine ⟨.name v, s, rfl, ⟨rfl, rfl⟩, ?_⟩
    have hh : o = p.scope := by
      by_contra hne
      exact hnot ((hss.captured o v).mpr ⟨p.scope, hm, hown, fun h => hne h.symm⟩)
    subst hh
    exact .bare ho hnot

omit hss in
lemma Walks.giveFrame {f : Found} (hn : f.scopes.Nested) (scope i : Nat) :
    Walks unit scope [] [] f { f with scopes := f.scopes.modify i fun s => { s with frame := true } } :=
  .still (Walked.of_modify (f := fun s => { s with frame := true }) hn
    { Scope.Grows.refl _ with frame := fun _ => rfl } (fun _ => rfl) (by simp) nofun fun _ => ⟨rfl, rfl⟩)
    fun hf => hf.modify i fun _ => rfl

omit hss in
lemma frame_giveFrame {a : Scopes} {i : Nat} (hi : i < a.size) :
    (Scopes.get (a.modify i fun s => { s with frame := true }) i).frame := by
  rw [get_modify, if_pos ⟨rfl, hi⟩]

lemma inStep_return (p : Place) {n : Node} (htag : n.tag = .ret) (value : Tree) :
    InStep ss T unit p.scope (noteReturn p.scope) (do
        let s := ss.get p.scope
        if s.kind = .block && !s.strict then
          let frame ← framePath ss p.scope (ss.methodOf p.scope) n.span
          return n.rebuild [value, frame]
        else return n.rebuild [value])
      [] [] fun e => Lifted ss T p (n.child 0) value → Lifted ss T p n.tree e := by
  intro f hf hn
  have hrun : ((noteReturn p.scope).run f).2 = if p.leavesBlock f.scopes then
        { f with scopes := f.scopes.modify (f.scopes.methodOf p.scope) fun s => { s with frame := true } }
      else f := by
    change (((if p.leavesBlock f.scopes then _ else _ : Walk Unit)).run f).2 = _
    split <;> rfl
  have hm : f.scopes.methodOf p.scope < f.scopes.size :=
    Nat.lt_of_le_of_lt (hn.le_of_within (Scopes.within_methodOf hn p.scope).1) hf
  have hw : Walks unit p.scope [] [] f ((noteReturn p.scope).run f).2 := by
    rw [hrun]
    split
    · exact .giveFrame hn _ _
    · exact .refl _ hn
  refine ⟨hw, fun hg => Lifts.of_sameWork fun s => ?_⟩
  have hgro := hw.grows.trans hg
  have hleaves : p.leavesBlock ss = p.leavesBlock f.scopes := by
    rw [Place.leavesBlock, Place.leavesBlock, (hgro.get p.scope hf).kind, (hgro.get p.scope hf).strict]
  change ∃ b s', (if p.leavesBlock ss then _ else _ : Lift Tree) s = .ok b s' ∧ _
  cases hl : p.leavesBlock ss with
  | true =>
    rw [hrun, ← hleaves, if_pos hl] at hg
    have hfra : (ss.get (ss.methodOf p.scope)).frame := by
      rw [hgro.methodOf hf]
      refine (hg.get (f.scopes.methodOf p.scope) ?_).frame (frame_giveFrame hm)
      rwa [size_modify]
    obtain ⟨path, s', hp, hr, hs⟩ := framePath_reaches hss.nested n.span
      (Scopes.within_methodOf hss.nested p.scope).1 hfra s
    exact ⟨n.rebuild [value, path], s', bind_eq_ok.mpr ⟨path, s', hp, rfl⟩, hs,
      fun hv => .retOut htag hv hl hr⟩
  | false => exact ⟨n.rebuild [value], s, rfl, ⟨rfl, rfl⟩, fun hv => .ret htag hv hl⟩

omit hss in
lemma walks_noteBreak {f : Found} (hn : f.scopes.Nested) {p : Place} (hf : p.scope < f.scopes.size) :
    Walks unit p.scope [] [] f ((noteBreak p).run f).2 ∧ (p.loops = 0 → p.leavesBlock f.scopes →
        ∃ q id, (f.scopes.get p.scope).outer? = some q ∧
          (((noteBreak p).run f).2.scopes.get p.scope).breakId = some id ∧
          (((noteBreak p).run f).2.scopes.get q).frame) := by
  by_cases hcond : p.loops = 0 ∧ p.leavesBlock f.scopes
  · obtain ⟨hloops, hleaves⟩ := hcond
    obtain ⟨hkind, hstrict⟩ : (f.scopes.get p.scope).kind = .block ∧
        (f.scopes.get p.scope).strict = false := by
      simpa [Place.leavesBlock] using hleaves
    obtain ⟨q, hq, hparent⟩ : ∃ q < p.scope, (f.scopes.get p.scope).parent = some q := by
      rcases hn p.scope with ⟨-, h⟩ | ⟨h, -⟩
      · exact h
      · exact absurd hkind h
    have houter : (f.scopes.get p.scope).outer? = some q := by rw [hn.outer?_eq_parent, hparent]
    have hqsize : q < f.scopes.size := Nat.lt_trans hq hf
    cases hid : (f.scopes.get p.scope).breakId with
    | none =>
      have hrun : ((noteBreak p).run f).2 = { f with
          scopes := (f.scopes.modify p.scope fun s => { s with breakId := some f.breaks }).modify q
            fun s => { s with frame := true }, breaks := f.breaks + 1 } := by
        simp only [noteBreak, StateT.run_bind, StateT.run_get, pure_bind, hloops, hkind,
          hstrict, hid, hparent]
        rfl
      have hgive : Walks unit p.scope [] [] f { f with
          scopes := f.scopes.modify p.scope fun s => { s with breakId := some f.breaks }, breaks := f.breaks + 1 } :=
        .still (Walked.of_modify (f := fun s => { s with breakId := some f.breaks }) hn
          { Scope.Grows.refl _ with breakId := fun _ h => by rw [hid] at h; cases h }
          (fun _ => rfl) (by simp) nofun fun _ => ⟨rfl, rfl⟩) fun hf => hf.number p.scope
      rw [hrun]
      refine ⟨hgive.trans (.giveFrame hgive.nested _ q) hf, fun _ _ => ⟨q, f.breaks, houter, ?_, ?_⟩⟩
      · rw [get_modify, if_neg (by omega), get_modify, if_pos ⟨rfl, hf⟩]
      · exact frame_giveFrame (by rw [size_modify]; exact hqsize)
    | some id =>
      have hrun : ((noteBreak p).run f).2 =
          { f with scopes := f.scopes.modify q fun s => { s with frame := true } } := by
        simp only [noteBreak, modifyScope, StateT.run_bind, StateT.run_get, pure_bind, hloops, hkind,
          hstrict, hid, hparent]
        rfl
      rw [hrun]
      refine ⟨.giveFrame hn _ q, fun _ _ => ⟨q, id, houter, ?_, frame_giveFrame hqsize⟩⟩
      rw [get_modify, if_neg (by omega), hid]
  · have hrun : ((noteBreak p).run f).2 = f := by
      have hno : (p.loops = 0 && (f.scopes.get p.scope).kind = .block &&
          !(f.scopes.get p.scope).strict : Bool) = false := by
        rw [Bool.and_assoc]
        by_contra hyes
        rw [Bool.not_eq_false, Bool.and_eq_true, decide_eq_true_iff] at hyes
        exact hcond hyes
      simp only [noteBreak, StateT.run_bind, StateT.run_get, pure_bind, hno]
      rfl
    rw [hrun]
    exact ⟨.refl _ hn, fun hloops hleaves => absurd ⟨hloops, hleaves⟩ hcond⟩

lemma inStep_break (p : Place) {n : Node} (htag : n.tag = .leave) (value : Tree) :
    InStep ss T unit p.scope (noteBreak p) (do
        let s := ss.get p.scope
        if p.loops > 0 || s.kind != .block then return n.rebuild [value]
        else if s.strict then Build.node .ret n.span [value]
        else
          match s.parent, s.breakId with
          | some q, some id =>
            let frame ← framePath ss p.scope q n.span
            return n.rebuild [value, frame, .int id]
          | _, _ => throw (.transform .noBreakTarget n.span))
      [] [] fun e => Lifted ss T p (n.child 0) value → Lifted ss T p n.tree e := by
  intro f hf hn
  obtain ⟨hw, hb⟩ := walks_noteBreak hn hf
  refine ⟨hw, fun hg => Lifts.of_sameWork fun s => ?_⟩
  have hgro := (hw.grows.trans hg).get p.scope hf
  by_cases hl : 0 < p.loops ∨ (ss.get p.scope).kind ≠ .block
  · have hif : (p.loops > 0 || (ss.get p.scope).kind != .block : Bool) = true := by simpa using hl
    rw [hif]
    exact ⟨n.rebuild [value], s, rfl, ⟨rfl, rfl⟩, fun hv => .leave htag hv hl⟩
  · obtain ⟨hloops, hkind⟩ : p.loops = 0 ∧ (ss.get p.scope).kind = .block := by simpa using hl
    have hif : (p.loops > 0 || (ss.get p.scope).kind != .block : Bool) = false := by simp [hloops, hkind]
    rw [hif]
    cases hstrict : (ss.get p.scope).strict with
    | true =>
      exact ⟨.node .ret n.span s.nextId [value], { s with nextId := s.nextId + 1 }, rfl, ⟨rfl, rfl⟩,
        fun hv => .leaveStrict htag hv hloops hkind hstrict⟩
    | false =>
      have hleaves : p.leavesBlock ss := by simp [Place.leavesBlock, hkind, hstrict]
      obtain ⟨q, id, houter, hid, hfra⟩ := hb hloops <| by
        rwa [Place.leavesBlock, ← hgro.kind, ← hgro.strict]
      have houter : (ss.get p.scope).outer? = some q := hgro.outer?.trans houter
      have hq : q < f.scopes.size := Nat.lt_trans (hss.nested.lt_of_outer? houter) hf
      have hid : (ss.get p.scope).breakId = some id :=
        (hg.get p.scope (Nat.lt_of_lt_of_le hf hw.grows.size)).breakId id hid
      have hfra : (ss.get q).frame := (hg.get q (Nat.lt_of_lt_of_le hq hw.grows.size)).frame hfra
      have hparent : (ss.get p.scope).parent = some q := by rw [← hss.nested.outer?_eq_parent, houter]
      obtain ⟨path, s', hp, hr, hs⟩ :=
        framePath_reaches hss.nested n.span (.step houter (.refl q)) hfra s
      refine ⟨n.rebuild [value, path, .int id], s', ?_, hs,
        fun hv => .leaveOut htag hv hloops hleaves houter hid hr⟩
      rw [hparent, hid]
      exact bind_eq_ok.mpr ⟨path, s', hp, rfl⟩

end Closure

end Garnet
