import Garnet.Lowering.Sugar
import Garnet.Proofs.Lowering.Lowered

/-!
# The parts that sugar is made of

Splats, choices, rescue clauses, parameters and operator assignment are expressed by well-formed nodes,
and each tree is used once. The exception is the target of an operator assignment, which is read and
written; where it is written it counts for nothing.
-/

namespace Garnet

variable {items children : List Tree} {n : Node} {acc : Option Tree} {a : List Tree × List Tree}
  {around : Span}

open List Garnet.Tree Build Lowers Node

/-! ### Splats -/

namespace Splat

variable {run : List Tree} {span : Span}

lemma lowers_starred {s : Span} {id : Nat} (h : (Tree.node .splat s id children).IsLowered)
    (name : String) (hitems : ∀ e ∈ items, e.IsLowered) :
    Lowers ((items ++ [Tree.node .splat s id children]).map prune)
      (send span ((Node.mk .splat s id children).child 0) name items) ([·]) := by
  refine lowers_send (IsLowered.child (n := ⟨.splat, s, id, children⟩) rfl h 0) hitems fun i => ?_
  have hle := copies_prune_child_le i (n := ⟨.splat, s, id, children⟩) rfl 0
  simp [tree] at hle ⊢
  omega

lemma lowers_flush (hrun : ∀ e ∈ run, e.IsLowered) : Lowers (run.map prune) (flush run span) id := by
  refine .ite (.pure (by simp) (by grind)) ?_
  refine .bind [] (lowers_node rfl rfl rfl hrun .rfl) (fun e he => .pure he .rfl) (by grind)

lemma lowers_parts (hrun : ∀ e ∈ run, e.IsLowered) (hitems : ∀ e ∈ items, e.IsLowered) :
    Lowers ((run ++ items).map prune) (parts span run items) id := by
  fun_induction parts span run items with
  | case1 run => simpa using lowers_flush hrun
  | case2 run s id children items ih =>
    obtain ⟨hit, hitems⟩ := forall_mem_cons.mp hitems
    refine .bind ((Tree.node .splat s id children :: items).map prune) (lowers_flush hrun)
      (fun before hb => ?_) (by grind)
    refine .bind ((before ++ items).map prune)
      (lowers_starred hit "to_a" (by simp)) (fun part hp => ?_) (by grind)
    refine .bind ((before ++ [part]).map prune) (ih (by simp) hitems) (fun rest hr => ?_) (by grind)
    refine .pure ?_ (by grind)
    simp_all [or_imp]
  | case3 run item items _ ih =>
    obtain ⟨hit, hitems⟩ := forall_mem_cons.mp hitems
    have h := ih (forall_mem_append.mpr ⟨hrun, forall_mem_singleton.mpr hit⟩) hitems
    simpa using h

lemma lowers_sum {acc : Tree} (hacc : acc.IsLowered) (hitems : ∀ e ∈ items, e.IsLowered) :
    Lowers ((acc :: items).map prune) (sum span acc items) ([·]) := by
  induction items generalizing acc with
  | nil => exact .pure (by simpa using hacc) .rfl
  | cons part rest ih =>
    obtain ⟨hp, hr⟩ := forall_mem_cons.mp hitems
    refine .bind (rest.map prune) (lowers_send hacc (by simpa using hp) .rfl)
      (fun e he => ih (by simpa using he) hr) .rfl

lemma lowers_array (hitems : ∀ e ∈ items, e.IsLowered) :
    Lowers (items.map prune) (array items span) ([·]) := by
  refine .bind [] (lowers_parts (by simp) hitems) (fun ps hps => ?_) (by grind)
  have hemp : Lowers [] (node .array span []) ([·]) := lowers_node rfl rfl rfl (by simp) .rfl
  simp only [append_nil]
  split
  · obtain ⟨hp, hr⟩ := forall_mem_cons.mp hps
    refine .ite (lowers_sum hp hr) (.after hemp fun start hs => ?_)
    exact lowers_sum (by simpa using hs) hps
  · exact hemp

lemma lowers_mergeRun (hacc : ∀ e ∈ acc.toList, e.IsLowered) (hrun : ∀ e ∈ run, e.IsLowered) :
    Lowers ((acc.toList ++ run).map prune) (mergeRun acc run span) ([·]) := by
  have hg : Lowers (run.map prune) (node .hash span run) ([·]) := lowers_node rfl rfl rfl hrun .rfl
  cases acc with
  | none => exact hg
  | some e =>
    have he : e.IsLowered := by simpa using hacc
    refine .ite (.pure (by simpa using he) (by grind)) ?_
    refine .bind [e.prune] hg (fun group hg => ?_) (by grind)
    exact lowers_send he (by simpa using hg) (by grind)

lemma lowers_hash (hacc : ∀ e ∈ acc.toList, e.IsLowered) (hrun : ∀ e ∈ run, e.IsLowered)
    (hitems : ∀ e ∈ items, e.IsLowered) :
    Lowers ((acc.toList ++ run ++ items).map prune) (hash span acc run items) ([·]) := by
  fun_induction hash span acc run items with
  | case1 acc run => simpa using lowers_mergeRun hacc hrun
  | case2 acc run s id children items ih =>
    obtain ⟨hit, hitems⟩ := forall_mem_cons.mp hitems
    have hinn : (child ⟨.doubleSplat, s, id, children⟩ 0).IsLowered :=
      IsLowered.child (n := ⟨.doubleSplat, s, id, children⟩) rfl hit 0
    refine .bind ((Tree.node .doubleSplat s id children :: items).map prune)
      (lowers_mergeRun hacc hrun) (fun base hb => ?_) (by grind)
    refine .bind (items.map prune) (lowers_send (by simpa using hb) (by simpa using hinn) .rfl)
      (fun e he => ?_) fun i => ?_
    · have h := ih e he (by simp) hitems
      simpa using h
    · have hle := copies_prune_child_le i (n := ⟨.doubleSplat, s, id, children⟩) rfl 0
      simp [tree] at hle ⊢
      omega
  | case3 acc run item items _ ih =>
    obtain ⟨hit, hitems⟩ := forall_mem_cons.mp hitems
    have h := ih hacc (forall_mem_append.mpr ⟨hrun, forall_mem_singleton.mpr hit⟩) hitems
    simpa using h

end Splat

/-! ### Choices and rescue clauses -/

namespace Choice

variable {test : Tree}

lemma lowers_anyOf {check : Tree → Pass (Span × Tree)}
    (hc : ∀ e : Tree, e.IsLowered → Lowers [e.prune] (check e) fun a => [a.2])
    (hacc : ∀ e ∈ acc.toList, e.IsLowered) {tests : List Tree} (ht : ∀ e ∈ tests, e.IsLowered) :
    Lowers ((acc.toList ++ tests).map prune) (anyOf check acc tests) Option.toList := by
  induction tests generalizing acc with
  | nil => exact .pure hacc (by grind)
  | cons test tests ih =>
    obtain ⟨hte, ht⟩ := forall_mem_cons.mp ht
    refine .bind ((acc.toList ++ tests).map prune) (hc test hte) (fun a ha => ?_) (by grind)
    cases acc with
    | none => refine .bind (tests.map prune) (.pure ha .rfl) (fun e he => ih he ht) .rfl
    | some prev =>
      refine .bind (tests.map prune) (lowers_node rfl rfl rfl (by simp_all) .rfl) (fun e he => ih he ht) (by grind)

lemma lowers_checked (span : Span) {ins : List Tree} {p : Pass Tree} (hp : Lowers ins p ([·])) :
    Lowers ins (do return (span, ← p)) fun a : Span × Tree => [a.2] :=
  .bind [] hp (fun e he => .pure he .rfl) (by grind)

lemma lowers_check (subject : Option String) (ht : test.IsLowered) :
    Lowers [test.prune] (check (subject.map .name) around test) fun a => [a.2] := by
  unfold check
  split
  · rename_i hv
    obtain ⟨v, -, rfl⟩ := Option.map_eq_some_iff.mp hv
    exact lowers_checked _ (.mono (Splat.lowers_starred ht "include?" (by simp)) (fun i => by simp))
  · rename_i hv _
    obtain ⟨v, -, rfl⟩ := Option.map_eq_some_iff.mp hv
    exact lowers_checked _ (lowers_send ht (by simp) .rfl)
  · exact lowers_checked _ (Splat.lowers_starred ht "any?" (by simp))
  · exact .pure (by simpa using ht) .rfl

lemma lowers_rescueCheck (exception : String) (span : Span) (ht : test.IsLowered) :
    Lowers [test.prune] (rescueCheck (.name exception) span test) fun a => [a.2] := by
  unfold rescueCheck
  split
  · refine .after (lowers_send (by simp) (by simp) .rfl) fun own hown => ?_
    exact lowers_checked _ (Splat.lowers_starred ht "include?" hown)
  · exact lowers_checked _ (lowers_send (by simp) (by simpa using ht) (fun i => by simp))

lemma isLowered_getD {test : Option Tree} (h : ∀ e ∈ test.toList, e.IsLowered) {d : Tree}
    (hd : d.node? = none) :
    (test.getD d).IsLowered ∧ ∀ i, (test.getD d).prune.copies i ≤ copiesIn i (test.toList.map prune) := by
  cases test with
  | none =>
    refine ⟨IsLowered.of_node? hd, fun i => ?_⟩
    rw [Option.getD_none, copies_prune_of_node? i hd]
    exact Nat.zero_le _
  | some e => exact ⟨by simpa using h, fun i => by simp⟩

section

variable {rec : Tree → Pass Tree} (hrec : ∀ c : Tree, c.IsSource → Lowers [c] (rec c) ([·]))
include hrec

lemma lowers_arms (subject : Option String) {acc : Tree} (hacc : acc.IsLowered) {whens : List Node}
    (hw : ∀ n ∈ whens, n.tree.IsSource) :
    Lowers (acc.prune :: whens.map tree) (arms rec (subject.map .name) acc whens) ([·]) := by
  induction whens generalizing acc with
  | nil => exact .pure (by simpa using hacc) .rfl
  | cons arm whens ih =>
    obtain ⟨harm, hw⟩ := forall_mem_cons.mp hw
    have hp i : copiesIn i (arm.child 0).children + (arm.child 1).copies i ≤
        arm.tree.copies i := by
      have hle := copiesIn_children_le i (arm.child 0)
      have hadd := copies_child_add_le i arm (show 0 ≠ 1 by decide)
      omega
    refine .bind (arm.child 1 :: acc.prune :: whens.map tree)
      (.mapTrees fun c hc => hrec c ((harm.child 0).children c hc)) (fun tests htes => ?_) fun i => ?_
    · refine .bind (arm.child 1 :: acc.prune :: whens.map tree)
        (lowers_anyOf (fun e he => lowers_check subject he) (by simp) htes) (fun test ht => ?_) .rfl
      refine .bind (test.toList.map prune ++ acc.prune :: whens.map tree)
        (hrec _ (harm.child 1)) (fun body hb => ?_) (by grind)
      obtain ⟨ht, hcou⟩ := isLowered_getD ht (d := .bool false) rfl
      refine .bind (whens.map tree) (u := test.toList.map prune ++ [body.prune, acc.prune])
        (lowers_cond ht (by simpa using hb) hacc fun i => ?_)
        (fun e he => ih (by simpa using he) hw) (by grind)
      have hi := hcou i
      simp
      omega
    · have hi := hp i
      simp
      omega

omit hrec in
lemma copiesIn_arms_add_le (i : Nat) (n : Node) :
    (n.child 0).copies i + copiesIn i (n.children.tail.filter (!·.is .arm))
        + copiesIn i (((n.children.tail.reverse.filter (·.is .arm)).filterMap Tree.node?).map tree) ≤
      n.tree.copies i := by
  have harms : copiesIn i (n.children.tail.reverse.filter (·.is .arm)) =
      copiesIn i (n.children.tail.filter (·.is .arm)) := by
    rw [filter_reverse, copiesIn_reverse]
  have hsplit := copiesIn_perm i (filter_append_perm (·.is .arm) n.children.tail)
  rw [copiesIn_append] at hsplit
  have hzero := copiesIn_child_zero_add_tail i n
  have hle := copiesIn_children_le i n.tree
  rw [copiesIn_filterMap_node?]
  simp only [tree, Tree.children] at hle ⊢
  omega

lemma lowers_otherwise (hn : n.tree.IsSource) {k : Tree → Pass Tree} {r : List Tree}
    (hk : ∀ e : Tree, e.IsLowered → Lowers (e.prune :: r) (k e) ([·])) :
    Lowers (n.children.tail.filter (!·.is .arm) ++ r) (match n.children.tail.getLast? with
        | some e => if e.is .arm then pure .nil >>= k else rec e >>= k
        | none => pure .nil >>= k) ([·]) := by
  have hnil : Lowers (n.children.tail.filter (!·.is .arm) ++ r) (pure .nil >>= k) ([·]) := by
    exact .mono (hk .nil (by simp [Tree.nil])) fun i => by simp [Tree.nil]
  split
  · rename_i e he
    split
    · exact hnil
    · rename_i hki
      have hmem : e ∈ n.children.tail := mem_of_getLast? he
      refine .bind r (hrec e (hn.children e (mem_of_mem_tail hmem)))
        (fun e' he' => hk e' (by simpa using he')) fun i => ?_
      have ho : e ∈ n.children.tail.filter (!·.is .arm) := mem_filter.mpr ⟨hmem, by simpa using hki⟩
      have hle := copies_le_of_mem i ho
      simp
      omega
  · exact hnil

lemma lowers_chosen (hn : n.tree.IsSource) (subject : Option Tree)
    (hs : ∀ e ∈ subject.toList, e.IsLowered) (tmp : String) {otherwise : Tree}
    (ho : otherwise.IsLowered) :
    Lowers (otherwise.prune :: (subject.toList.map prune ++
        ((n.children.tail.reverse.filter (·.is .arm)).filterMap Tree.node?).map tree))
      (do
        let chosen ← arms rec (subject.map fun _ => .name tmp) otherwise
          ((n.children.tail.reverse.filter (·.is .arm)).filterMap Tree.node?)
        match subject with
        | none => return chosen
        | some s =>
          let set ← assign (.name tmp) s n.span
          seq n.span [set, chosen]) ([·]) := by
  have hw : ∀ m ∈ (n.children.tail.reverse.filter (·.is .arm)).filterMap Tree.node?, m.tree.IsSource := by
    intro m hm
    obtain ⟨e, he, hno⟩ := mem_filterMap.mp hm
    rw [tree_of_node? hno]
    exact hn.children e (mem_of_mem_tail (mem_reverse.mp (mem_filter.mp he).1))
  have hnam : (subject.map fun _ => Tree.name tmp) = (subject.map fun _ => tmp).map .name := by
    rw [Option.map_map]
    rfl
  rw [hnam]
  refine .bind (subject.toList.map prune) (lowers_arms hrec _ ho hw) (fun chosen hc => ?_) (by grind)
  cases subject with
  | none => exact .pure hc .rfl
  | some e =>
    refine .bind [chosen.prune] (u := [e.prune])
      (lowers_assign (by simp) (by simpa using hs) (fun i => by simp)) (fun set hset => ?_) (by grind)
    exact lowers_seq (by simp_all) .rfl

lemma lowers_lower (hn : n.tree.IsSource) : Lowers [n.tree] (lower rec n) ([·]) := by
  have hp i := copiesIn_arms_add_le i n
  unfold lower
  dsimp only
  split
  · rw [pure_bind]
    refine .withTempName fun tmp => ?_
    refine .mono (lowers_otherwise hrec hn
      fun e he => lowers_chosen hrec hn none (by simp) tmp he) fun i => ?_
    have hi := hp i
    simp at hi ⊢
    omega
  · refine .bind (n.children.tail.filter (!·.is .arm) ++
        ((n.children.tail.reverse.filter (·.is .arm)).filterMap Tree.node?).map tree)
      (hrec _ (hn.child 0)) (fun s hs => ?_) fun i => ?_
    · rw [pure_bind]
      refine .withTempName fun tmp => ?_
      exact .mono (lowers_otherwise hrec hn fun e he => lowers_chosen hrec hn (some s) hs tmp he) (by grind)
    · have hi := hp i
      simp at hi ⊢
      omega

lemma lowers_rescueClause (exception : String) {clause : Node} (hn : clause.tree.IsSource) :
    Lowers [clause.tree] (rescueClause rec (.name exception) clause) ([·]) := by
  refine .ofChildren (k := [0, 1, 2]) (by decide) ?_
  refine bind [clause.child 1, clause.child 2]
    (.mapTrees fun c hc => hrec c ((hn.child 0).children c hc)) (fun classes hcla => ?_) fun i => ?_
  · have htes : ∀ e ∈ if classes.isEmpty then [.name "StandardError"] else classes, e.IsLowered := by
      split
      · simp
      · exact hcla
    refine .bind [clause.child 1, clause.child 2]
      (.mono (lowers_anyOf (fun e he => lowers_rescueCheck exception clause.span he) (by simp) htes)
        fun i => ?_) (fun test ht => ?_) .rfl
    · split <;> simp
    obtain ⟨ht, hcou⟩ := isLowered_getD ht (d := .bool true) rfl
    have hr set (hset : ∀ e ∈ set, e.IsLowered) :
        Lowers (set.map prune ++ test.toList.map prune ++ [clause.child 2]) (do
            let body ← rec (clause.child 2)
            let body ← seq clause.span (set ++ [body])
            node .rescue clause.span [test.getD (.bool true), body]) ([·]) := by
      refine .bind ((set ++ test.toList).map prune) (hrec _ (hn.child 2)) (fun body hb => ?_) (by grind)
      refine .bind (test.toList.map prune) (lowers_seq (forall_mem_append.mpr ⟨hset, hb⟩) .rfl)
        (fun body hb => ?_) (by grind)
      refine lowers_node rfl rfl rfl (by simp_all) fun i => ?_
      have hi := hcou i
      simp
      omega
    dsimp only
    split
    · exact .mono (hr [] (by simp)) (by grind)
    · refine .bind (test.toList.map prune ++ [clause.child 2]) (hrec _ (hn.child 1))
        (fun target htarget => ?_) (by grind)
      refine .bind (test.toList.map prune ++ [clause.child 2]) (u := [target.prune])
        (lowers_assign (by simpa using htarget) (by simp) .rfl) (fun set hset => ?_) .rfl
      exact .mono (hr [set] hset) .rfl
  · have hle := copiesIn_children_le i (clause.child 0)
    simp
    omega

omit hrec in
lemma copiesIn_clauses_add_le (i : Nat) (hlen : 3 ≤ n.children.length) : (n.child 0).copies i + copiesIn i
        ((((n.children.drop 1).take (n.children.length - 3)).filterMap Tree.node?).map tree)
        + (n.child (n.children.length - 2)).copies i
        + (n.child (n.children.length - 1)).copies i ≤ n.tree.copies i := by
  have hle := copiesIn_children_le i n.tree
  have hzero := copiesIn_child_zero_add_tail i n
  have hsplit := copiesIn_append i (n.children.tail.take (n.children.length - 3))
    (n.children.tail.drop (n.children.length - 3))
  have hlast : n.children.tail.drop (n.children.length - 3) =
      [n.child (n.children.length - 2), n.child (n.children.length - 1)] := by
    have hchild {k l} (hl : l < n.children.length) (hk : k + 1 = l) :
        n.children.tail[k]? = some (n.child l) := by
      rw [getElem?_tail, hk, child, getElem?_eq_getElem hl, Option.getD_some]
    refine ext_getElem? fun k => ?_
    rw [getElem?_drop]
    rcases k with _ | _ | k
    · exact hchild (by omega) (by omega)
    · exact hchild (by omega) (by omega)
    · exact getElem?_eq_none (by rw [length_tail]; omega)
  rw [take_append_drop, hlast] at hsplit
  rw [copiesIn_filterMap_node?, drop_one]
  simp only [tree, Tree.children, copiesIn_cons] at hle hsplit ⊢
  omega

lemma lowers_protect (hn : n.tree.IsSource) (htag : n.tag = .protect) :
    Lowers [n.tree] (protect rec n) ([·]) := by
  have hlen := (everywhere_node.mp hn).1.clauses htag
  unfold protect
  rw [if_neg (Nat.not_lt.mpr hlen)]
  refine .withTempName fun exception => ?_
  refine bind
    ((((n.children.drop 1).take (n.children.length - 3)).filterMap Tree.node?).map tree ++
      [n.child (n.children.length - 2), n.child (n.children.length - 1)])
    (hrec _ (hn.child 0)) (fun body hb => ?_) fun i => ?_
  · have hc : ∀ m ∈ ((n.children.drop 1).take (n.children.length - 3)).filterMap Tree.node?,
        Lowers [m.tree] (rescueClause rec (.name exception) m) ([·]) := by
      intro m hm
      obtain ⟨e, he, hno⟩ := mem_filterMap.mp hm
      refine lowers_rescueClause hrec exception ?_
      rw [tree_of_node? hno]
      exact hn.children e (mem_of_mem_drop (mem_of_mem_take he))
    refine bind [body.prune, n.child (n.children.length - 2), n.child (n.children.length - 1)]
      (.mapM hc) (fun clauses hc => ?_) (by grind)
    refine .bind (body.prune :: clauses.map prune ++ [n.child (n.children.length - 1)])
      (hrec _ (hn.child _)) (fun otherwise ho => ?_) (by grind)
    refine .bind ((body :: otherwise :: clauses).map prune) (hrec _ (hn.child _)) (fun ensure hens => ?_) (by grind)
    refine lowers_node rfl rfl rfl ?_ (fun i => by simp; omega)
    simp_all [or_imp]
  · have hi := copiesIn_clauses_add_le i hlen
    simp at hi ⊢
    omega

end

end Choice

/-! ### Parameters -/

namespace Parameter

variable {span : Span}

/-- The trees of sorted parameters. Names are left out, since they define nothing. -/
def Sorted.trees (p : Sorted) : List Tree :=
  p.trailing ++ p.prologue ++ p.keywords.flatMap fun k => k.default.toList

/-- The parameters are names, or marks before names. -/
structure Sorted.IsSimple (p : Sorted) : Prop where
  params : ∀ e ∈ p.params, e.node? = none
  trailing : ∀ e ∈ p.trailing, e.isSimple
  keywords : ∀ k ∈ p.keywords, k.name.node? = none

lemma lowers_missing (count : Nat) (span : Span) : Lowers [] (missing count span) ([·]) := by
  refine .after (lowers_node rfl rfl rfl (by simp) .rfl) fun given hg => ?_
  exact lowers_send (by simpa using hg) (by simp) .rfl

lemma lowers_fillKeyword (hash : String) {k : Keyword} (hname : k.name.node? = none)
    (hdef : ∀ e ∈ k.default.toList, e.IsLowered) :
    Lowers (k.default.toList.map prune) (fillKeyword (.name hash) k) id := by
  have hl := IsLowered.of_node? hname
  have hnone i := copies_prune_of_node? i hname
  refine .after (lowers_send (by simp) (by simp) .rfl) fun fetch hf => ?_
  refine .bind (k.default.toList.map prune) (lowers_node rfl rfl rfl (by simp_all) (fun i => by simp))
    (fun value hv => ?_) .rfl
  refine .bind (k.default.toList.map prune)
    (lowers_assign hl (by simpa using hv) fun i => by simp [hnone]) (fun set hset => ?_) .rfl
  split
  · exact .pure hset (by grind)
  · rename_i default hd
    rw [hd] at hdef ⊢
    refine .after (lowers_send hl (by simp) fun i => by simp [hnone]) fun isNil hisN => ?_
    refine .bind [isNil.prune, set.prune] (u := [default.prune])
      (lowers_assign hl (by simpa using hdef) fun i => by simp [hnone])
      (fun apply ha => ?_) (by grind)
    refine .bind [set.prune] (u := [isNil.prune, apply.prune])
      (lowers_cond (by simpa using hisN) (by simpa using ha) (by simp [Tree.nil])
        fun i => by simp [Tree.nil]) (fun cond hc => ?_) (by grind)
    exact .pure (by simp_all) (by grind)

lemma node?_of_place {tag : Tag} {id : Nat} (h : (Tree.node tag span id children).IsSource) {k : Nat}
    (hk : tag.namePlace? = some k) :
    (child ⟨tag, span, id, children⟩ k).node? = none := by
  have hf := (everywhere_node (n := ⟨tag, span, id, children⟩).mp h).1.formed
  obtain ⟨v, hv⟩ := Option.isSome_iff_exists.mp (isSome_name?_of_isFormed hf hk)
  exact node?_of_name? hv

section

variable {base : Nat} {sorted : Sorted} {params : List Tree} {p : Tree} {rec : Tree → Pass Tree}
  (hrec : ∀ c : Tree, c.IsSource → Lowers [c] (rec c) ([·]))
include hrec

lemma lowers_sort (base : Nat) (around : Span) {acc : Sorted} (hacc : ∀ e ∈ acc.trees, e.IsLowered)
    (hp : p.IsSource) :
    Lowers (acc.trees.map prune ++ [p]) (sort rec base around acc p) Sorted.trees := by
  simp only [Sorted.trees, forall_mem_append] at hacc
  obtain ⟨⟨htrailing, hprologue⟩, hkeywords⟩ := hacc
  have ht {n : Node} (hn : n.tree.IsSource) (hf : n.tag.isFlat) rest :
      Lowers (acc.trees.map prune ++ [n.tree])
        (pure { acc with trailing := acc.trailing ++ [n.tree], hasRest := rest }) Sorted.trees := by
    refine .pure ?_ fun i => ?_
    · simp only [Sorted.trees, forall_mem_append, forall_mem_singleton]
      exact ⟨⟨⟨htrailing, isLowered_of_isFlat hn hf⟩, hprologue⟩, hkeywords⟩
    · have hle := copies_prune_le i n.tree
      simp [Sorted.trees]
      omega
  unfold sort
  split
  · refine .pure ?_ fun i => ?_
    · simp only [Sorted.trees, forall_mem_append]
      exact ⟨⟨htrailing, hprologue⟩, hkeywords⟩
    · simp [Sorted.trees]
  · rename_i tag span id children
    have hchild k := hp.child (n := ⟨tag, span, id, children⟩) k
    have hle i k := copies_child_le i ⟨tag, span, id, children⟩ k
    split
    · have hname : (child ⟨.default, span, id, children⟩ 0).node? = none := node?_of_place hp rfl
      have hnone i := copies_prune_of_node? i hname
      refine .bind (acc.trees.map prune) (hrec _ (hchild 1)) (fun value hv => ?_) fun i => ?_
      · refine .after (lowers_missing _ span) fun missing hmissing => ?_
        refine .bind (missing.prune :: acc.trees.map prune) (u := [value.prune])
          (lowers_assign (IsLowered.of_node? hname) (by simpa using hv) fun i => by simp [hnone])
          (fun set hset => ?_) (by grind)
        refine .bind (acc.trees.map prune) (u := [missing.prune, set.prune])
          (lowers_cond (by simpa using hmissing) (by simpa using hset) (by simp [Tree.nil])
            fun i => by simp [Tree.nil]) (fun apply ha => .pure ?_ fun i => ?_) (by grind)
        · simp only [Sorted.trees, forall_mem_append]
          exact ⟨⟨htrailing, hprologue, ha⟩, hkeywords⟩
        · simp [Sorted.trees]
          omega
      · have hi := hle i 1
        simp [tree] at hi ⊢
        omega
    · have hkeyword default (hd : ∀ e ∈ default.toList, e.IsLowered) :
          Lowers (default.toList.map prune ++ acc.trees.map prune)
            (pure { acc with keywords := acc.keywords ++
              [⟨child ⟨.keywordArg, span, id, children⟩ 0, default, span⟩] }) Sorted.trees := by
        refine .pure ?_ fun i => ?_
        · simp only [Sorted.trees, forall_mem_append, flatMap_append]
          exact ⟨⟨htrailing, hprologue⟩, hkeywords, by simpa using hd⟩
        · simp [Sorted.trees]
          omega
      dsimp only
      split
      · exact .mono (hkeyword none (by simp)) (by grind)
      · refine .bind (acc.trees.map prune) (hrec _ (hchild 1)) (fun value hv => ?_) fun i => ?_
        · exact hkeyword (some value) hv
        · have hi := hle i 1
          simp [tree] at hi ⊢
          omega
    · exact ht (n := ⟨.rest, span, id, children⟩) hp rfl true
    · exact ht (n := ⟨.blockArg, span, id, children⟩) hp rfl acc.hasRest
    · exact .throw
  · exact .throw

omit hrec in
lemma isSimple_sort {acc acc' : Sorted} (hacc : acc.IsSimple) (hp : p.IsSource) {s s' : Nat}
    (h : sort rec base around acc p s = .ok acc' s') :
    acc'.IsSimple := by
  obtain ⟨hparams, htrailing, hkeywords⟩ := hacc
  unfold sort at h
  split at h
  · cases h
    exact ⟨forall_mem_append.mpr ⟨hparams, by simp [Tree.node?]⟩, htrailing, hkeywords⟩
  · rename_i tag span id children
    split at h
    · have hname : (child ⟨.default, span, id, children⟩ 0).node? = none := node?_of_place hp rfl
      obtain ⟨missing, _, -, h⟩ := bind_eq_ok.mp h
      obtain ⟨set, _, -, h⟩ := bind_eq_ok.mp h
      obtain ⟨apply, _, -, h⟩ := bind_eq_ok.mp h
      cases h
      exact ⟨forall_mem_append.mpr ⟨hparams, by simpa using hname⟩, htrailing, hkeywords⟩
    · have hname : (child ⟨.keywordArg, span, id, children⟩ 0).node? = none := node?_of_place hp rfl
      have hkeyword default : Sorted.IsSimple { acc with keywords := acc.keywords ++
          [⟨child ⟨.keywordArg, span, id, children⟩ 0, default, span⟩] } :=
        ⟨hparams, htrailing, forall_mem_append.mpr ⟨hkeywords, by simpa using hname⟩⟩
      dsimp only at h
      split at h
      · cases h
        exact hkeyword _
      · obtain ⟨_, _, -, h⟩ := bind_eq_ok.mp h
        cases h
        exact hkeyword _
    iterate 2
      cases h
      exact ⟨hparams, forall_mem_append.mpr ⟨htrailing, by simp [Tree.isSimple, Tree.node?, Tag.isFlat]⟩, hkeywords⟩
    · cases h
  · cases h

omit hrec in
lemma lowers_keywords (base : Nat) (span : Span) (hsimple : sorted.IsSimple)
    (hprologue : ∀ e ∈ sorted.prologue, e.IsLowered)
    (hdefaults : ∀ e ∈ sorted.keywords.flatMap fun k => k.default.toList, e.IsLowered) :
    Lowers ((sorted.prologue ++ sorted.keywords.flatMap fun k => k.default.toList).map prune)
      (keywords base span sorted) fun a => a.2 := by
  refine .ite (pure hprologue (by grind)) (.ite .throw_bind (.withTempName fun hash => ?_))
  refine after (lowers_missing _ span) fun missing hmissing => ?_
  refine .after (lowers_assign (by simp) (by simp [Tree.nil]) fun i => by simp [Tree.nil])
    fun clear hclear => ?_
  refine .bind ((sorted.prologue ++ sorted.keywords.flatMap fun k => k.default.toList).map prune)
    (u := [missing.prune, clear.prune])
    (lowers_cond (by simpa using hmissing) (by simpa using hclear) (by simp [Tree.nil])
      fun i => by simp [Tree.nil]) (fun reset hreset => ?_) (by grind)
  refine .bind ((reset :: sorted.prologue).map prune)
    (.gather fun k hk => lowers_fillKeyword hash (hsimple.keywords k hk) fun e he =>
      hdefaults e (mem_flatMap.mpr ⟨k, hk, he⟩)) (fun fills hfills => .pure ?_ fun i => ?_)
    fun i => ?_
  · rw [flatMap_id] at hfills
    exact forall_mem_append.mpr ⟨hprologue, forall_mem_cons.mpr ⟨forall_mem_singleton.mp hreset, hfills⟩⟩
  · simp
    omega
  · simp [map_flatMap]
    omega

omit hrec in
lemma node?_of_keywords (hsimple : sorted.IsSimple) {s s' : Nat}
    (h : keywords base span sorted s = .ok a s') :
    ∀ e ∈ a.1, e.node? = none := by
  unfold keywords at h
  split at h
  · cases h
    exact hsimple.params
  · split at h
    · obtain ⟨_, _, hthrow, -⟩ := bind_eq_ok.mp h
      cases hthrow
    · rw [bind_map_left] at h
      obtain ⟨hash, _, -, h⟩ := bind_eq_ok.mp h
      iterate 4 obtain ⟨_, _, -, h⟩ := bind_eq_ok.mp h
      cases h
      exact forall_mem_append.mpr ⟨hsimple.params, by simp [Tree.node?]⟩

omit hrec in
lemma isSimple_foldlM (hparams : ∀ p ∈ params, p.IsSource) {s s' : Nat}
    (h : params.foldlM (sort rec base span) {} s = .ok sorted s') : sorted.IsSimple :=
  foldlM_invariant (fun _ p hp hacc _ _ _ h => isSimple_sort hacc (hparams p hp) h)
    ⟨by simp, by simp, by simp⟩ h

lemma lowers_foldlM (hparams : ∀ p ∈ params, p.IsSource) (base : Nat) (span : Span) :
    Lowers params (params.foldlM (sort rec base span) {}) Sorted.trees := by
  have hf : Lowers ((Sorted.trees {}).map prune ++ params) (params.foldlM (sort rec base span) {})
      Sorted.trees := by
    refine Builds.foldlM (fun acc p hp hacc => lowers_sort hrec base span ?_ (hparams p hp)) ?_
    · exact fun e he => hacc e.prune (mem_map_of_mem he)
    · exact fun e he => by cases he
  exact hf

lemma lowers_lower {params body : Tree} (hparams : params.IsSource) (hargs : params.is .args)
    (hb : body.IsSource) (base : Nat) (span : Span) :
    Lowers [params, body] (lower rec params body base span) fun a => [a.1, a.2] := by
  cases params with
  | node tag s id children =>
    cases beq_iff_eq.mp hargs
    refine .bindOf [body] (lowers_foldlM hrec hparams.children base span)
      (fun sorted hg hsorted => ?_) fun i => ?_
    · obtain ⟨_, _, -, hrun⟩ := hg
      have hsimple := isSimple_foldlM hparams.children hrun
      simp only [Sorted.trees, forall_mem_append] at hsorted
      obtain ⟨⟨htrailing, hprologue⟩, hdefaults⟩ := hsorted
      refine .bindOf (sorted.trailing.map prune ++ [body])
        (lowers_keywords base span hsimple hprologue hdefaults) (fun a ha hprologue => ?_) fun i => ?_
      · obtain ⟨_, _, -, hrun⟩ := ha
        have hleaf := node?_of_keywords hsimple hrun
        refine .bind ((a.2 ++ sorted.trailing).map prune) (hrec body hb) (fun body hb => ?_) (by grind)
        have hitems : ∀ e ∈ a.1 ++ sorted.trailing, e.IsLowered :=
          forall_mem_append.mpr ⟨fun e he => IsLowered.of_node? (hleaf e he), htrailing⟩
        have hc i := copiesIn_prune_of_node? i hleaf
        have hr body (hb : ∀ e ∈ [body], e.IsLowered) :
            Lowers ([body].map prune ++ sorted.trailing.map prune)
              (pure (Node.rebuild ⟨.args, s, id, children⟩ (a.1 ++ sorted.trailing), body))
              fun a => [a.1, a.2] := by
          refine .pure (forall_mem_cons.mpr ⟨?_, hb⟩) fun i => ?_
          · rw [Tree.IsLowered, prune_rebuild rfl]
            exact everywhere_node (n := ⟨.args, s, id, _⟩) |>.mpr
              ⟨isLowered_of_hasParams rfl rfl, forall_isLowered hitems⟩
          · have hi := hc i
            simp [Node.rebuild, prune_node (t := .args) rfl, copies, Tag.isDefinition]
            omega
        refine .ite (.mono (hr body hb) (by grind)) ?_
        refine bind (sorted.trailing.map prune)
          (lowers_seq (forall_mem_append.mpr ⟨hprologue, hb⟩) .rfl)
          hr (by grind)
      · simp [Sorted.trees]
        omega
    · simp [copies, Tree.children]
  | _ => cases hargs

omit hrec in
lemma simple_of_lower {params body : Tree} (hparams : params.IsSource) (hargs : params.is .args)
    {a : Tree × Tree} (h : Gives (lower rec params body base span) a) :
    a.1.is .args ∧ ∀ c ∈ a.1.children, c.isSimple := by
  cases params with
  | node tag span' id children =>
    cases beq_iff_eq.mp hargs
    obtain ⟨s, s', -, h⟩ := h
    obtain ⟨sorted, _, hsorted, h⟩ := bind_eq_ok.mp h
    have hsimple := isSimple_foldlM hparams.children hsorted
    obtain ⟨items, _, hitems, h⟩ := bind_eq_ok.mp h
    have hleaf := node?_of_keywords hsimple hitems
    obtain ⟨body, _, -, h⟩ := bind_eq_ok.mp h
    have hparam : ∀ c ∈ items.1 ++ sorted.trailing, c.isSimple :=
      forall_mem_append.mpr ⟨fun c hc => by rw [Tree.isSimple, hleaf c hc]; rfl, hsimple.trailing⟩
    split at h
    on_goal 2 => obtain ⟨body, _, -, h⟩ := bind_eq_ok.mp h
    all_goals
      dsimp only [node?] at h
      cases h
      exact ⟨rfl, hparam⟩
  | _ => cases hargs

end

end Parameter

/-! ### Operator assignment -/

namespace OperatorAssignment

variable {e : Tree}

def IsStored (e : Tree) : Prop :=
  ∀ value span, (assign e value span : Pass Tree) = node .assign span [e, value]

lemma isStored_of_node? (h : e.node? = none) : IsStored e := by
  intro value span
  cases e with
  | node tag s id children => cases h
  | _ => rfl

lemma isStored_of_is (h : e.is .path ∨ e.is .topPath ∨ e.is .splat) : IsStored e := by
  intro value span
  cases e with
  | node tag s id children =>
    have htag : tag = .path ∨ tag = .topPath ∨ tag = .splat := by simpa [Tree.is] using h
    rcases htag with rfl | rfl | rfl <;> rfl
  | _ => simp [Tree.is] at h

lemma lowers_write {read value : Tree} (hread : read.IsLowered) (hv : value.IsLowered)
    (hs : IsStored read ∨ ∀ i, read.prune.copies i = 0) (span : Span) :
    Lowers [value.prune] (assign read value span) ([·]) := by
  rcases hs with hs | hnone
  · rw [hs]
    exact lowers_store hread hv .rfl
  · exact lowers_assign hread hv fun i => by simp [hnone]

lemma lowers_combine (op : String) {read value : Tree} (hread : read.IsLowered)
    (hv : value.IsLowered) (hs : IsStored read ∨ ∀ i, read.prune.copies i = 0)
    (span : Span) : Lowers [read.prune, value.prune] (combine op read value span) ([·]) := by
  unfold combine
  split
  · refine .bind [read.prune] (lowers_write hread hv hs span) (fun write hw => ?_) (by grind)
    split
    all_goals exact lowers_node rfl rfl rfl (by simp_all) (by grind)
  · refine .bind [] (lowers_send hread (by simpa using hv) .rfl) (fun combined hc => ?_) .rfl
    exact .mono (lowers_write hread (by simpa using hc) hs span) .rfl

section

variable {span : Span} {target : Tree} {t : Node} {rec : Tree → Pass Tree}
  (hrec : ∀ c : Tree, c.IsSource → Lowers [c] (rec c) ([·]))
include hrec

lemma lowers_holdArguments (span : Span) (hitems : ∀ e ∈ items, e.IsSource) :
    Lowers items (holdArguments rec span items) fun a => a.1 := by
  induction items with
  | nil => exact .pure (by simp) .rfl
  | cons item items ih =>
    obtain ⟨hit, hitems⟩ := forall_mem_cons.mp hitems
    refine .bind items (hrec item hit) (fun value hv => ?_) .rfl
    refine .withTemp fun var => bind items
      (lowers_assign (by simp) (by simpa using hv) (fun i => by simp)) (fun set hset => ?_) .rfl
    refine .bind [set.prune] (ih hitems) (fun a ha => .pure ?_ fun i => ?_) (by grind)
    · exact forall_mem_cons.mpr ⟨forall_mem_singleton.mp hset, ha⟩
    · simp
      omega

omit hrec in
lemma node?_of_holdArguments {s s' : Nat} (h : holdArguments rec span items s = .ok a s') :
    ∀ e ∈ a.2, e.node? = none := by
  induction items generalizing a s s' with
  | nil =>
    cases h
    simp
  | cons item items ih =>
    iterate 3 obtain ⟨_, _, -, h⟩ := bind_eq_ok.mp h
    obtain ⟨b, _, hb, h⟩ := bind_eq_ok.mp h
    cases h
    exact forall_mem_cons.mpr ⟨rfl, ih hb⟩

/-- A receiver and arguments that are computed once, before the call that reads. -/
def readCall (rec : Tree → Pass Tree) (t : Node) (span : Span) : Pass (List Tree × Tree) := do
  let receiver ← rec (t.child 0)
  let var ← temp "recv"
  let set ← assign (.name var) receiver span
  let (sets, vars) ← holdArguments rec span (t.child 2).children
  let read ← send span (.name var) ((t.name? 1).getD "[]") vars
  return (set :: sets, read)

lemma lowers_readCall (ht : ∀ k, (t.child k).IsSource) (span : Span) :
    Lowers [t.child 0, t.child 2] (readCall rec t span) fun a => a.1 ++ [a.2] := by
  refine .bind [t.child 2] (hrec _ (ht 0)) (fun receiver hr => ?_) .rfl
  refine .withTemp fun var => bind [t.child 2]
    (lowers_assign (by simp) (by simpa using hr) (fun i => by simp)) (fun set hset => ?_) .rfl
  refine .bindOf [set.prune] (lowers_holdArguments hrec span (ht 2).children)
    (fun a hg ha => ?_) fun i => ?_
  · obtain ⟨_, _, -, hg⟩ := hg
    have hleaf := node?_of_holdArguments hg
    have hnone i := copiesIn_prune_of_node? i hleaf
    refine .after (lowers_send (by simp) (fun e he => IsLowered.of_node? (hleaf e he))
      fun i => by simp [hnone]) fun read hread => .pure ?_ (by grind)
    simp_all [or_imp]
  · have hle := copiesIn_children_le i (t.child 2)
    simp
    omega

lemma lowers_readTarget (htarget : target.IsSource) (span : Span) :
    Lowers [target] (readTarget rec target span) fun a => a.1 ++ [a.2] := by
  have hp {target} h :
      Lowers [target] (do return ([], ← rec target)) fun a : List Tree × Tree => a.1 ++ [a.2] :=
    .bind [] (hrec target h) (fun e he => .pure he .rfl) .rfl
  unfold readTarget
  split
  · rename_i s id children
    exact .ofChildren (k := [0, 2]) (by decide) (lowers_readCall hrec htarget.child span)
  · rename_i s id children
    exact .ofChildren (k := [0, 2]) (by decide) (lowers_readCall hrec
        (htarget.child (n := ⟨.safeSend, s, id, children⟩)) span)
  · exact .ite .throw (hp htarget)
  · exact hp htarget

omit hrec in
lemma copies_of_readCall {a : List Tree × Tree} {s s' : Nat} (h : readCall rec t span s = .ok a s')
    (i : Nat) : a.2.prune.copies i = 0 := by
  iterate 3 obtain ⟨_, _, -, h⟩ := bind_eq_ok.mp h
  obtain ⟨held, _, hheld, h⟩ := bind_eq_ok.mp h
  obtain ⟨read, _, hread, h⟩ := bind_eq_ok.mp h
  cases h
  have hnone : read.copies i = 0 := by
    rw [copies_of_send hread, copies_name, copiesIn_eq_zero i fun e he =>
      copies_of_node? i (node?_of_holdArguments hheld e he)]
  exact Nat.le_zero.mp (hnone ▸ copies_prune_le i read)

omit hrec in
/-- What is read holds no definitions, or is written to as it stands. -/
lemma isStored_of_readTarget (htarget : target.isTarget) (hchain : ¬target.is .safeChain)
    (hlike : Carries Tree.Like target (rec target)) {a : List Tree × Tree} {s s' : Nat}
    (h : readTarget rec target span s = .ok a s') :
    IsStored a.2 ∨ ∀ i, a.2.prune.copies i = 0 := by
  unfold readTarget at h
  split at h
  iterate 2 exact .inr (copies_of_readCall h)
  · split at h
    · cases h
    · obtain ⟨e, _, he, h⟩ := bind_eq_ok.mp h
      cases h
      exact .inl (isStored_of_node? ((hlike he).leaf rfl ▸ rfl))
  · rename_i hsend hsafe _
    obtain ⟨e, _, he, h⟩ := bind_eq_ok.mp h
    cases h
    have hlike := hlike he
    cases target with
    | node tag s id children =>
      have htag : tag = .path ∨ tag = .topPath ∨ tag = .splat := by
        cases tag with
        | path => exact .inl rfl
        | topPath => exact .inr (.inl rfl)
        | splat => exact .inr (.inr rfl)
        | send => exact absurd rfl (hsend s id children)
        | safeSend => exact absurd rfl (hsafe s id children)
        | safeChain => exact absurd rfl hchain
        | _ => cases htarget
      have hkept : tag.isFixed ∧ (e.is tag → IsStored e) := by
        rcases htag with rfl | rfl | rfl
        · exact ⟨rfl, fun h => isStored_of_is (.inl h)⟩
        · exact ⟨rfl, fun h => isStored_of_is (.inr (.inl h))⟩
        · exact ⟨rfl, fun h => isStored_of_is (.inr (.inr h))⟩
      exact .inl (hkept.2 (hlike.fixed hkept.1 (beq_self_eq_true tag)).1)
    | _ => exact .inl (isStored_of_node? (hlike.leaf rfl ▸ rfl))

lemma lowers_lower (hn : n.tree.IsSource) (htag : n.tag = .opAssign)
    (hlike : ∀ k, Carries Tree.Like (n.child k) (rec (n.child k))) :
    Lowers [n.tree] (lower rec n) ([·]) := by
  have htarget := (everywhere_node.mp hn).1.target htag
  unfold lower
  split
  · rename_i s id children hchain
    have hinn : (child ⟨.safeChain, s, id, children⟩ 0).isTarget := by
      rw [hchain] at htarget
      cases children with
      | nil => rfl
      | cons c cs => exact htarget
    have hs := (hchain ▸ hn.child 0 : (Tree.node .safeChain s id children).IsSource)
    have hb : (n.rebuild [child ⟨.safeChain, s, id, children⟩ 0, n.child 1, n.child 2]).IsSource := by
      rw [rebuild, htag]
      refine everywhere_node (n := ⟨.opAssign, n.span, n.id, _⟩) |>.mpr ⟨⟨rfl, by simp, fun _ => hinn⟩, ?_⟩
      have h0 := hs.child (n := ⟨.safeChain, s, id, children⟩) 0
      have h1 := hn.child 1
      have h2 := hn.child 2
      simp_all
    refine .bind [] (hrec _ hb) (fun body hb => .pure ?_ fun i => ?_) fun i => ?_
    · refine forall_mem_singleton.mpr ?_
      exact everywhere_node (n := ⟨.safeChain, s, id, [body.prune]⟩) |>.mpr
        ⟨isLowered_of_hasParams rfl rfl, by simpa using hb⟩
    · simp [rebuild, prune_node (t := .safeChain) rfl, copies, Tag.isDefinition]
    · have hp := copiesIn_map_child i n (show [0, 1, 2].Nodup by decide)
      have hchild := copies_child_le i ⟨.safeChain, s, id, children⟩ 0
      simp [rebuild, copies, hchain, tree] at *
      omega
  · rename_i hchain
    refine .ofChildren (k := [0, 1, 2]) (by decide) ?_
    refine bind [n.child 0] (hrec _ (hn.child 2)) (fun value hv => ?_) (by grind)
    refine .bindOf [value.prune] (lowers_readTarget hrec (hn.child 0) n.span) (fun a hg ha => ?_) (by grind)
    obtain ⟨_, _, -, hrun⟩ := hg
    have hsto := isStored_of_readTarget htarget (fun h => ?_) (hlike 0) hrun
    · obtain ⟨hse, hread⟩ := forall_mem_append.mp ha
      refine .bind (a.1.map prune) (lowers_combine _ (forall_mem_singleton.mp hread)
        (forall_mem_singleton.mp hv) hsto n.span) (fun result hr => ?_) (by grind)
      refine .ite (pure hr (by grind)) (lowers_seq ?_ (by grind))
      exact forall_mem_append.mpr ⟨hse, hr⟩
    · cases hc : n.child 0 with
      | node tag s id children =>
        rw [hc] at h
        obtain rfl : tag = .safeChain := by simpa [Tree.is] using h
        exact hchain s id children hc
      | _ =>
        rw [hc] at h
        cases h

end

end OperatorAssignment

end Garnet
