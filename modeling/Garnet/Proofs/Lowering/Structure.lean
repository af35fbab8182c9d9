import Garnet.Lowering.Structure
import Garnet.Proofs.Tree.Formed

/-!
# Lowering structure keeps trees well-formed

The forms with a structure of their own are expressed by well-formed nodes, and each tree is used once
(`lowerStructure_builds`).
-/

namespace Garnet

variable {targets : List Tree} {e params : Tree} {tag : Tag}

open List Garnet.Tree Node

instance : Counter Nat := ⟨id, fun _ => True⟩

instance {ε : Type} : LawfulFresh ε Nat := ⟨fun _ => ⟨_, rfl, rfl, id⟩⟩

/-- A pass builds the trees `outs`, as they are before any pass, out of the trees `ins`. -/
abbrev Shapes {α : Type} (ins : List Tree) (p : Pass α) (outs : α → List Tree) : Prop :=
  Builds Tree.IsSource ins p outs

section

variable {ins cs : List Tree} {span : Span}

lemma shapes_node (htag : tag.isFree) (hf : (mk tag span 0 cs).isFormed)
    (hcs : ∀ c ∈ cs, c.IsSource) (hd : Within cs ins) : Shapes ins (Build.node tag span cs) ([·]) :=
  builds_source htag hf hcs hd

lemma shapes_send {receiver : Tree} {name : String} (hr : receiver.IsSource)
    (hcs : ∀ c ∈ cs, c.IsSource)
    (hd : Within (receiver :: cs) ins) :
    Shapes ins (Build.send span receiver name cs) ([·]) :=
  builds_send isSource_of_isPlain hr hcs hd

lemma shapes_assign {target value : Tree} (htarget : target.IsSource) (hvalue : value.IsSource)
    (hd : Within [target, value] ins) :
    Shapes ins (Build.assign target value span) ([·]) :=
  builds_assign isSource_of_isPlain htarget hvalue hd

lemma shapes_params (hcs : ∀ c ∈ cs, c.IsSource) (hd : Within cs ins) :
    Builds (fun e => e.IsSource ∧ e.is .args) ins (Build.args span cs : Pass Tree) ([·]) :=
  builds_args isSource_of_isPlain hcs hd

lemma shapes_leaf (h : e.node? = none) : Shapes ins (pure e) ([·]) := by
  refine .pure (by simpa using everywhere_of_node? h) fun i => ?_
  simp [copies_of_node? i h]

end

/-! ### Assignment to several targets -/

namespace Destructuring

lemma isSource_paramTarget (h : e.IsSource) : (paramTarget e).IsSource := by
  fun_cases paramTarget e with
  | case1 span id children =>
    have hinn := Everywhere.child (n := ⟨.rest, span, id, children⟩) h 0
    exact isSource_node (n := ⟨.splat, span, id, [_]⟩) rfl rfl (by simpa using hinn)
  | case2 span id children => exact Everywhere.child h 0
  | case3 => exact h

lemma copies_paramTarget_le (i : Nat) (e : Tree) : (paramTarget e).copies i ≤ e.copies i := by
  fun_cases paramTarget e with
  | case1 span id children =>
    have hle := copies_child_le i ⟨.rest, span, id, children⟩ 0
    simpa [copies, Tag.isDefinition, tree] using hle
  | case2 span id children => exact copies_child_le i ⟨.default, span, id, children⟩ 0
  | case3 => exact Nat.le_refl _

lemma copiesIn_map_paramTarget_le (i : Nat) (es : List Tree) :
    copiesIn i (es.map paramTarget) ≤ copiesIn i es := by
  induction es with
  | nil => exact Nat.le_refl _
  | cons e es ih =>
    have hle := copies_paramTarget_le i e
    simp only [map_cons, copiesIn_cons]
    omega

lemma shapes_index (splat : Option Nat) (count i : Nat) (span : Span) :
    Shapes [] (index splat count i span) ([·]) := by
  unfold index
  split
  · refine .ite (shapes_send (by simp) ?_ fun i => ?_) (.ite (shapes_leaf rfl) (shapes_leaf rfl))
    · simp [Tree.bool]
    · simp [Tree.bool]
  · exact shapes_leaf rfl

def Assigns (rec : Source → Tree → Pass Tree) : Prop :=
  ∀ (source : Source) (target : Tree), source.value.IsSource → target.IsSource →
    Shapes [source.value, target] (rec source target) ([·])

section

variable {rec : Source → Tree → Pass Tree} (hrec : Assigns rec)
include hrec

lemma shapes_bindFrom (array : String) (splat : Option Nat) (count : Nat) (span : Span) (i : Nat)
    (h : ∀ e ∈ targets, e.IsSource) :
    Shapes targets (bindFrom rec array splat count span i targets) id := by
  induction targets generalizing i with
  | nil => exact .pure (by simp) .rfl
  | cons target targets ih =>
    obtain ⟨htarget, htargets⟩ := forall_mem_cons.mp h
    refine .after (shapes_index splat count i span) fun place hp => ?_
    refine .bind (target :: targets) (shapes_send (by simp) hp (by grind)) (fun value hvalue => ?_) .rfl
    refine .bind targets (hrec ⟨value, span⟩ target (forall_mem_singleton.mp hvalue) htarget)
      (fun stmt hs => ?_) .rfl
    refine .bind [stmt] (ih (i + 1) htargets) (fun stmts hstmts => .pure ?_ fun i => ?_) (by grind)
    · exact forall_mem_append.mpr ⟨hs, hstmts⟩
    · simp
      omega

lemma shapes_bindElements (array : String) (h : ∀ e ∈ targets, e.IsSource) (span : Span) :
    Shapes targets (bindElements rec array targets span) id :=
  shapes_bindFrom hrec array _ _ span 0 h

lemma shapes_assignAll (h : ∀ e ∈ targets, e.IsSource) {source : Source} (hvalue : source.value.IsSource) :
    Shapes (source.value :: targets) (assignAll rec targets source) ([·]) := by
  obtain ⟨value, span⟩ := source
  refine .withTemp fun tmp => ?_
  refine .bind targets (u := [value]) (shapes_assign (by simp) hvalue (by grind)) (fun set hset => ?_) .rfl
  have hrest wrap (hw : ∀ e ∈ wrap, e.IsSource) : Shapes (wrap ++ ([set] ++ targets)) (do
        let stmts ← bindElements rec tmp targets span
        Build.seq span (set :: wrap ++ stmts ++ [.name tmp])) ([·]) := by
    refine .bind (set :: wrap) (shapes_bindElements hrec tmp h span) (fun stmts hstmts => ?_) (by grind)
    refine builds_seq isSource_of_isPlain ?_ (by grind)
    simp_all [or_imp]
  refine .ite (.after (.pure (by simp) .rfl) hrest) ?_
  refine .after (shapes_send (by simp) (by simp) .rfl) fun isArray hisArray => ?_
  refine .after (shapes_node rfl rfl (by simp) .rfl) fun wrapped hwra => ?_
  refine .bind ([isArray] ++ ([set] ++ targets))
    (shapes_assign (by simp) (forall_mem_singleton.mp hwra) (by grind))
    (fun wrap hw => ?_) .rfl
  refine .bind ([set] ++ targets) (u := [wrap, isArray])
    (shapes_node rfl rfl (by simp_all [Tree.nil]) fun i => by simp [Tree.nil]; omega)
    (fun cond hc => ?_) .rfl
  exact .bind ([set] ++ targets) (.pure hc .rfl) hrest .rfl

lemma assigns_assignStep : Assigns (assignStep rec) := by
  intro source target hvalue htarget
  have hg {tag} {span} {id} {children} (h : (Tree.node tag span id children).IsSource) :
      Shapes [source.value, .node tag span id children]
        (assignAll rec (children.map paramTarget) source) ([·]) := by
    refine .mono (shapes_assignAll hrec (fun e he => ?_) hvalue) fun i => ?_
    · obtain ⟨c, hc, rfl⟩ := mem_map.mp he
      exact isSource_paramTarget (h.children c hc)
    · have hle := copiesIn_map_paramTarget_le i children
      simp only [copiesIn_cons, copies]
      omega
  unfold assignStep
  split
  · rename_i span id children
    have hinn := htarget.child (n := ⟨.splat, span, id, children⟩) 0
    refine .ite (.pure (by simpa using hvalue) (by grind)) ?_
    refine .mono (hrec source _ hvalue hinn) fun i => ?_
    have hle := copies_child_le i ⟨.splat, span, id, children⟩ 0
    simp [tree] at hle ⊢
    omega
  · exact hg htarget
  · exact hg htarget
  · exact shapes_assign htarget hvalue (by grind)

end

lemma assigns_assignTarget : Assigns assignTarget := by
  intro source target hvalue htarget
  refine recurseOn_induction (C := fun (a : Source × Tree) (p : Pass Tree) =>
      a.1.value.IsSource → a.2.IsSource → Shapes [a.1.value, a.2] p ([·]))
    (fun a _ _ => shapes_leaf rfl) (fun rec a hrec => ?_) (source, target) hvalue htarget
  exact assigns_assignStep (fun source target => hrec (source, target)) a.1 a.2

end Destructuring

/-! ### Forms with a structure of their own -/

namespace Structure

variable {prologue : List Tree}

open Destructuring

lemma shapes_prepend (hprologue : ∀ e ∈ prologue, e.IsSource) {body : Tree} (hbody : body.IsSource)
    (span : Span) :
    Shapes (body :: prologue) (prepend prologue body span) ([·]) := by
  refine .ite (.pure (by simpa using hbody) (by grind)) ?_
  refine builds_seq isSource_of_isPlain ?_ (by grind)
  simp_all [or_imp]

section

variable {p : Tree} {rec : Tree → Pass Tree}
  (hrec : ∀ c : Tree, c.IsSource → Shapes [c] (rec c) ([·])) {n : Node} (hn : n.tree.IsSource)
include hrec hn

omit hrec in
lemma targets_of_forLoop
    (h : targets = if (n.child 0).is .array then (n.child 0).children else [n.child 0]) :
    (∀ e ∈ targets, e.IsSource) ∧ ∀ i, copiesIn i targets ≤ (n.child 0).copies i := by
  have hvar := hn.child 0
  subst h
  split
  · exact ⟨hvar.children, fun i => copiesIn_children_le i _⟩
  · exact ⟨by simpa using hvar, fun i => by simp⟩

lemma shapes_forLoop : Shapes [n.tree] (forLoop rec n) ([·]) := by
  refine .ofChildren (k := [0, 1, 2]) (by decide) ?_
  refine .bind [n.child 0, n.child 2] (hrec _ (hn.child 1)) (fun collection hc => ?_) (by grind)
  refine .bind [collection, n.child 0] (hrec _ (hn.child 2)) (fun body hbody => ?_) (by grind)
  refine .withTemp fun param => ?_
  refine .after (.each (fun v => shapes_assign (by simp) (by simp) .rfl) _) fun outer ho => ?_
  obtain ⟨htargets, hle⟩ := targets_of_forLoop hn rfl
  have hp : (Source.mk (.name param) n.span).value.IsSource := by simp
  have hall : Shapes [n.child 0] _ ([·]) :=
    .mono (shapes_assignAll assigns_assignTarget htargets hp) fun i => by simpa using hle i
  refine .ite (.bind (body :: collection :: outer) hall ?rest fun i => ?_) (.bind (body :: collection :: outer)
    (shapes_assign (hn.child 0) (by simp) .rfl) ?rest fun i => ?_)
  case rest =>
    intro bind hb
    refine .bind (collection :: outer) (shapes_node rfl rfl (by simp_all) .rfl) (fun body hbody => ?_) .rfl
    refine .after (shapes_params (by simp) .rfl) fun params hparams => ?_
    obtain ⟨hparams, hl⟩ := forall_mem_singleton.mp hparams
    refine .bind (collection :: outer) (shapes_node rfl ‹_› (by simp_all) .rfl) (fun block hblo => ?_) .rfl
    refine .after (shapes_params (by simp) .rfl) fun args hargs => ?_
    obtain ⟨hargs, hl⟩ := forall_mem_singleton.mp hargs
    refine .bind outer (u := [collection, args, block]) (shapes_node rfl ‹_› (by simp_all) (by grind))
      (fun loop hlo => ?_) (by grind)
    refine shapes_node rfl rfl ?_ (by grind)
    simp_all [or_imp]
  all_goals
    simp
    omega

/-! ### Strings and ranges -/

omit hn in
lemma shapes_joinParts (span : Span) (acc : Option Tree) (hacc : ∀ e ∈ acc.toList, e.IsSource)
    {parts : List Tree} (hparts : ∀ e ∈ parts, e.IsSource) :
    Shapes (acc.toList ++ parts) (joinParts rec span acc parts) Option.toList := by
  induction parts generalizing acc with
  | nil => exact .pure hacc (by grind)
  | cons part parts ih =>
    obtain ⟨hpart, hparts⟩ := forall_mem_cons.mp hparts
    have hrest {piece : Tree} {joined : Pass Tree} (h : Shapes ([piece] ++ acc.toList) joined ([·])) :
        Shapes ([piece] ++ (acc.toList ++ parts)) (joined >>= fun e => joinParts rec span (some e) parts)
          Option.toList :=
      .bind parts h (fun e he => ih (some e) he hparts) (by grind)
    cases part with
    | str bytes =>
      refine .bind (acc.toList ++ parts) (.pure (by simp) .rfl)
        (fun piece (hpiece : ∀ e ∈ [piece], e.IsSource) => ?_) (by grind)
      cases acc with
      | none => exact hrest (.pure hpiece .rfl)
      | some e => exact hrest (shapes_send (hacc e (by simp)) hpiece (by grind))
    | _ =>
      refine .bind (acc.toList ++ parts) (hrec _ hpart) (fun value hvalue => ?_) fun i => ?_
      · refine .bind (acc.toList ++ parts)
          (shapes_send (forall_mem_singleton.mp hvalue) (by simp) .rfl) (fun piece hpiece => ?_) .rfl
        cases acc with
        | none => exact hrest (.pure hpiece .rfl)
        | some e => exact hrest (shapes_send (hacc e (by simp)) hpiece (by grind))
      · simp only [copiesIn_cons, copiesIn_append, copiesIn_nil]
        omega

lemma shapes_interpolation : Shapes [n.tree] (interpolation rec n) ([·]) := by
  refine .ofAll (.bind [] (shapes_joinParts hrec n.span none (by simp) hn.children)
    (fun e? he => ?_) (by grind))
  split
  · exact shapes_send (by simp) (by simp) .rfl
  · exact .pure he .rfl
  · exact shapes_leaf rfl

lemma shapes_rangeLiteral (exclusive : Bool) : Shapes [n.tree] (rangeLiteral rec n exclusive) ([·]) := by
  refine .ofAll (.bind [] (H := Tree.IsSource) (.mapM fun c hc => ?_) (fun ends hen => ?_) (by grind))
  · exact .ite (shapes_leaf rfl) (hrec c (hn.children c hc))
  · refine shapes_send (by simp) ?_ fun i => ?_
    · simp_all [or_imp, Tree.bool]
    · simp [Tree.bool]

omit hrec in
lemma shapes_regexLiteral : Shapes [n.tree] (regexLiteral n) ([·]) := by
  refine .ofChildren (k := [0, 1]) (by decide) ?_
  have hchildren : ∀ e ∈ [n.child 0, n.child 1], e.IsSource := by
    simpa using ⟨hn.child 0, hn.child 1⟩
  unfold regexLiteral
  split
  · exact shapes_send (by simp) (by simp_all) (by grind)
  · exact shapes_send (by simp) hchildren (by grind)

/-! ### Parameters -/

omit hn in
lemma shapes_defaulted (htag : tag = .default ∨ tag = .keywordArg) {span : Span} {id : Nat}
    {children : List Tree} (h : (Tree.node tag span id children).IsSource) :
    Shapes [.node tag span id children] (do
      let n : Node := ⟨tag, span, id, children⟩
      let value ← rec (n.child 1)
      return (n.rebuild [n.child 0, value], [])) fun a => a.1 :: a.2 := by
  have hchild := h.child (n := ⟨tag, span, id, children⟩) 0
  refine .ofChildren (n := ⟨tag, span, id, children⟩) (k := [0, 1]) (by decide) ?_
  refine .bind [child ⟨tag, span, id, children⟩ 0] (hrec _ (h.child 1))
    (fun value hvalue => .pure (forall_mem_singleton.mpr ?_) fun i => ?_) (by grind)
  · rcases htag with rfl | rfl
    all_goals
      refine isSource_rebuild h rfl rfl rfl rfl rfl (by simp_all) ?_ nofun
      rintro k ⟨⟩
      rfl
  · rcases htag with rfl | rfl
    all_goals
      simp [rebuild, copies, Tag.isDefinition]
      omega

omit hn in
lemma shapes_simpleParam (hp : p.IsSource) : Shapes [p] (simpleParam rec p) fun a => a.1 :: a.2 := by
  unfold simpleParam
  split
  · rename_i span id children
    refine .withTemp fun tmp => .bind [] (shapes_bindElements assigns_assignTarget tmp ?_ span)
      (fun stmts hstmts => ?_) fun i => ?_
    · intro e he
      obtain ⟨c, hc, rfl⟩ := mem_map.mp he
      exact isSource_paramTarget (hp.children c hc)
    · exact .pure (by simpa using hstmts) (by grind)
    · have hle := copiesIn_map_paramTarget_le i children
      simp only [append_nil, copiesIn_cons, copies]
      omega
  · exact shapes_defaulted hrec (.inl rfl) hp
  · exact shapes_defaulted hrec (.inr rfl) hp
  · exact .pure (by simpa using hp) .rfl

omit hrec hn in
lemma copiesIn_flatMap_pairs (i : Nat) (pairs : List (Tree × List Tree)) :
    copiesIn i (pairs.flatMap fun a => a.1 :: a.2) =
      copiesIn i (pairs.map Prod.fst) + copiesIn i (pairs.flatMap Prod.snd) := by
  induction pairs with
  | nil => rfl
  | cons a pairs ih =>
    simp only [flatMap_cons, map_cons, copiesIn_append, copiesIn_cons]
    omega

omit hn in
lemma shapes_simpleParams (h : params.IsSource) (hargs : params.is .args) :
    Shapes [params] (simpleParams rec params) fun a => a.1 :: a.2 := by
  cases params with
  | node tag span id children =>
    cases beq_iff_eq.mp hargs
    refine .ofAll (n := ⟨.args, span, id, children⟩) (.bind []
      (.gather fun c hc => shapes_simpleParam hrec (h.children c hc)) (fun pairs hpairs => ?_) (fun i => by simp))
    refine .pure ?_ fun i => ?_
    · simp only [mem_flatMap, forall_exists_index, and_imp] at hpairs
      refine forall_mem_cons.mpr ⟨?_, fun e he => ?_⟩
      · refine isSource_node (n := ⟨.args, span, id, pairs.map Prod.fst⟩) rfl rfl fun e he => ?_
        obtain ⟨a, ha, rfl⟩ := mem_map.mp he
        exact hpairs a.1 a ha mem_cons_self
      · obtain ⟨a, ha, he⟩ := mem_flatMap.mp he
        exact hpairs e a ha (mem_cons_of_mem _ he)
    · rw [append_nil, copiesIn_flatMap_pairs]
      simp [rebuild, copies, Tag.isDefinition]
  | _ => cases hargs

omit hrec hn in
lemma isArgs_of_simpleParams (hargs : params.is .args) {a : Tree × List Tree}
    (h : Gives (simpleParams rec params) a) : a.1.is .args := by
  cases params with
  | node tag span id children =>
    obtain ⟨s, s', -, h⟩ := h
    obtain ⟨pairs, t, -, h⟩ := bind_eq_ok.mp h
    cases h
    exact hargs
  | _ => cases hargs

lemma shapes_method (htag : n.tag = .method) : Shapes [n.tree] (definition rec n 1) ([·]) := by
  obtain ⟨hsource, -⟩ := everywhere_node.mp hn
  have hargs : (n.child 1).is .args := isArgs_of_isFormed hsource.formed (htag ▸ rfl)
  have hchildren : [n.child 0, n.child 1, n.child 2] = n.children :=
    n.map_child_range (k := 3) (length_of_isFormed hsource.formed (htag ▸ rfl))
  refine .ofShell (k := [0, 1, 2]) (by decide) ?_
  refine .bindOf [n.rebuild [], n.child 0, n.child 2] (shapes_simpleParams hrec (hn.child 1) hargs)
    (fun a ha hparams => ?_) (by grind)
  have ha := isArgs_of_simpleParams hargs ha
  obtain ⟨hparams, hprologue⟩ := forall_mem_cons.mp hparams
  refine .bind ([n.rebuild [], n.child 0] ++ a.1 :: a.2) (hrec _ (hn.child 2)) (fun body hbody => ?_) (by grind)
  refine .bind [n.rebuild [], n.child 0, a.1] (shapes_prepend hprologue (forall_mem_singleton.mp hbody) _)
    (fun body hbody => ?_) (by grind)
  have hset : (n.children.set 1 a.1).set (1 + 1) body = [n.child 0, a.1, body] := by
    rw [← hchildren]
    rfl
  rw [hset, if_neg (by rw [htag]; decide)]
  refine builds_rebuild (isSource_rebuild hn htag rfl rfl rfl rfl ?_ ?_ ?_) (by grind)
  · have h0 := hn.child 0
    simp_all
  · rintro k ⟨⟩
    rfl
  · rintro k ⟨⟩
    exact ha

lemma shapes_singletonMethod (htag : n.tag = .singletonMethod) :
    Shapes [n.tree] (definition rec n 2) ([·]) := by
  obtain ⟨hsource, -⟩ := everywhere_node.mp hn
  have hargs : (n.child 2).is .args := isArgs_of_isFormed hsource.formed (htag ▸ rfl)
  have hchildren : [n.child 0, n.child 1, n.child 2, n.child 3] = n.children :=
    n.map_child_range (k := 4) (length_of_isFormed hsource.formed (htag ▸ rfl))
  refine .ofShell (k := [0, 1, 2, 3]) (by decide) ?_
  refine .bindOf [n.rebuild [], n.child 0, n.child 1, n.child 3]
    (shapes_simpleParams hrec (hn.child 2) hargs) (fun a ha hparams => ?_) (by grind)
  have ha := isArgs_of_simpleParams hargs ha
  obtain ⟨hparams, hprologue⟩ := forall_mem_cons.mp hparams
  refine .bind ([n.rebuild [], n.child 0, n.child 1] ++ a.1 :: a.2) (hrec _ (hn.child 3))
    (fun body hbody => ?_) (by grind)
  refine .bind [n.rebuild [], n.child 0, n.child 1, a.1]
    (shapes_prepend hprologue (forall_mem_singleton.mp hbody) _)
    (fun body hbody => ?_) (by grind)
  have hset : (n.children.set 2 a.1).set (2 + 1) body = [n.child 0, n.child 1, a.1, body] := by
    rw [← hchildren]
    rfl
  rw [hset, if_pos (by rw [htag]; decide)]
  refine .bind [n.rebuild [], n.child 1, a.1, body] (hrec _ (hn.child 0)) (fun object ho => ?_) (by grind)
  refine builds_rebuild (isSource_rebuild hn htag rfl rfl rfl rfl ?_ ?_ ?_) (by grind)
  · have h1 := hn.child 1
    simp_all
  · rintro k ⟨⟩
    rfl
  · rintro k ⟨⟩
    exact ha

/-! ### Blocks -/

/-- The trees of sorted parameters. A parameter with a default is set from two places. -/
def Packed.trees (p : Packed) : List Tree :=
  p.targets ++ p.kept ++ p.defaults.flatMap fun d => [d.1, d.1, d.2]

omit hn in
lemma shapes_packParam {acc : Packed} (hacc : ∀ e ∈ acc.trees, e.IsSource) (hp : p.IsSource) :
    Shapes (acc.trees ++ [p]) (packParam rec acc p) Packed.trees := by
  simp only [Packed.trees, forall_mem_append] at hacc
  obtain ⟨⟨htargets, hkept⟩, hdefaults⟩ := hacc
  have htarget : Shapes (acc.trees ++ [p]) (pure { acc with targets := acc.targets ++ [p] })
      Packed.trees := by
    refine .pure ?_ fun i => ?_
    · simp only [Packed.trees, forall_mem_append]
      exact ⟨⟨⟨htargets, by simpa using hp⟩, hkept⟩, hdefaults⟩
    · simp [Packed.trees]
      omega
  unfold packParam
  split
  · exact htarget
  · exact htarget
  · rename_i span id children
    obtain ⟨hsource, -⟩ := everywhere_node (n := ⟨.default, span, id, children⟩).mp hp
    have hname := hp.child (n := ⟨.default, span, id, children⟩) 0
    have hnone i : (child ⟨.default, span, id, children⟩ 0).copies i = 0 := by
      obtain ⟨v, hv⟩ := Option.isSome_iff_exists.mp (isSome_name?_of_isFormed hsource.formed rfl)
      exact copies_of_node? i (node?_of_name? hv)
    refine .bind acc.trees (hrec _ (hp.child 1)) (fun value hvalue => .pure ?_ fun i => ?_) fun i => ?_
    · simp only [Packed.trees, forall_mem_append, flatMap_append]
      refine ⟨⟨⟨htargets, by simpa using hname⟩, hkept⟩, hdefaults, ?_⟩
      simp_all
    · simp [Packed.trees, hnone]
      omega
    · have hle := copies_child_le i ⟨.default, span, id, children⟩ 1
      simp only [tree] at hle
      simp
      omega
  · rename_i span id children
    have hchild := hp.child (n := ⟨.rest, span, id, children⟩) 0
    refine .bind acc.trees (shapes_node rfl rfl (by simpa using hchild) .rfl)
      (fun target htarget => .pure ?_ fun i => ?_) fun i => ?_
    · simp only [Packed.trees, forall_mem_append]
      exact ⟨⟨⟨htargets, htarget⟩, hkept⟩, hdefaults⟩
    · simp [Packed.trees]
      omega
    · have hle := copies_child_le i ⟨.rest, span, id, children⟩ 0
      simp only [tree] at hle
      simp
      omega
  · refine .pure ?_ fun i => ?_
    · simp only [Packed.trees, forall_mem_append]
      exact ⟨⟨htargets, hkept, by simpa using hp⟩, hdefaults⟩
    · simp [Packed.trees]
      omega

omit hrec hn in
lemma shapes_unpackLone (packed : String) (span : Span) :
    Shapes [] (unpackLone (.name packed) span) ([·]) := by
  refine .after (shapes_send (by simp) (by simp) .rfl) fun length hlength => ?_
  refine .bind [] (shapes_send (forall_mem_singleton.mp hlength) (by simp) .rfl)
    (fun single hsingle => ?_) .rfl
  -- the first item is read twice, which is right since it defines nothing
  refine .bindOf [single] (u := []) (shapes_send (by simp) (by simp) .rfl) (fun first hread hfirst => ?_) .rfl
  have hnone i : first.copies i = 0 := by
    obtain ⟨s, s', -, hread⟩ := hread
    simpa using copies_of_send hread i
  have hfirst := forall_mem_singleton.mp hfirst
  refine .bind [single] (u := [first]) (shapes_send hfirst (by simp) .rfl) (fun isArray hisArray => ?_) .rfl
  refine .bind [] (shapes_node rfl rfl (by simp_all) .rfl) (fun test htest => ?_) (by grind)
  refine .bind [test] (u := []) (shapes_assign (by simp) hfirst fun i => by simp [hnone])
    (fun unpack hunpack => ?_) .rfl
  exact shapes_node rfl rfl (by simp_all [Tree.nil]) fun i => by simp [Tree.nil]; omega

omit hrec hn in
lemma shapes_applyDefault (span : Span) {entry : Tree × Tree} (hname : entry.1.IsSource)
    (hvalue : entry.2.IsSource) :
    Shapes [entry.1, entry.1, entry.2] (applyDefault span entry) ([·]) := by
  refine .bind [entry.1, entry.2] (shapes_send hname (by simp) .rfl) (fun missing hmissing => ?_) .rfl
  refine .bind [missing] (shapes_assign hname hvalue .rfl) (fun set hset => ?_) (by grind)
  exact shapes_node rfl rfl (by simp_all [Tree.nil]) fun i => by simp [Tree.nil]; omega

omit hrec in
lemma shapes_rebuildBlock (htag : n.tag = .lambda) {body : Tree} (hparams : params.IsSource)
    (hargs : params.is .args) (hprologue : ∀ e ∈ prologue, e.IsSource) (hbody : body.IsSource) :
    Shapes (params :: body :: prologue) (do return n.rebuild [params, ← prepend prologue body n.span])
      ([·]) := by
  refine .bind [params] (shapes_prepend hprologue hbody _) (fun body hbody => ?_) (by grind)
  refine builds_rebuild (isSource_rebuild hn htag rfl rfl rfl rfl (by simp_all) nofun ?_) fun i => ?_
  · rintro k ⟨⟩
    exact hargs
  · simp [rebuild, htag, copies, Tag.isDefinition]
    omega

lemma shapes_block (htag : n.tag = .lambda) (strict : Bool) :
    Shapes [n.tree] (block rec n strict) ([·]) := by
  obtain ⟨hsource, -⟩ := everywhere_node.mp hn
  have hargs : (n.child 0).is .args := isArgs_of_isFormed hsource.formed (htag ▸ rfl)
  refine .ofChildren (k := [0, 1]) (by decide) ?_
  refine .bind [n.child 0] (hrec _ (hn.child 1)) (fun body hbody => ?_) (by grind)
  have hbody := forall_mem_singleton.mp hbody
  refine .ite ?_ (.withTemp fun packed => ?_)
  · refine .bindOf [body] (shapes_simpleParams hrec (hn.child 0) hargs) (fun a ha hparams => ?_) (by grind)
    obtain ⟨hparams, hprologue⟩ := forall_mem_cons.mp hparams
    exact .mono (shapes_rebuildBlock hn htag hparams (isArgs_of_simpleParams hargs ha) hprologue hbody) (by grind)
  · refine .bind [body] (u := (n.child 0).children) (.foldlM
      (fun acc c hc hacc => shapes_packParam hrec hacc ((hn.child 0).children c hc)) ?_)
      (fun sorted hs => ?_) fun i => ?_
    · simp [Packed.trees]
    · simp only [Packed.trees, forall_mem_append] at hs
      obtain ⟨⟨htargets, hkept⟩, hdefaults⟩ := hs
      refine .after (shapes_unpackLone packed n.span) fun unpack hunpack => ?_
      refine .bind ([unpack, body] ++ sorted.kept ++ sorted.defaults.flatMap fun d => [d.1, d.1, d.2])
        (shapes_bindElements assigns_assignTarget packed htargets n.span) (fun binds hb => ?_)
        fun i => ?_
      · refine .bind ([unpack, body] ++ sorted.kept ++ binds)
          (.gather fun d hd => shapes_applyDefault n.span ?_ ?_) (fun defaults hdefaults => ?_) (by grind)
        · exact hdefaults d.1 (mem_flatMap.mpr ⟨d, hd, by simp⟩)
        · exact hdefaults d.2 (mem_flatMap.mpr ⟨d, hd, by simp⟩)
        · rw [flatMap_singleton'] at hdefaults ⊢
          refine .after (shapes_node rfl rfl (by simp) .rfl) fun rest hrest => ?_
          obtain ⟨p, hp, hpar⟩ : ∃ p, (n.child 0).node? = some p ∧ p.tag = .args := by
            cases hc : n.child 0 with
            | node tag span id children =>
              rw [hc] at hargs
              exact ⟨_, rfl, by simpa [Tree.is] using hargs⟩
            | _ =>
              rw [hc] at hargs
              cases hargs
          simp only [hp]
          have hparams : (p.rebuild (rest :: sorted.kept)).IsSource := by
            rw [rebuild, hpar]
            refine isSource_node (n := ⟨.args, p.span, p.id, rest :: sorted.kept⟩) rfl rfl ?_
            exact forall_mem_cons.mpr ⟨forall_mem_singleton.mp hrest, hkept⟩
          have hprologue : ∀ e ∈ unpack :: binds ++ defaults, e.IsSource := by
            rw [cons_append, forall_mem_cons, forall_mem_append]
            exact ⟨forall_mem_singleton.mp hunpack, hb, hdefaults⟩
          refine .mono (shapes_rebuildBlock hn htag hparams ?_ hprologue hbody) fun i => ?_
          · exact beq_iff_eq.mpr hpar
          · simp [rebuild, copies, hpar, Tag.isDefinition]
            omega
      · simp [Packed.trees]
        omega
    · have hle := copiesIn_children_le i (n.child 0)
      simp
      omega

/-! ### All forms -/

/-- A tree in the place of another one, also as a target. -/
def InPlace (c e : Tree) : Prop := c.Like e ∧ (c.isTarget → e.isTarget)

section

variable (hlike : ∀ c ∈ n.children, Carries InPlace c (rec c))
include hlike

lemma shapes_mapChildren : Shapes [n.tree] (n.mapChildren rec) ([·]) := by
  obtain ⟨hsource, hchildren⟩ := everywhere_node.mp hn
  refine builds_mapChildren (fun c hc => hrec c (hchildren c hc)) hlike fun cs hcs hall => ?_
  refine everywhere_node (n := ⟨n.tag, n.span, n.id, cs⟩) |>.mpr ⟨⟨?_, fun htag => ?_, fun htag => ?_⟩, hall⟩
  · exact isFormed_of_like hsource.formed (hcs.imp fun _ _ h => h.1)
  · exact hcs.length_eq ▸ hsource.clauses htag
  · exact (child_forall₂ ⟨.refl _, id⟩ hcs 0).2 (hsource.target htag)

lemma shapes_call (htag : n.tag = .call) : Shapes [n.tree] (match (n.child 2).node? with
      | some b =>
        if isLambdaCall n then do
          let b ← block rec b true
          let args ← rec (n.child 1)
          return n.rebuild [n.child 0, args, b]
        else n.mapChildren rec
      | none => n.mapChildren rec) ([·]) := by
  obtain ⟨hsource, -⟩ := everywhere_node.mp hn
  have hp : (n.child 1).is .args := isArgs_of_isFormed hsource.formed (htag ▸ rfl)
  have hmap : Shapes [n.tree] (n.mapChildren rec) ([·]) := shapes_mapChildren hrec hn hlike
  cases hb : (n.child 2).node? with
  | none => exact hmap
  | some b =>
    obtain hb : n.child 2 = b.tree := by
      cases hc : n.child 2 <;> rw [hc] at hb <;> cases hb
      rfl
    simp only
    split
    · rename_i hca
      have hl : b.tag = .lambda := by
        rw [isLambdaCall, hb, Bool.and_eq_true] at hca
        exact beq_iff_eq.mp hca.2
      refine .ofChildren (k := [0, 1, 2]) (by decide) ?_
      refine .bind [n.child 0, n.child 1] (shapes_block hrec (hb ▸ hn.child 2) hl true)
        (fun b hb => ?_) fun i => ?_
      · refine .bindOf [n.child 0, b] (hrec _ (hn.child 1)) (fun args hread hargs => ?_) (by grind)
        obtain ⟨s, s', -, hread⟩ := hread
        have hli := (hlike _ (mem_of_is hp) hread).1.fixed rfl hp
        refine builds_rebuild (isSource_rebuild hn htag rfl rfl rfl rfl ?_ ?_ ?_) fun i => ?_
        · have h0 := hn.child 0
          simp_all
        · rintro k ⟨⟩
          rfl
        · rintro k ⟨⟩
          exact hli.1
        · simp [rebuild, htag, copies, Tag.isDefinition]
          omega
      · simp [hb]
        omega
    · exact hmap

lemma shapes_step : Shapes [n.tree] (step rec n.tree) ([·]) := by
  have hno : n.tree.node? = some n := rfl
  simp only [step, hno]
  split
  case h_1 htag => exact shapes_forLoop hrec hn
  case h_2 htag =>
    refine .ofChildren (k := [0, 1]) (by decide) ?_
    refine .bind [n.child 0] (hrec _ (hn.child 1)) (fun value hvalue => ?_) (by grind)
    refine .mono (shapes_assignAll assigns_assignTarget (hn.child 0).children
      (forall_mem_singleton.mp hvalue)) fun i => ?_
    have hle := copiesIn_children_le i (n.child 0)
    simp
    omega
  case h_3 htag => exact shapes_interpolation hrec hn
  case h_4 htag => exact shapes_rangeLiteral hrec hn false
  case h_5 htag => exact shapes_rangeLiteral hrec hn true
  case h_6 htag => exact shapes_regexLiteral hn
  case h_7 htag => exact shapes_block hrec hn htag false
  case h_8 htag => exact shapes_method hrec hn htag
  case h_9 htag => exact shapes_singletonMethod hrec hn htag
  case h_10 htag => exact shapes_call hrec hn hlike htag
  case h_11 => exact shapes_mapChildren hrec hn hlike

end

end

end Structure

namespace Structure

lemma step_leaf (rec : Tree → Pass Tree) (h : e.node? = none) : step rec e = pure e := by
  simp only [step, h]

lemma step_mapChildren (rec : Tree → Pass Tree) {n : Node}
    (h : n.tag.isFixed ∨ n.tree.isTarget) : step rec n.tree = n.mapChildren rec := by
  obtain ⟨tag, span, id, children⟩ := n
  cases tag <;> first | rfl | (rcases h with h | h <;> cases h)

lemma isTarget_recurse (he : e.isTarget) {s s' : Nat} {e' : Tree}
    (h : Tree.recurse (fun rec (_ : Unit) e => step (rec ()) e) () e s = .ok e' s') :
    e'.isTarget := by
  induction hs : e.size using Nat.strongRecOn generalizing e e' s s' with
  | ind size ih =>
    rw [Tree.recurse_eq] at h
    cases hn : e.node? with
    | none =>
      rw [step_leaf _ hn] at h
      cases h
      exact he
    | some n =>
      cases tree_of_node? hn
      rw [step_mapChildren _ (.inr he)] at h
      obtain ⟨cs, hcs, rfl⟩ := mapChildren_eq_ok h
      obtain ⟨tag, span, id, children⟩ := n
      cases children with
      | nil =>
        cases hcs
        exact he
      | cons inner tail =>
        rw [mapM_cons] at hcs
        obtain ⟨inner', t, hinn, hcs⟩ := bind_eq_ok.mp hcs
        obtain ⟨tail', t', -, hcs⟩ := bind_eq_ok.mp hcs
        cases hcs
        have hlt := size_lt_of_mem (n := ⟨tag, span, id, inner :: tail⟩) mem_cons_self
        simp only [if_pos hlt] at hinn
        -- only below a safe chain it matters what the first child becomes
        cases tag with
        | safeChain =>
          have hi' : inner'.isTarget := ih _ (hs ▸ hlt) (e := inner) he hinn rfl
          exact hi'
        | _ => exact he

end Structure

theorem lowerStructure_builds (he : e.IsSource) : Shapes [e] (lowerStructure e) ([·]) := by
  refine .recurse (v := id) (C := Carries Structure.InPlace)
    (fun e h => everywhere_of_node? h) (fun e _ => rfl) (fun rec k e h => Structure.step_leaf _ h)
    (fun k c s e s' h => ⟨?_, fun hc => Structure.isTarget_recurse hc h⟩)
    (fun rec n hrec hlike k hn => ?_) () he
  · exact carries_recurse (fun rec k e h => Structure.step_leaf _ h)
      (fun rec k n hn => ⟨(), Structure.step_mapChildren _ (.inl hn)⟩) k c h
  · exact Structure.shapes_step (hrec ()) hn fun c hc => hlike () c (size_lt_of_mem hc)

end Garnet
